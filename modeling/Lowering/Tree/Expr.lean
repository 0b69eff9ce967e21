import Lowering.Member.Mangling
import Lowering.Tree.Operator
import Lowering.Tree.Variable

/-!
# Expressions

Expressions are trees whose nodes carry what is needed to read off their static
type. The module holds the tree, the static type, the two questions that null
safety asks (`Expr.canBeNull`, `Expr.isIdempotent`) and the constructors that
compute a node's type from its parts.
-/

namespace Lowering

/-- One variable of a declaration, with its initializer if it has one. -/
structure Fragment (ε : Type) where
  binder : Variable
  initializer : Option ε

/-- Expressions. -/
inductive Expr where
  /-- `null` -/
  | nullLiteral (type : Ty)
  /-- `true` or `false` -/
  | boolLiteral (value : Bool) (type : Ty)
  /-- A number. -/
  | numberLiteral (value : NumberValue) (type : Ty)
  /-- A text in quotes. -/
  | stringLiteral (value : String) (type : Ty)
  /-- `this` -/
  | thisRef (type : Ty)
  /-- A local variable or parameter. -/
  | varRef (var : Variable)
  /-- `q.f`; a static field may stand without qualifier. -/
  | fieldAccess (qualifier : Option Expr) (target : FieldRef)
  /-- `q.m(args)`; a static method may stand without qualifier. -/
  | call (qualifier : Option Expr) (target : MethodRef) (arguments : List Expr)
  /-- `new C(args)`; the target is the constructor. -/
  | newInstance (target : MethodRef) (arguments : List Expr)
  /-- A binary operation or an assignment. -/
  | binary (op : BinaryOp) (left right : Expr) (type : Ty)
  /-- A unary operation. -/
  | unary (op : UnaryOp) (fixity : Fixity) (operand : Expr) (type : Ty)
  /-- `(T) e` -/
  | cast (type : Ty) (operand : Expr)
  /-- `c ? a : b` -/
  | conditional (type : Ty) (condition whenTrue whenFalse : Expr)
  /-- `e!`, the value of `e`, which must not be null. -/
  | notNull (operand : Expr)
  /-- Several expressions evaluated in order; the value is that of the last. -/
  | multi (expressions : List Expr)
  /-- A declaration of local variables. -/
  | declare (fragments : List (Fragment Expr))

namespace Expr

/-! ## Static type -/

mutual

/-- The static type. -/
def type : Expr → Ty
  | nullLiteral t => t
  | boolLiteral _ t => t
  | numberLiteral _ t => t
  | stringLiteral _ t => t
  | thisRef t => t
  | varRef v => v.type
  | fieldAccess _ target => target.type
  | call _ target _ => target.returnType
  | newInstance target _ => target.enclosing.toTy.toNonNullable
  | binary _ _ _ t => t
  | unary _ _ _ t => t
  | cast t _ => t
  | conditional t _ _ _ => t
  | notNull operand => operand.type.toNonNullable
  | multi expressions => typeOfLast expressions
  | declare _ => .prim .void
termination_by structural e => e

/-- The static type of the last expression, `void` when there is none. -/
def typeOfLast : List Expr → Ty
  | [] => .prim .void
  | [e] => e.type
  | _ :: e :: es => typeOfLast (e :: es)
termination_by structural es => es

end

/-! ## Facts about values and effects -/

/-- Whether the value may be `null`: as the static type says, except that new
instances, `this`, texts and asserted values never are. -/
def canBeNull : Expr → Bool
  | newInstance .. => false
  | thisRef _ => false
  | stringLiteral .. => false
  | notNull _ => false
  | e => e.type.canBeNull

/-- Whether evaluating the expression a second time in the same state gives the
same value and has no effect. -/
def isIdempotent : Expr → Bool
  | nullLiteral _ => true
  | boolLiteral .. => true
  | numberLiteral .. => true
  | stringLiteral .. => true
  | thisRef _ => true
  | varRef _ => true
  | fieldAccess none _ => true
  | fieldAccess (some qualifier) _ => qualifier.isIdempotent
  | call .. => false
  | newInstance .. => false
  | binary op left right _ => !op.isAssignment && left.isIdempotent && right.isIdempotent
  | unary op _ operand _ => !op.hasSideEffect && operand.isIdempotent
  | cast _ operand => operand.isIdempotent
  | conditional _ condition whenTrue whenFalse =>
    condition.isIdempotent && whenTrue.isIdempotent && whenFalse.isIdempotent
  | notNull operand => operand.isIdempotent
  | multi _ => false
  | declare _ => false

def isLiteral : Expr → Bool
  | nullLiteral _ => true
  | boolLiteral .. => true
  | numberLiteral .. => true
  | stringLiteral .. => true
  | _ => false

def isNullLiteral : Expr → Bool
  | nullLiteral _ => true
  | _ => false

def isNotNull : Expr → Bool
  | notNull _ => true
  | _ => false

/-! ## Constructors that compute types -/

/-- `null`, of the null type. -/
def null : Expr := nullLiteral .nullType

def ofBool (value : Bool) : Expr := boolLiteral value (.prim .boolean)

def ofInt (value : Int64) : Expr := numberLiteral (.integer value) (.prim .int)

def ofDouble (value : Double) : Expr := numberLiteral (.double value) (.prim .double)

/-- A text of the non-nullable string type. -/
def ofString (value : String) : Expr := stringLiteral value Known.string.toNonNullable

/-- `this` in a class of the given type. -/
def thisOf (t : Ty) : Expr := thisRef t.toNonNullable

/-- A binary operation: comparisons and logic are `boolean`, arithmetic and
assignments have the type of the left operand. -/
def operation (op : BinaryOp) (left right : Expr) : Expr :=
  binary op left right (if op.isBooleanValued then .prim .boolean else left.type)

def assignment (target value : Expr) : Expr := operation .assign target value

/-- A unary operation: negation is `boolean`, the others have the operand's type. -/
def unaryOperation (op : UnaryOp) (fixity : Fixity) (operand : Expr) : Expr :=
  unary op fixity operand (match op with | .not => .prim .boolean | _ => operand.type)

/-- `e == null` -/
def equalsNull (e : Expr) : Expr := operation .equals e null

/-- The declaration of a single variable. -/
def declareOne (v : Variable) (initializer : Option Expr) : Expr :=
  declare [{ binder := v, initializer }]

end Expr

end Lowering
