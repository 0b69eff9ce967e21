/-!
# Operators and number literals

The operators of expressions with the facts that typing and evaluation order
depend on, and the two kinds of number literals.
-/

namespace Lowering

/-! ## Binary operators -/

/-- Binary operators, assignments included. -/
inductive BinaryOp where
  | plus
  | minus
  | times
  | divide
  | remainder
  | equals
  | notEquals
  | less
  | lessEquals
  | greater
  | greaterEquals
  | conditionalAnd
  | conditionalOr
  | assign
  | plusAssign
  | minusAssign
  deriving DecidableEq

namespace BinaryOp

/-- Every binary operator: arithmetic, comparison, logic, assignment. -/
def all : List BinaryOp :=
  [plus, minus, times, divide, remainder, equals, notEquals, less, lessEquals, greater,
    greaterEquals, conditionalAnd, conditionalOr, assign, plusAssign, minusAssign]

def isAssignment : BinaryOp → Bool
  | assign | plusAssign | minusAssign => true
  | _ => false

/-- Whether the result is a `boolean` whatever the operands are. -/
def isBooleanValued : BinaryOp → Bool
  | equals | notEquals | less | lessEquals | greater | greaterEquals
  | conditionalAnd | conditionalOr => true
  | _ => false

/-- The operator's spelling in source text. -/
def symbol : BinaryOp → String
  | plus => "+"
  | minus => "-"
  | times => "*"
  | divide => "/"
  | remainder => "%"
  | equals => "=="
  | notEquals => "!="
  | less => "<"
  | lessEquals => "<="
  | greater => ">"
  | greaterEquals => ">="
  | conditionalAnd => "&&"
  | conditionalOr => "||"
  | assign => "="
  | plusAssign => "+="
  | minusAssign => "-="

end BinaryOp

/-! ## Unary operators -/

/-- Unary operators. -/
inductive UnaryOp where
  | plus
  | minus
  | not
  | increment
  | decrement
  deriving DecidableEq

namespace UnaryOp

/-- Every unary operator. -/
def all : List UnaryOp := [plus, minus, not, increment, decrement]

/-- Whether the operator writes its operand. -/
def hasSideEffect : UnaryOp → Bool
  | increment | decrement => true
  | _ => false

end UnaryOp

/-- Where a unary operator stands: `++x` has it leading, `x++` trailing. -/
inductive Fixity where
  | leading
  | trailing
  deriving DecidableEq

/-! ## Number literals -/

/-- A double-precision number, given by its bits. -/
structure Double where
  bits : UInt64
  deriving DecidableEq

namespace Double

/-- The bits without the sign. -/
def magnitude (d : Double) : UInt64 := d.bits &&& 0x7fffffffffffffff

/-- Not a number: the exponent is all ones and the fraction is not zero. -/
def isNaN (d : Double) : Bool := 0x7ff0000000000000 < d.magnitude

def isZero (d : Double) : Bool := d.magnitude == 0

/-- Numeric equality: the two zeros are equal, and what is not a number is equal
to nothing. -/
def numericEq (d e : Double) : Bool :=
  !d.isNaN && !e.isNaN && (d.bits == e.bits || (d.isZero && e.isZero))

end Double

/-- The value of a number literal. -/
inductive NumberValue where
  | integer (value : Int64)
  | double (value : Double)
  deriving DecidableEq

namespace NumberValue

/-- Equality of literals: an integer never equals a double. -/
def sameAs : NumberValue → NumberValue → Bool
  | integer m, integer n => m == n
  | double d, double e => d.numericEq e
  | _, _ => false

def isNaN : NumberValue → Bool
  | integer _ => false
  | double d => d.isNaN

end NumberValue

end Lowering
