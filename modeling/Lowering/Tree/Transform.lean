import Lowering.Tree.Decl

/-!
# Bottom-up transformation

A `Transform` rebuilds a tree in one pass from the leaves up. The children of a
node are transformed first, in source order; then the node's own hook receives
the node with its new children and decides what takes its place. What a hook
returns is not looked at again. Types, fields, methods and statements also have
an enter hook, run on the node before its children, and an exit hook, run on
what took its place.

Hooks run in a monad, so a transform may carry state along. All hooks default to
leaving the tree as it is.
-/

namespace Lowering

/-- The hooks of a transformation. -/
structure Transform (m : Type → Type) [Monad m] where
  enterType : TypeDecl → m Unit := fun _ => pure ()
  exitType : TypeDecl → m Unit := fun _ => pure ()
  enterField : FieldDecl → m Unit := fun _ => pure ()
  exitField : FieldDecl → m Unit := fun _ => pure ()
  enterMethod : MethodDecl → m Unit := fun _ => pure ()
  exitMethod : MethodDecl → m Unit := fun _ => pure ()
  enterStatement : Stmt → m Unit := fun _ => pure ()
  exitStatement : Stmt → m Unit := fun _ => pure ()
  onUnit : CompilationUnit → m CompilationUnit := pure
  onType : TypeDecl → m TypeDecl := pure
  onField : FieldDecl → m FieldDecl := pure
  onMethod : MethodDecl → m MethodDecl := pure
  onBlock : Block → m Block := pure
  onExpressionStmt : Expr → Span → m Stmt := fun e span => pure (.expression e span)
  onReturn : Option Expr → Span → m Stmt := fun value span => pure (.returnValue value span)
  onIf : Expr → Stmt → Option Stmt → Span → m Stmt := fun condition whenTrue whenFalse span =>
    pure (.conditional condition whenTrue whenFalse span)
  onWhile : Expr → Stmt → Span → m Stmt := fun condition body span =>
    pure (.whileLoop condition body span)
  onFor : List Expr → Option Expr → List Expr → Stmt → Span → m Stmt :=
    fun initializers condition updates body span =>
      pure (.forLoop initializers condition updates body span)
  onAssert : Expr → Option Expr → Span → m Stmt := fun condition message span =>
    pure (.assertion condition message span)
  onThrow : Expr → Span → m Stmt := fun value span => pure (.throwValue value span)
  onNullLiteral : Ty → m Expr := fun type => pure (.nullLiteral type)
  onBoolLiteral : Bool → Ty → m Expr := fun value type => pure (.boolLiteral value type)
  onNumberLiteral : NumberValue → Ty → m Expr := fun value type => pure (.numberLiteral value type)
  onStringLiteral : String → Ty → m Expr := fun value type => pure (.stringLiteral value type)
  onThis : Ty → m Expr := fun type => pure (.thisRef type)
  onVarRef : Variable → m Expr := fun var => pure (.varRef var)
  onFieldAccess : Option Expr → FieldRef → m Expr := fun qualifier target =>
    pure (.fieldAccess qualifier target)
  onCall : Option Expr → MethodRef → List Expr → m Expr := fun qualifier target arguments =>
    pure (.call qualifier target arguments)
  onNewInstance : MethodRef → List Expr → m Expr := fun target arguments =>
    pure (.newInstance target arguments)
  onBinary : BinaryOp → Expr → Expr → Ty → m Expr := fun op left right type =>
    pure (.binary op left right type)
  onUnary : UnaryOp → Fixity → Expr → Ty → m Expr := fun op fixity operand type =>
    pure (.unary op fixity operand type)
  onCast : Ty → Expr → m Expr := fun type operand => pure (.cast type operand)
  onConditional : Ty → Expr → Expr → Expr → m Expr := fun type condition whenTrue whenFalse =>
    pure (.conditional type condition whenTrue whenFalse)
  onNotNull : Expr → m Expr := fun operand => pure (.notNull operand)
  onMulti : List Expr → m Expr := fun expressions => pure (.multi expressions)
  onDeclare : List (Fragment Expr) → m Expr := fun fragments => pure (.declare fragments)

namespace Transform

variable {m : Type → Type} [Monad m]

/-! ## Expressions -/

mutual

/-- Transforms an expression. -/
def expr (t : Transform m) : Expr → m Expr
  | .nullLiteral type => t.onNullLiteral type
  | .boolLiteral value type => t.onBoolLiteral value type
  | .numberLiteral value type => t.onNumberLiteral value type
  | .stringLiteral value type => t.onStringLiteral value type
  | .thisRef type => t.onThis type
  | .varRef var => t.onVarRef var
  | .fieldAccess qualifier target => do
    let qualifier ← t.optionalExpr qualifier
    t.onFieldAccess qualifier target
  | .call qualifier target arguments => do
    let qualifier ← t.optionalExpr qualifier
    let arguments ← t.exprs arguments
    t.onCall qualifier target arguments
  | .newInstance target arguments => do
    let arguments ← t.exprs arguments
    t.onNewInstance target arguments
  | .binary op left right type => do
    let left ← t.expr left
    let right ← t.expr right
    t.onBinary op left right type
  | .unary op fixity operand type => do
    let operand ← t.expr operand
    t.onUnary op fixity operand type
  | .cast type operand => do
    let operand ← t.expr operand
    t.onCast type operand
  | .conditional type condition whenTrue whenFalse => do
    let condition ← t.expr condition
    let whenTrue ← t.expr whenTrue
    let whenFalse ← t.expr whenFalse
    t.onConditional type condition whenTrue whenFalse
  | .notNull operand => do
    let operand ← t.expr operand
    t.onNotNull operand
  | .multi expressions => do
    let expressions ← t.exprs expressions
    t.onMulti expressions
  | .declare fragments => do
    let fragments ← t.fragments fragments
    t.onDeclare fragments
termination_by structural e => e

/-- Transforms an expression that may be absent. -/
def optionalExpr (t : Transform m) : Option Expr → m (Option Expr)
  | none => pure none
  | some e => do
    let e ← t.expr e
    pure (some e)
termination_by structural e => e

/-- Transforms expressions from left to right. -/
def exprs (t : Transform m) : List Expr → m (List Expr)
  | [] => pure []
  | e :: es => do
    let e ← t.expr e
    let es ← t.exprs es
    pure (e :: es)
termination_by structural es => es

/-- Transforms the initializers of a declaration from left to right. -/
def fragments (t : Transform m) : List (Fragment Expr) → m (List (Fragment Expr))
  | [] => pure []
  | ⟨binder, initializer⟩ :: rest => do
    let initializer ← t.optionalExpr initializer
    let rest ← t.fragments rest
    pure (⟨binder, initializer⟩ :: rest)
termination_by structural fs => fs

end

/-! ## Statements -/

/-- Runs a statement's enter and exit hooks around its transformation. -/
def bracketed (t : Transform m) (s : Stmt) (inner : m Stmt) : m Stmt := do
  t.enterStatement s
  let result ← inner
  t.exitStatement result
  pure result

mutual

/-- Transforms a statement. -/
def stmt (t : Transform m) : Stmt → m Stmt
  | .expression e span => t.bracketed (.expression e span) do
    let e ← t.expr e
    t.onExpressionStmt e span
  | .block statements span => t.bracketed (.block statements span) do
    let statements ← t.stmts statements
    let block ← t.onBlock { statements, span }
    pure (.block block.statements block.span)
  | .returnValue value span => t.bracketed (.returnValue value span) do
    let value ← t.optionalExpr value
    t.onReturn value span
  | .conditional condition whenTrue whenFalse span =>
    t.bracketed (.conditional condition whenTrue whenFalse span) do
      let condition ← t.expr condition
      let whenTrue ← t.stmt whenTrue
      let whenFalse ← t.optionalStmt whenFalse
      t.onIf condition whenTrue whenFalse span
  | .whileLoop condition body span => t.bracketed (.whileLoop condition body span) do
    let condition ← t.expr condition
    let body ← t.stmt body
    t.onWhile condition body span
  | .forLoop initializers condition updates body span =>
    t.bracketed (.forLoop initializers condition updates body span) do
      let initializers ← t.exprs initializers
      let condition ← t.optionalExpr condition
      let updates ← t.exprs updates
      let body ← t.stmt body
      t.onFor initializers condition updates body span
  | .assertion condition message span => t.bracketed (.assertion condition message span) do
    let condition ← t.expr condition
    let message ← t.optionalExpr message
    t.onAssert condition message span
  | .throwValue value span => t.bracketed (.throwValue value span) do
    let value ← t.expr value
    t.onThrow value span
termination_by structural s => s

/-- Transforms a statement that may be absent. -/
def optionalStmt (t : Transform m) : Option Stmt → m (Option Stmt)
  | none => pure none
  | some s => do
    let s ← t.stmt s
    pure (some s)
termination_by structural s => s

/-- Transforms statements in order. -/
def stmts (t : Transform m) : List Stmt → m (List Stmt)
  | [] => pure []
  | s :: ss => do
    let s ← t.stmt s
    let ss ← t.stmts ss
    pure (s :: ss)
termination_by structural ss => ss

end

/-- Transforms the body of a method. -/
def block (t : Transform m) (b : Block) : m Block := do
  let statements ← t.stmts b.statements
  t.onBlock { b with statements }

/-! ## Declarations -/

/-- Transforms a body that may be absent. -/
def optionalBlock (t : Transform m) : Option Block → m (Option Block)
  | none => pure none
  | some b => do
    let b ← t.block b
    pure (some b)

/-- Transforms a field's initializer, then the field. -/
def field (t : Transform m) (f : FieldDecl) : m FieldDecl := do
  t.enterField f
  let initializer ← t.optionalExpr f.initializer
  let result ← t.onField { f with initializer }
  t.exitField result
  pure result

/-- Transforms a method's body, then the method. -/
def method (t : Transform m) (d : MethodDecl) : m MethodDecl := do
  t.enterMethod d
  let body ← t.optionalBlock d.body
  let result ← t.onMethod { d with body }
  t.exitMethod result
  pure result

/-- Transforms a type's fields, its methods, then the type. -/
def type (t : Transform m) (d : TypeDecl) : m TypeDecl := do
  t.enterType d
  let fields ← d.fields.mapM t.field
  let methods ← d.methods.mapM t.method
  let result ← t.onType { d with fields, methods }
  t.exitType result
  pure result

/-- Transforms the types of a unit, then the unit. -/
def unit (t : Transform m) (u : CompilationUnit) : m CompilationUnit := do
  let types ← u.types.mapM t.type
  t.onUnit { u with types }

end Transform

end Lowering
