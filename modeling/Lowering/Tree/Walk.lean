import Lowering.Tree.Decl

/-!
# Read-only traversal

A `Walk` visits a tree in source order without changing it. The hook of a node
receives the node and the action that walks its children; it may run that
action, before, after or between its own, or leave the children out. By default
every hook just walks the children.

Below the hook for all expressions, variable references, calls, not-null
assertions and variable declarations have hooks of their own.
-/

namespace Lowering

/-- The hooks of a read-only traversal. -/
structure Walk (m : Type → Type) [Monad m] where
  onUnit : CompilationUnit → m Unit → m Unit := fun _ children => children
  onType : TypeDecl → m Unit → m Unit := fun _ children => children
  onField : FieldDecl → m Unit → m Unit := fun _ children => children
  onMethod : MethodDecl → m Unit → m Unit := fun _ children => children
  onStatement : Stmt → m Unit → m Unit := fun _ children => children
  onBlock : Block → m Unit → m Unit := fun _ children => children
  onExpression : Expr → m Unit → m Unit := fun _ children => children
  onVarRef : Variable → m Unit := fun _ => pure ()
  onNotNull : Expr → m Unit → m Unit := fun _ children => children
  onDeclare : List (Fragment Expr) → m Unit → m Unit := fun _ children => children
  onCall : Option Expr → MethodRef → List Expr → m Unit → m Unit := fun _ _ _ children => children

namespace Walk

variable {m : Type → Type} [Monad m]

mutual

/-- Walks an expression. -/
def expr (w : Walk m) : Expr → m Unit
  | .nullLiteral type => w.onExpression (.nullLiteral type) (pure ())
  | .boolLiteral value type => w.onExpression (.boolLiteral value type) (pure ())
  | .numberLiteral value type => w.onExpression (.numberLiteral value type) (pure ())
  | .stringLiteral value type => w.onExpression (.stringLiteral value type) (pure ())
  | .thisRef type => w.onExpression (.thisRef type) (pure ())
  | .varRef var => w.onExpression (.varRef var) (w.onVarRef var)
  | .fieldAccess qualifier target =>
    w.onExpression (.fieldAccess qualifier target) (w.optionalExpr qualifier)
  | .call qualifier target arguments =>
    w.onExpression (.call qualifier target arguments) <|
      w.onCall qualifier target arguments do
        w.optionalExpr qualifier
        w.exprs arguments
  | .newInstance target arguments =>
    w.onExpression (.newInstance target arguments) (w.exprs arguments)
  | .binary op left right type => w.onExpression (.binary op left right type) do
    w.expr left
    w.expr right
  | .unary op fixity operand type =>
    w.onExpression (.unary op fixity operand type) (w.expr operand)
  | .cast type operand => w.onExpression (.cast type operand) (w.expr operand)
  | .conditional type condition whenTrue whenFalse =>
    w.onExpression (.conditional type condition whenTrue whenFalse) do
      w.expr condition
      w.expr whenTrue
      w.expr whenFalse
  | .notNull operand =>
    w.onExpression (.notNull operand) (w.onNotNull operand (w.expr operand))
  | .multi expressions => w.onExpression (.multi expressions) (w.exprs expressions)
  | .declare fragments =>
    w.onExpression (.declare fragments) (w.onDeclare fragments (w.fragments fragments))
termination_by structural e => e

def optionalExpr (w : Walk m) : Option Expr → m Unit
  | none => pure ()
  | some e => w.expr e
termination_by structural e => e

def exprs (w : Walk m) : List Expr → m Unit
  | [] => pure ()
  | e :: es => do
    w.expr e
    w.exprs es
termination_by structural es => es

def fragments (w : Walk m) : List (Fragment Expr) → m Unit
  | [] => pure ()
  | ⟨_, initializer⟩ :: rest => do
    w.optionalExpr initializer
    w.fragments rest
termination_by structural fs => fs

end

mutual

/-- Walks a statement. -/
def stmt (w : Walk m) : Stmt → m Unit
  | .expression e span => w.onStatement (.expression e span) (w.expr e)
  | .block statements span =>
    w.onStatement (.block statements span) (w.onBlock { statements, span } (w.stmts statements))
  | .returnValue value span => w.onStatement (.returnValue value span) (w.optionalExpr value)
  | .conditional condition whenTrue whenFalse span =>
    w.onStatement (.conditional condition whenTrue whenFalse span) do
      w.expr condition
      w.stmt whenTrue
      w.optionalStmt whenFalse
  | .whileLoop condition body span => w.onStatement (.whileLoop condition body span) do
    w.expr condition
    w.stmt body
  | .forLoop initializers condition updates body span =>
    w.onStatement (.forLoop initializers condition updates body span) do
      w.exprs initializers
      w.optionalExpr condition
      w.exprs updates
      w.stmt body
  | .assertion condition message span => w.onStatement (.assertion condition message span) do
    w.expr condition
    w.optionalExpr message
  | .throwValue value span => w.onStatement (.throwValue value span) (w.expr value)
termination_by structural s => s

def optionalStmt (w : Walk m) : Option Stmt → m Unit
  | none => pure ()
  | some s => w.stmt s
termination_by structural s => s

def stmts (w : Walk m) : List Stmt → m Unit
  | [] => pure ()
  | s :: ss => do
    w.stmt s
    w.stmts ss
termination_by structural ss => ss

end

/-- Walks the body of a method. -/
def block (w : Walk m) (b : Block) : m Unit :=
  w.onBlock b (w.stmts b.statements)

def optionalBlock (w : Walk m) : Option Block → m Unit
  | none => pure ()
  | some b => w.block b

/-- Walks a field's initializer. -/
def field (w : Walk m) (f : FieldDecl) : m Unit :=
  w.onField f (w.optionalExpr f.initializer)

/-- Walks a method's body. -/
def method (w : Walk m) (d : MethodDecl) : m Unit :=
  w.onMethod d (w.optionalBlock d.body)

/-- Walks a type's fields, then its methods. -/
def type (w : Walk m) (d : TypeDecl) : m Unit :=
  w.onType d do
    d.fields.forM w.field
    d.methods.forM w.method

/-- Walks the types of a unit. -/
def unit (w : Walk m) (u : CompilationUnit) : m Unit :=
  w.onUnit u (u.types.forM w.type)

end Walk

end Lowering
