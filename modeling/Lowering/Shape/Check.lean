import Lowering.Pipeline.Pass

/-!
# Tree shape

Later stages rely on two invariants of a unit. A not-null assertion never wraps
another one directly. Every variable reference means a parameter of its method,
or a variable whose declaration was completed earlier in the same method or
field initializer; what one method or field declares is unknown in the others.

`CompilationUnit.checkShape` looks for the first violation in source order. A
violation is a fault of an earlier stage and ends the compilation.
-/

namespace Lowering

namespace Shape

/-- A broken invariant. -/
inductive Violation where
  | doubledAssertion
  | outOfScope (var : Variable)

/-- What a violation is reported as. -/
def Violation.message : Violation → String
  | doubledAssertion => "not-null assertion directly wraps another not-null assertion"
  | outOfScope var =>
    "reference to variable '" ++ var.name ++ "' (" ++ var.id.display ++ ") outside of its scope"

/-- A violation and the span of the innermost statement or field around it. -/
structure Fault where
  violation : Violation
  span : Span

/-- The identities that may be referred to. -/
abbrev Scope := List VariableId

/-! ## Expressions -/

mutual

/-- Checks an expression in a statement or field of the given span. Gives the
scope after it. -/
def checkExpr (span : Span) : Expr → Scope → Except Fault Scope
  | .nullLiteral _, scope => .ok scope
  | .boolLiteral .., scope => .ok scope
  | .numberLiteral .., scope => .ok scope
  | .stringLiteral .., scope => .ok scope
  | .thisRef _, scope => .ok scope
  | .varRef var, scope =>
    if var.id ∈ scope then .ok scope else .error { violation := .outOfScope var, span }
  | .fieldAccess qualifier _, scope => checkOption span qualifier scope
  | .call qualifier _ arguments, scope => do
    let scope ← checkOption span qualifier scope
    checkExprs span arguments scope
  | .newInstance _ arguments, scope => checkExprs span arguments scope
  | .binary _ left right _, scope => do
    let scope ← checkExpr span left scope
    checkExpr span right scope
  | .unary _ _ operand _, scope => checkExpr span operand scope
  | .cast _ operand, scope => checkExpr span operand scope
  | .conditional _ condition whenTrue whenFalse, scope => do
    let scope ← checkExpr span condition scope
    let scope ← checkExpr span whenTrue scope
    checkExpr span whenFalse scope
  | .notNull operand, scope =>
    if operand.isNotNull then .error { violation := .doubledAssertion, span }
    else checkExpr span operand scope
  | .multi expressions, scope => checkExprs span expressions scope
  | .declare fragments, scope => checkFragments span fragments scope
termination_by structural e => e

def checkOption (span : Span) : Option Expr → Scope → Except Fault Scope
  | none, scope => .ok scope
  | some e, scope => checkExpr span e scope
termination_by structural e => e

def checkExprs (span : Span) : List Expr → Scope → Except Fault Scope
  | [], scope => .ok scope
  | e :: es, scope => do
    let scope ← checkExpr span e scope
    checkExprs span es scope
termination_by structural es => es

/-- Checks a declaration; an initializer does not see the variable that it
initializes. -/
def checkFragments (span : Span) : List (Fragment Expr) → Scope → Except Fault Scope
  | [], scope => .ok scope
  | ⟨binder, initializer⟩ :: rest, scope => do
    let scope ← checkOption span initializer scope
    checkFragments span rest (binder.id :: scope)
termination_by structural fs => fs

end

/-! ## Statements -/

mutual

/-- Checks a statement and gives the scope after it. -/
def checkStmt : Stmt → Scope → Except Fault Scope
  | .expression e span, scope => checkExpr span e scope
  | .block statements _, scope => checkStmts statements scope
  | .returnValue value span, scope => checkOption span value scope
  | .conditional condition whenTrue whenFalse span, scope => do
    let scope ← checkExpr span condition scope
    let scope ← checkStmt whenTrue scope
    checkOptionStmt whenFalse scope
  | .whileLoop condition body span, scope => do
    let scope ← checkExpr span condition scope
    checkStmt body scope
  | .forLoop initializers condition updates body span, scope => do
    let scope ← checkExprs span initializers scope
    let scope ← checkOption span condition scope
    let scope ← checkExprs span updates scope
    checkStmt body scope
  | .assertion condition message span, scope => do
    let scope ← checkExpr span condition scope
    checkOption span message scope
  | .throwValue value span, scope => checkExpr span value scope
termination_by structural s => s

def checkOptionStmt : Option Stmt → Scope → Except Fault Scope
  | none, scope => .ok scope
  | some s, scope => checkStmt s scope
termination_by structural s => s

def checkStmts : List Stmt → Scope → Except Fault Scope
  | [], scope => .ok scope
  | s :: ss, scope => do
    let scope ← checkStmt s scope
    checkStmts ss scope
termination_by structural ss => ss

end

/-! ## Declarations -/

/-- Checks a field's initializer, which starts with nothing in scope. -/
def checkField (f : FieldDecl) : Except Fault Unit := do
  let _ ← checkOption f.span f.initializer []

/-- Checks a method's body, which starts with the parameters in scope. -/
def checkMethod (d : MethodDecl) : Except Fault Unit :=
  match d.body with
  | none => .ok ()
  | some body => do
    let _ ← checkStmts body.statements (d.parameters.map (·.id))

/-- Checks the fields of a type, then its methods. -/
def checkType (d : TypeDecl) : Except Fault Unit := do
  d.fields.forM checkField
  d.methods.forM checkMethod

end Shape

/-- The first violation in a unit, if it has one. -/
def CompilationUnit.checkShape (u : CompilationUnit) : Except Shape.Fault Unit :=
  u.types.forM Shape.checkType

namespace Shape

def passName : String := "verify-tree-shape"

/-- The pass that refuses ill-shaped units and leaves the others as they are. -/
def pass : Pass where
  name := passName
  apply unit :=
    match unit.checkShape with
    | .ok () => pure unit
    | .error fault => throw <| .inconsistent
        { pass := passName, message := fault.violation.message, span := fault.span }

end Shape

end Lowering
