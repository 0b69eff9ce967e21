import Lowering.Exchange.Member
import Lowering.Exchange.Tag
import Lowering.Tree.Decl

/-!
# Reading exchanged trees

The variables of a program are listed first; the nodes of its trees name them by
their position in that list. A reference to a variable may say on its own whether
it is final. Types of nodes may be left out where the parts of the node determine
them.
-/

namespace Lowering

/-! ## Small parts -/

/-- The source position that a JSON value describes. -/
def Span.ofJson? (j : Json) : Option Span := do
  let items ← j.items?
  match ← items.mapM Json.nat? with
  | [start, stop, line, column] =>
    pure
      { start := .ofNat start, stop := .ofNat stop, line := .ofNat line, column := .ofNat column }
  | _ => none

/-- The variables of a program, numbered in order. -/
def Variable.listOfJson? (j : Json) : Option (List Variable) := do
  let described ← j.listOf "vars" fun v => do
    let name ← v.required "name" Json.text?
    let type ← v.required "type" Ty.ofJson?
    let isParameter ← v.flag "param"
    let isFinal ← v.flag "final"
    pure { id := { serial := 0 }, name, type, isFinal, isParameter : Variable }
  pure (described.mapIdx fun serial v => { v with id := { serial } })

/-- A whole number in decimal notation, 64 bits wide. -/
def integerText? (j : Json) : Option Int64 := do
  let text ← j.text?
  match text.toList with
  | '-' :: digits => (digitsValue? 10 digits).map fun n => .ofInt (-n)
  | digits => (digitsValue? 10 digits).map fun n => .ofInt n

/-- The bits of a double in hexadecimal notation. -/
def bitsText? (j : Json) : Option Double := do
  let text ← j.text?
  let n ← digitsValue? 16 text.toList
  pure { bits := .ofNat n }

namespace Exchange

/-- The variable at a position. -/
def listed? (vars : List Variable) (j : Json) : Option Variable := do
  let index ← j.nat?
  vars[index]?

/-- A use of a variable. -/
def use? (vars : List Variable) (j : Json) : Option Variable := do
  let v ← j.required "v" (listed? vars)
  let isFinal ← j.withDefault "final" v.isFinal Json.truth?
  pure { v with isFinal }

/-- A span; an absent one is at the start of the source. -/
def span? (j : Json) : Option Span := j.withDefault "span" {} Span.ofJson?

end Exchange

open Exchange

/-! ## Expressions -/

namespace Expr

/-- An expression that is nested at most to the given depth. -/
def read (vars : List Variable) : Nat → Json → Option Expr
  | 0, _ => none
  | depth + 1, j => do
    match ← j.required "e" Json.text? with
    | "null" =>
      let type ← j.withDefault "type" .nullType Ty.ofJson?
      pure (.nullLiteral type)
    | "bool" =>
      let value ← j.flag "value"
      let type ← j.withDefault "type" (.prim .boolean) Ty.ofJson?
      pure (.boolLiteral value type)
    | "int" =>
      let value ← j.required "value" integerText?
      let type ← j.withDefault "type" (.prim .int) Ty.ofJson?
      pure (.numberLiteral (.integer value) type)
    | "float" =>
      let value ← j.required "bits" bitsText?
      let type ← j.withDefault "type" (.prim .double) Ty.ofJson?
      pure (.numberLiteral (.double value) type)
    | "str" =>
      let value ← j.required "value" Json.text?
      let type ← j.withDefault "type" Known.string.toNonNullable Ty.ofJson?
      pure (.stringLiteral value type)
    | "this" =>
      match ← j.optional "of" Ty.ofJson? with
      | some type => pure (.thisOf type)
      | none =>
        let type ← j.required "type" Ty.ofJson?
        pure (.thisRef type)
    | "var" =>
      let v ← use? vars j
      pure (.varRef v)
    | "field" =>
      let qualifier ← j.optional "q" (read vars depth)
      let target ← j.required "target" FieldRef.ofJson?
      pure (.fieldAccess qualifier target)
    | "call" =>
      let qualifier ← j.optional "q" (read vars depth)
      let target ← j.required "target" MethodRef.ofJson?
      let arguments ← j.listOf "args" (read vars depth)
      pure (.call qualifier target arguments)
    | "new" =>
      let target ← j.required "target" MethodRef.ofJson?
      let arguments ← j.listOf "args" (read vars depth)
      pure (.newInstance target arguments)
    | "bin" =>
      let op ← j.required "op" (·.oneOf BinaryOp.all BinaryOp.name)
      let left ← j.required "left" (read vars depth)
      let right ← j.required "right" (read vars depth)
      let type ← j.withDefault "type" (operation op left right).type Ty.ofJson?
      pure (.binary op left right type)
    | "un" =>
      let op ← j.required "op" (·.oneOf UnaryOp.all UnaryOp.name)
      let leading ← j.withDefault "prefix" true Json.truth?
      let fixity : Fixity := if leading then .leading else .trailing
      let operand ← j.required "operand" (read vars depth)
      let type ← j.withDefault "type" (unaryOperation op fixity operand).type Ty.ofJson?
      pure (.unary op fixity operand type)
    | "cast" =>
      let type ← j.required "type" Ty.ofJson?
      let operand ← j.required "expr" (read vars depth)
      pure (.cast type operand)
    | "cond" =>
      let type ← j.required "type" Ty.ofJson?
      let condition ← j.required "cond" (read vars depth)
      let whenTrue ← j.required "then" (read vars depth)
      let whenFalse ← j.required "else" (read vars depth)
      pure (.conditional type condition whenTrue whenFalse)
    | "notnull" =>
      let operand ← j.required "expr" (read vars depth)
      pure (.notNull operand)
    | "multi" =>
      let expressions ← j.listOf "exprs" (read vars depth)
      pure (.multi expressions)
    | "decl" =>
      let fragments ← j.listOf "frags" fun f => do
        let binder ← use? vars f
        let initializer ← f.optional "init" (read vars depth)
        pure { binder, initializer }
      pure (.declare fragments)
    | _ => none

/-- The expression that a JSON value describes. -/
def ofJson? (vars : List Variable) (j : Json) : Option Expr := read vars j.depth j

end Expr

/-! ## Statements -/

namespace Stmt

/-- A statement that is nested at most to the given depth. -/
def read (vars : List Variable) : Nat → Json → Option Stmt
  | 0, _ => none
  | depth + 1, j => do
    let span ← span? j
    match ← j.required "s" Json.text? with
    | "expr" =>
      let e ← j.required "expr" (Expr.ofJson? vars)
      pure (.expression e span)
    | "block" =>
      let statements ← j.listOf "stmts" (read vars depth)
      pure (.block statements span)
    | "return" =>
      let value ← j.optional "expr" (Expr.ofJson? vars)
      pure (.returnValue value span)
    | "if" =>
      let condition ← j.required "cond" (Expr.ofJson? vars)
      let whenTrue ← j.required "then" (read vars depth)
      let whenFalse ← j.optional "else" (read vars depth)
      pure (.conditional condition whenTrue whenFalse span)
    | "while" =>
      let condition ← j.required "cond" (Expr.ofJson? vars)
      let body ← j.required "body" (read vars depth)
      pure (.whileLoop condition body span)
    | "for" =>
      let initializers ← j.listOf "init" (Expr.ofJson? vars)
      let condition ← j.optional "cond" (Expr.ofJson? vars)
      let updates ← j.listOf "update" (Expr.ofJson? vars)
      let body ← j.required "body" (read vars depth)
      pure (.forLoop initializers condition updates body span)
    | "assert" =>
      let condition ← j.required "expr" (Expr.ofJson? vars)
      let message ← j.optional "message" (Expr.ofJson? vars)
      pure (.assertion condition message span)
    | "throw" =>
      let value ← j.required "expr" (Expr.ofJson? vars)
      pure (.throwValue value span)
    | _ => none

/-- The statement that a JSON value describes. -/
def ofJson? (vars : List Variable) (j : Json) : Option Stmt := read vars j.depth j

end Stmt

/-! ## Declarations -/

/-- The method body that a JSON value describes. -/
def Block.ofJson? (vars : List Variable) (j : Json) : Option Block := do
  let statements ← j.listOf "stmts" (Stmt.ofJson? vars)
  let span ← span? j
  pure { statements, span }

/-- The field declaration that a JSON value describes. -/
def FieldDecl.ofJson? (vars : List Variable) (j : Json) : Option FieldDecl := do
  let ref ← j.required "desc" FieldRef.ofJson?
  let initializer ← j.optional "init" (Expr.ofJson? vars)
  let span ← span? j
  pure { ref, initializer, span }

/-- The method declaration that a JSON value describes. -/
def MethodDecl.ofJson? (vars : List Variable) (j : Json) : Option MethodDecl := do
  let ref ← j.required "desc" MethodRef.ofJson?
  let parameters ← j.listOf "params" (listed? vars)
  let body ← j.optional "body" (Block.ofJson? vars)
  let span ← span? j
  pure { ref, parameters, body, span }

/-- The type declaration that a JSON value describes. -/
def TypeDecl.ofJson? (vars : List Variable) (j : Json) : Option TypeDecl := do
  let ref ← j.required "desc" ClassRef.ofJson?
  let superclass ← j.optional "super" ClassRef.ofJson?
  let interfaces ← j.listOf "ifaces" ClassRef.ofJson?
  let fields ← j.listOf "fields" (FieldDecl.ofJson? vars)
  let methods ← j.listOf "methods" (MethodDecl.ofJson? vars)
  let span ← span? j
  pure { ref, superclass, interfaces, fields, methods, span }

/-- The unit that a JSON value describes. -/
def CompilationUnit.ofJson? (vars : List Variable) (j : Json) : Option CompilationUnit := do
  let name ← j.required "name" Json.text?
  let types ← j.listOf "types" (TypeDecl.ofJson? vars)
  pure { name, types }

end Lowering
