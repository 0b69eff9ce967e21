import Lowering.Exchange.Member
import Lowering.Exchange.Tag
import Lowering.Tree.Decl

/-!
# Writing exchanged trees

A written tree names the variables of the program by their position in the
program's list. Temporaries are not in that list; they get the positions after
it, in the order in which the writer meets them.
-/

namespace Lowering

/-! ## Positions of variables -/

/-- The positions given out so far. -/
structure Numbering where
  /-- The number of variables in the program's list. -/
  listed : Nat
  /-- The temporaries met so far. -/
  temporaries : List Variable := []

/-- Computations that write JSON. -/
abbrev Write := StateM Numbering

/-- The position of a variable. -/
def Variable.position (v : Variable) : Write Nat := fun numbering =>
  if v.id.origin = 0 then (v.id.serial, numbering)
  else
    match numbering.temporaries.findIdx? (· == v) with
    | some i => (numbering.listed + i, numbering)
    | none =>
      (numbering.listed + numbering.temporaries.length,
        { numbering with temporaries := numbering.temporaries ++ [v] })

/-- What the list of variables says about one of them. -/
def Variable.toJson (v : Variable) : Json :=
  .object [("name", .string v.name), ("type", v.type.toJson), ("final", .bool v.isFinal),
    ("param", .bool v.isParameter)]

/-! ## Small parts -/

/-- The source position as JSON. -/
def Span.toJson (s : Span) : Json :=
  .ofList Json.ofNat [s.start.toNat, s.stop.toNat, s.line.toNat, s.column.toNat]

/-- The bits in sixteen hexadecimal digits; all that is not a number is written
alike. -/
def Double.hexText (d : Double) : String :=
  let digits := Nat.toDigits 16 (if d.isNaN then 0x7ff8000000000000 else d.bits.toNat)
  .ofList (List.replicate (16 - digits.length) '0' ++ digits)

/-! ## Expressions -/

namespace Expr

/-- The written form of an expression with the given parts. -/
def node (e : Expr) (members : List (String × Json)) : Json :=
  .object (("e", .string e.tag) :: members)

mutual

/-- Writes an expression. -/
def write : Expr → Write Json
  | nullLiteral type => pure ((nullLiteral type).node [("type", type.toJson)])
  | boolLiteral value type =>
    pure ((boolLiteral value type).node [("value", .bool value), ("type", type.toJson)])
  | numberLiteral (.integer n) type =>
    pure ((numberLiteral (.integer n) type).node
      [("value", .string (toString n.toInt)), ("type", type.toJson)])
  | numberLiteral (.double d) type =>
    pure ((numberLiteral (.double d) type).node
      [("bits", .string d.hexText), ("type", type.toJson)])
  | stringLiteral value type =>
    pure ((stringLiteral value type).node [("value", .string value), ("type", type.toJson)])
  | thisRef type => pure ((thisRef type).node [("type", type.toJson)])
  | varRef var => do
    let position ← var.position
    pure ((varRef var).node ([("v", .ofNat position)] ++ Json.flagMember "final" var.isFinal))
  | fieldAccess qualifier target => do
    let q ← writeOption qualifier
    pure ((fieldAccess qualifier target).node [("q", q), ("target", target.toJson)])
  | call qualifier target arguments => do
    let q ← writeOption qualifier
    let args ← writeAll arguments
    pure ((call qualifier target arguments).node
      [("q", q), ("target", target.toJson), ("args", .array args)])
  | newInstance target arguments => do
    let args ← writeAll arguments
    pure ((newInstance target arguments).node [("target", target.toJson), ("args", .array args)])
  | binary op left right type => do
    let l ← left.write
    let r ← right.write
    pure ((binary op left right type).node
      [("op", .string op.name), ("left", l), ("right", r), ("type", type.toJson)])
  | unary op fixity operand type => do
    let e ← operand.write
    pure ((unary op fixity operand type).node
      [("op", .string op.name), ("prefix", .bool (fixity == .leading)), ("operand", e),
        ("type", type.toJson)])
  | cast type operand => do
    let e ← operand.write
    pure ((cast type operand).node [("type", type.toJson), ("expr", e)])
  | conditional type condition whenTrue whenFalse => do
    let c ← condition.write
    let a ← whenTrue.write
    let b ← whenFalse.write
    pure ((conditional type condition whenTrue whenFalse).node
      [("type", type.toJson), ("cond", c), ("then", a), ("else", b)])
  | notNull operand => do
    let e ← operand.write
    pure ((notNull operand).node [("expr", e)])
  | multi expressions => do
    let es ← writeAll expressions
    pure ((multi expressions).node [("exprs", .array es)])
  | declare fragments => do
    let frags ← writeFragments fragments
    pure ((declare fragments).node [("frags", .array frags)])
termination_by structural e => e

/-- Writes an expression that may be absent. -/
def writeOption : Option Expr → Write Json
  | none => pure .null
  | some e => e.write
termination_by structural e => e

/-- Writes expressions in order. -/
def writeAll : List Expr → Write (List Json)
  | [] => pure []
  | e :: es => do
    let j ← e.write
    let js ← writeAll es
    pure (j :: js)
termination_by structural es => es

/-- Writes the parts of a declaration in order. -/
def writeFragments : List (Fragment Expr) → Write (List Json)
  | [] => pure []
  | ⟨binder, initializer⟩ :: rest => do
    let position ← binder.position
    let init ← writeOption initializer
    let js ← writeFragments rest
    pure (.object ([("v", .ofNat position), ("init", init)] ++
      Json.flagMember "final" binder.isFinal) :: js)
termination_by structural fs => fs

end

end Expr

/-! ## Statements -/

namespace Stmt

/-- The written form of a statement with the given parts. -/
def node (s : Stmt) (members : List (String × Json)) : Json :=
  .object ([("s", .string s.tag), ("span", s.span.toJson)] ++ members)

mutual

/-- Writes a statement. -/
def write : Stmt → Write Json
  | expression e span => do
    let value ← e.write
    pure ((expression e span).node [("expr", value)])
  | block statements span => do
    let js ← writeAll statements
    pure ((block statements span).node [("stmts", .array js)])
  | returnValue value span => do
    let e ← Expr.writeOption value
    pure ((returnValue value span).node [("expr", e)])
  | conditional condition whenTrue whenFalse span => do
    let c ← condition.write
    let a ← whenTrue.write
    let b ← writeOption whenFalse
    pure ((conditional condition whenTrue whenFalse span).node
      [("cond", c), ("then", a), ("else", b)])
  | whileLoop condition body span => do
    let c ← condition.write
    let b ← body.write
    pure ((whileLoop condition body span).node [("cond", c), ("body", b)])
  | forLoop initializers condition updates body span => do
    let is ← Expr.writeAll initializers
    let c ← Expr.writeOption condition
    let us ← Expr.writeAll updates
    let b ← body.write
    pure ((forLoop initializers condition updates body span).node
      [("init", .array is), ("cond", c), ("update", .array us), ("body", b)])
  | assertion condition message span => do
    let c ← condition.write
    let m ← Expr.writeOption message
    pure ((assertion condition message span).node [("expr", c), ("message", m)])
  | throwValue value span => do
    let e ← value.write
    pure ((throwValue value span).node [("expr", e)])
termination_by structural s => s

/-- Writes a statement that may be absent. -/
def writeOption : Option Stmt → Write Json
  | none => pure .null
  | some s => s.write
termination_by structural s => s

/-- Writes statements in order. -/
def writeAll : List Stmt → Write (List Json)
  | [] => pure []
  | s :: ss => do
    let j ← s.write
    let js ← writeAll ss
    pure (j :: js)
termination_by structural ss => ss

end

end Stmt

/-! ## Declarations -/

/-- Writes a method body. -/
def Block.write (b : Block) : Write Json := do
  let statements ← Stmt.writeAll b.statements
  pure (.object [("stmts", .array statements), ("span", b.span.toJson)])

/-- Writes a body that may be absent. -/
def Block.writeOption : Option Block → Write Json
  | none => pure .null
  | some b => b.write

/-- Writes a field declaration. -/
def FieldDecl.write (f : FieldDecl) : Write Json := do
  let init ← Expr.writeOption f.initializer
  pure (.object [("desc", f.ref.toJson), ("init", init), ("span", f.span.toJson)])

/-- Writes a method declaration. -/
def MethodDecl.write (d : MethodDecl) : Write Json := do
  let params ← d.parameters.mapM Variable.position
  let body ← Block.writeOption d.body
  pure (.object [("desc", d.ref.toJson), ("params", .ofList Json.ofNat params), ("body", body),
    ("span", d.span.toJson)])

/-- Writes a type declaration. -/
def TypeDecl.write (d : TypeDecl) : Write Json := do
  let fields ← d.fields.mapM FieldDecl.write
  let methods ← d.methods.mapM MethodDecl.write
  pure (.object [("desc", d.ref.toJson), ("super", .ofOption ClassRef.toJson d.superclass),
    ("ifaces", .ofList ClassRef.toJson d.interfaces), ("fields", .array fields),
    ("methods", .array methods), ("span", d.span.toJson)])

/-- Writes a unit. -/
def CompilationUnit.write (u : CompilationUnit) : Write Json := do
  let types ← u.types.mapM TypeDecl.write
  pure (.object [("name", .string u.name), ("types", .array types)])

end Lowering
