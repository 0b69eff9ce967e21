import Lowering.Exchange.Type
import Lowering.Layout.Summary
import Lowering.Member.Basic

/-!
# Exchanged fields, methods and class summaries

A member gives its enclosing type as `in`, its name and its types. Flags are
written only when they are set. A specialized member carries, as `decl`, the
member that it specializes. A constructor has the flag `ctor`, and its name and
return type go without saying.
-/

namespace Lowering

def Visibility.name : Visibility → String
  | publicAccess => "public"
  | protectedAccess => "protected"
  | packageAccess => "package"
  | privateAccess => "private"

def Visibility.all : List Visibility :=
  [publicAccess, protectedAccess, packageAccess, privateAccess]

/-! ## Fields -/

/-- The parts of a field signature. -/
def FieldSignature.members (f : FieldSignature) : List (String × Json) :=
  [("in", f.enclosing.toJson), ("name", .string f.name), ("type", f.type.toJson)] ++
    Json.flagMember "static" f.isStatic ++ Json.flagMember "final" f.isFinal

namespace FieldRef

/-- A field with the signatures that it specializes. -/
def chainToJson (f : FieldSignature) : List FieldSignature → Json
  | [] => .object f.members
  | origin :: further => .object (f.members ++ [("decl", chainToJson origin further)])

/-- The field as JSON. -/
def toJson (f : FieldRef) : Json := chainToJson f.toFieldSignature f.origins

/-- A field with at most the given number of signatures behind it. -/
def read : Nat → Json → Option FieldRef
  | 0, _ => none
  | depth + 1, j => do
    let enclosing ← j.required "in" ClassRef.ofJson?
    let name ← j.required "name" Json.text?
    let type ← j.required "type" Ty.ofJson?
    let isStatic ← j.flag "static"
    let isFinal ← j.flag "final"
    let field : FieldRef := { enclosing, name, type, isStatic, isFinal }
    let declaration ← j.optional "decl" (read depth)
    pure ((declaration.map field.specializing).getD field)

/-- The field that a JSON value describes. -/
def ofJson? (j : Json) : Option FieldRef := read j.depth j

end FieldRef

/-! ## Methods -/

/-- The parts of a method signature. -/
def MethodSignature.members (m : MethodSignature) : List (String × Json) :=
  [("in", m.enclosing.toJson), ("name", .string m.name), ("params", .ofList Ty.toJson m.parameters),
    ("ret", m.returnType.toJson)] ++
    (if m.visibility = .publicAccess then [] else [("vis", .string m.visibility.name)]) ++
    Json.flagMember "static" m.isStatic ++ Json.flagMember "abstract" m.isAbstract ++
    Json.flagMember "synthetic" m.isSynthetic ++ Json.flagMember "ctor" m.isConstructor

namespace MethodRef

/-- A method with the signatures that it specializes. -/
def chainToJson (m : MethodSignature) : List MethodSignature → Json
  | [] => .object m.members
  | origin :: further => .object (m.members ++ [("decl", chainToJson origin further)])

/-- The method as JSON. -/
def toJson (m : MethodRef) : Json := chainToJson m.toMethodSignature m.origins

/-- The name, parameters and return type of a method. -/
def readShape (j : Json) : Option MethodRef := do
  let enclosing ← j.required "in" ClassRef.ofJson?
  let parameters ← j.listOf "params" Ty.ofJson?
  if ← j.flag "ctor" then
    pure (constructor enclosing parameters)
  else
    let name ← j.required "name" Json.text?
    let returnType ← j.withDefault "ret" (.prim .void) Ty.ofJson?
    pure { enclosing, name, parameters, returnType }

/-- A method with at most the given number of signatures behind it. -/
def read : Nat → Json → Option MethodRef
  | 0, _ => none
  | depth + 1, j => do
    let shape ← readShape j
    let visibility ← j.withDefault "vis" .publicAccess (·.oneOf Visibility.all Visibility.name)
    let isStatic ← j.flag "static"
    let isAbstract ← j.flag "abstract"
    let isSynthetic ← j.flag "synthetic"
    let method : MethodRef := { shape with visibility, isStatic, isAbstract, isSynthetic }
    let declaration ← j.optional "decl" (read depth)
    pure ((declaration.map method.specializing).getD method)

/-- The method that a JSON value describes. -/
def ofJson? (j : Json) : Option MethodRef := read j.depth j

end MethodRef

/-! ## Class summaries -/

namespace ClassSummary

/-- The summary as JSON. -/
def toJson (c : ClassSummary) : Json :=
  .object
    [("desc", c.ref.toJson), ("name", .string c.qualifiedName),
     ("is_interface", .bool c.isInterface), ("super", .ofOption ClassRef.toJson c.superclass),
     ("ifaces", .ofList ClassRef.toJson c.interfaces), ("fields", .ofList FieldRef.toJson c.fields),
     ("methods", .ofList MethodRef.toJson c.methods)]

/-- The summary of the class that a JSON value describes. -/
def ofJson? (j : Json) : Option ClassSummary := do
  let ref ← j.required "desc" ClassRef.ofJson?
  let superclass ← j.optional "super" ClassRef.ofJson?
  let interfaces ← j.listOf "ifaces" ClassRef.ofJson?
  let fields ← j.listOf "fields" FieldRef.ofJson?
  let methods ← j.listOf "methods" MethodRef.ofJson?
  pure (ofMembers ref superclass interfaces fields methods)

end ClassSummary

end Lowering
