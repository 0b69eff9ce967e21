import Lowering.Exchange.Part
import Lowering.Type.Basic

/-!
# Exchanged types

A primitive type is its keyword and the null type is `"null"`. The other types
are objects: `class` or `interface` with `args`, `array` with its component, and
`tvar` with `bound`, `kind` and `nullability`. The member `null` of a reference
or an array says whether it is nullable, which is the default.
-/

namespace Lowering

/-! ## Names of the kinds -/

/-- The key that introduces a reference to a declaration of the kind. -/
def DeclKind.key : DeclKind → String
  | classType => "class"
  | interfaceType => "interface"

def TypeVarKind.name : TypeVarKind → String
  | declared => "declared"
  | wildcard => "wildcard"
  | capture => "capture"

def TypeVarKind.all : List TypeVarKind := [declared, wildcard, capture]

def Nullability.name : Nullability → String
  | nullable => "nullable"
  | nonNullable => "nonnull"
  | parametric => "parametric"

def Nullability.all : List Nullability := [nullable, nonNullable, parametric]

/-- The primitive types, `void` last. -/
def Primitive.all : List Primitive := boxable ++ [void]

/-! ## Writing -/

namespace Ty

mutual

/-- The type as JSON. -/
def toJson : Ty → Json
  | .prim p => .string p.name
  | .ref name kind arguments nullable =>
    .object ([(kind.key, .string name), ("null", .bool nullable)] ++
      if arguments.isEmpty then [] else [("args", .array (toJsonAll arguments))])
  | .array component nullable => .object [("array", component.toJson), ("null", .bool nullable)]
  | .typeVar name kind bound nullability =>
    .object [("tvar", .string name), ("bound", bound.toJson), ("kind", .string kind.name),
      ("nullability", .string nullability.name)]
  | .nullType => .string "null"
termination_by structural t => t

/-- Several types as JSON. -/
def toJsonAll : List Ty → List Json
  | [] => []
  | t :: ts => t.toJson :: toJsonAll ts
termination_by structural ts => ts

end

end Ty

/-- The class reference as JSON. -/
def ClassRef.toJson (c : ClassRef) : Json := c.toTy.toJson

/-! ## Reading -/

/-- A class reference whose arguments are read by the given reader. -/
def ClassRef.readWith (readArgument : Json → Option Ty) (j : Json) : Option ClassRef := do
  let nullable ← j.withDefault "null" true Json.truth?
  let arguments ← j.listOf "args" readArgument
  match j.get? DeclKind.classType.key with
  | some name =>
    let qualifiedName ← name.text?
    pure { qualifiedName, kind := .classType, arguments, nullable }
  | none =>
    let qualifiedName ← j.required DeclKind.interfaceType.key Json.text?
    pure { qualifiedName, kind := .interfaceType, arguments, nullable }

namespace Ty

/-- A type that is nested at most to the given depth. -/
def read : Nat → Json → Option Ty
  | 0, _ => none
  | depth + 1, j =>
    match j with
    | .string "null" => some .nullType
    | .string _ => (j.oneOf Primitive.all Primitive.name).map .prim
    | _ =>
      match j.get? "array", j.get? "tvar" with
      | some component, _ => do
        let component ← read depth component
        let nullable ← j.withDefault "null" true Json.truth?
        pure (.array component nullable)
      | none, some name => do
        let name ← name.text?
        let bound ← j.required "bound" (read depth)
        let kind ← j.withDefault "kind" .declared (·.oneOf TypeVarKind.all TypeVarKind.name)
        let nullability ← j.withDefault "nullability" .parametric
          (·.oneOf Nullability.all Nullability.name)
        pure (.typeVar name kind bound nullability)
      | none, none => (ClassRef.readWith (read depth) j).map (·.toTy)

/-- The type that a JSON value describes. -/
def ofJson? (j : Json) : Option Ty := read j.depth j

end Ty

/-- The class reference that a JSON value describes. -/
def ClassRef.ofJson? (j : Json) : Option ClassRef := readWith Ty.ofJson? j

end Lowering
