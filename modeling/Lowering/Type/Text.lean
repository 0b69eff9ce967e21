import Lowering.Type.Known

/-!
# Type texts

Two texts belong to a type. `Ty.display` is what diagnostics and layout
descriptions show. `Ty.erasedName` drops type arguments and nullability and
replaces a type variable by its bound; `Ty.mangledErasure` spells the erased
name with identifier characters only, for use in symbol names.
-/

namespace Lowering

/-- A flag's mark in a displayed type. -/
def markIf (flag : Bool) (mark : String) : String :=
  if flag then mark else ""

/-- The mark of a type variable's annotation in a displayed type. -/
def Nullability.mark : Nullability → String
  | nullable => "?"
  | nonNullable => "!"
  | parametric => ""

namespace Ty

/-- Type arguments in angle brackets; nothing when there are none. -/
def bracketed : List String → String
  | [] => ""
  | texts => "<" ++ String.intercalate ", " texts ++ ">"

mutual

/-- The type as shown to users: arguments in angle brackets, `?` on nullable
references, `!` on variables annotated non-nullable. -/
def display : Ty → String
  | .prim p => p.name
  | .ref name _ arguments nullable =>
    name ++ bracketed (displayAll arguments) ++ markIf nullable "?"
  | .array component nullable => component.display ++ "[]" ++ markIf nullable "?"
  | .typeVar name .declared _ nullability => name ++ nullability.mark
  | .typeVar _ .wildcard bound nullability => "? extends " ++ bound.display ++ nullability.mark
  | .typeVar name .capture _ nullability => "capture of " ++ name ++ nullability.mark
  | .nullType => "null"
termination_by structural t => t

/-- The texts of several types, in order. -/
def displayAll : List Ty → List String
  | [] => []
  | t :: ts => t.display :: displayAll ts
termination_by structural ts => ts

end

/-- The source name of the type after erasure. -/
def erasedName : Ty → String
  | .prim p => p.name
  | .ref name _ _ _ => name
  | .array component _ => component.erasedName ++ "[]"
  | .typeVar _ _ bound _ => bound.erasedName
  | .nullType => Known.objectName

end Ty

/-- Spells an erased name with identifier characters: `[]` becomes `_$array` and
a dot becomes `_`. -/
def mangleChars : List Char → List Char
  | '[' :: ']' :: rest => ['_', '$', 'a', 'r', 'r', 'a', 'y'] ++ mangleChars rest
  | '.' :: rest => '_' :: mangleChars rest
  | c :: rest => c :: mangleChars rest
  | [] => []

/-- A dotted name with every dot replaced by `_`. -/
def underscoreDots (name : String) : String :=
  .ofList (name.toList.map fun c => if c = '.' then '_' else c)

/-- The erased name in identifier characters, as it stands in mangled names. -/
def Ty.mangledErasure (t : Ty) : String :=
  .ofList (mangleChars t.erasedName.toList)

end Lowering
