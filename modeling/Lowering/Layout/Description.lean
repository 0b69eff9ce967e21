import Lowering.Layout.Basic
import Lowering.Text.Json.Reader
import Lowering.Type.Text

/-!
# Layout descriptions

A description lists what a layout holds by name: fields with the class that
declares them and their type, dispatch slots with the class whose method fills
them. Descriptions are written as JSON for dumps and read back from it.
-/

namespace Lowering

/-- A field of a layout by name. -/
structure FieldEntry where
  name : String
  declaredIn : String
  typeName : String
  deriving DecidableEq

/-- A dispatch slot of a layout by name. -/
structure SlotEntry where
  mangledName : String
  implementedIn : String
  method : String
  deriving DecidableEq

/-- A layout by names. -/
structure LayoutDescription where
  name : String
  supertype : Option String
  interfaces : List String
  fields : List FieldEntry
  slots : List SlotEntry
  deriving DecidableEq

/-- The description of a layout. -/
def TypeLayout.describe (l : TypeLayout) : LayoutDescription :=
  { name := l.qualifiedName
    supertype := l.supertype.map (·.qualifiedName)
    interfaces := l.summary.interfaces.map (·.qualifiedName)
    fields := l.fields.map fun f =>
      { name := f.name, declaredIn := f.enclosing.qualifiedName, typeName := f.type.display }
    slots := l.dispatch.entries.map fun (mangledName, m) =>
      { mangledName, implementedIn := m.enclosing.qualifiedName, method := m.name } }

/-! ## As JSON -/

namespace FieldEntry

def toJson (f : FieldEntry) : Json :=
  .object
    [("name", .string f.name),
     ("declared_in", .string f.declaredIn),
     ("type", .string f.typeName)]

/-- The field that a JSON value describes. -/
def ofJson? (json : Json) : Option FieldEntry := do
  match ← json.fields? ["name", "declared_in", "type"] with
  | [name, declaredIn, typeName] =>
    let name ← name.bind Json.text?
    let declaredIn ← declaredIn.bind Json.text?
    let typeName ← typeName.bind Json.text?
    pure { name, declaredIn, typeName }
  | _ => none

end FieldEntry

namespace SlotEntry

def toJson (s : SlotEntry) : Json :=
  .object
    [("mangled_name", .string s.mangledName),
     ("implemented_in", .string s.implementedIn),
     ("method", .string s.method)]

/-- The slot that a JSON value describes. -/
def ofJson? (json : Json) : Option SlotEntry := do
  match ← json.fields? ["mangled_name", "implemented_in", "method"] with
  | [mangledName, implementedIn, method] =>
    let mangledName ← mangledName.bind Json.text?
    let implementedIn ← implementedIn.bind Json.text?
    let method ← method.bind Json.text?
    pure { mangledName, implementedIn, method }
  | _ => none

end SlotEntry

namespace LayoutDescription

def toJson (d : LayoutDescription) : Json :=
  .object
    [("name", .string d.name),
     ("supertype", .ofText? d.supertype),
     ("interfaces", .array (d.interfaces.map .string)),
     ("fields", .array (d.fields.map (·.toJson))),
     ("vtable", .array (d.slots.map (·.toJson)))]

/-- The description that a JSON value holds. The supertype may be missing. -/
def ofJson? (json : Json) : Option LayoutDescription := do
  match ← json.fields? ["name", "supertype", "interfaces", "fields", "vtable"] with
  | [name, supertype, interfaces, fields, slots] =>
    let name ← name.bind Json.text?
    let supertype ← Json.absentOr Json.text? supertype
    let interfaces ← interfaces.bind Json.items?
    let interfaces ← interfaces.mapM Json.text?
    let fields ← fields.bind Json.items?
    let fields ← fields.mapM FieldEntry.ofJson?
    let slots ← slots.bind Json.items?
    let slots ← slots.mapM SlotEntry.ofJson?
    pure { name, supertype, interfaces, fields, slots }
  | _ => none

/-- The description in a text. -/
def parse? (text : String) : Option LayoutDescription := do
  let json ← Json.parse? text
  ofJson? json

end LayoutDescription

end Lowering
