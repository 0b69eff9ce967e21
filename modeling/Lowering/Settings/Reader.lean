import Lowering.Settings.Basic
import Lowering.Text.Toml.Reader

/-!
# Reading settings

Settings are the table `pipeline` of a TOML document:

```toml
[pipeline]
passes = ["insert-not-null-assertions", "verify-tree-shape"]
parallel = true
worker-threads = 4
```

What is missing takes its default, and what is unknown is skipped. The table may
also be written as an array of its values in the order above.
-/

namespace Lowering

/-- The kind of pass that a value names: a string, or a table whose only entry
has that name and no content. -/
def PassKind.ofToml? : Toml.Value → Option PassKind
  | .string name => ofName? name
  | .table [(name, .table [])] => ofName? name
  | .table [(name, .array [])] => ofName? name
  | _ => none

namespace Settings

/-- A list of passes. -/
def passesOf? : Toml.Value → Option (List PassKind)
  | .array items => items.mapM PassKind.ofToml?
  | _ => none

/-- A truth value. -/
def flagOf? : Toml.Value → Option Bool
  | .boolean value => some value
  | _ => none

/-- A number of workers. -/
def countOf? : Toml.Value → Option Nat
  | .integer (.ofNat n) => some n
  | _ => none

/-- The values of the given keys. An array gives them by position. A point in
time has none of them. -/
def valuesOf? (keys : List String) : Toml.Value → Option (List (Option Toml.Value))
  | .table entries => some (keys.map fun key => entries.lookup key)
  | .array items => some (keys.mapIdx fun i _ => items[i]?)
  | .datetime _ => some (keys.map fun _ => none)
  | _ => none

/-- A value or, when it is missing, the default. -/
def orDefault {α : Type} (default : α) (read : Toml.Value → Option α) :
    Option Toml.Value → Option α
  | none => some default
  | some value => read value

/-- The settings that a value describes. -/
def ofToml? (value : Toml.Value) : Option Settings := do
  match ← valuesOf? ["passes", "parallel", "worker-threads"] value with
  | [passes, parallel, workerThreads] =>
    let standard : Settings := {}
    let passes ← orDefault standard.passes passesOf? passes
    let parallel ← orDefault standard.parallel flagOf? parallel
    let workerThreads ← orDefault standard.workerThreads countOf? workerThreads
    pure { passes, parallel, workerThreads }
  | _ => none

/-- The settings in a document. -/
def ofDocument? : Toml.Value → Option Settings
  | .table entries => orDefault {} ofToml? (entries.lookup "pipeline")
  | _ => none

/-- The valid settings that a text describes. -/
def parse (text : String) : Except SettingsError Settings :=
  match (Toml.parse? text).bind ofDocument? with
  | some settings => settings.validate
  | none => .error .malformed

/-- The valid settings in the content of a file, if there is such a file. -/
def load (content : Option ByteArray) : Except SettingsError Settings :=
  match content.bind String.fromUTF8? with
  | some text => parse text
  | none => .error .unreadable

end Settings

end Lowering
