import Lowering.NullSafety.Pass
import Lowering.Pipeline.Run
import Lowering.Shape.Check

/-!
# Settings

The settings of a compilation name the passes to run, in order, and say whether
the units are spread over workers. Settings that list a pass twice are invalid.
-/

namespace Lowering

/-- The passes that settings may name. -/
inductive PassKind where
  | insertNotNullAssertions
  | verifyTreeShape
  deriving DecidableEq

namespace PassKind

/-- The name of a kind in reports. -/
def label : PassKind → String
  | insertNotNullAssertions => "InsertNotNullAssertions"
  | verifyTreeShape => "VerifyTreeShape"

/-- The pass of a kind. -/
def pass : PassKind → Pass
  | insertNotNullAssertions => NullSafety.pass
  | verifyTreeShape => Shape.pass

/-- The kind that settings name so. -/
def ofName? : String → Option PassKind
  | "insert-not-null-assertions" => some insertNotNullAssertions
  | "verify-tree-shape" => some verifyTreeShape
  | _ => none

end PassKind

/-- How to run the passes over a program. -/
structure Settings where
  /-- The passes in the order in which they run. -/
  passes : List PassKind := [.insertNotNullAssertions, .verifyTreeShape]
  /-- Whether units are spread over workers. -/
  parallel : Bool := false
  /-- The number of workers; 0 stands for one per processor. -/
  workerThreads : Nat := 0
  deriving DecidableEq

/-- Why there are no settings to use. -/
inductive SettingsError where
  /-- There is no text to read. -/
  | unreadable
  /-- The text is not TOML, or describes no settings. -/
  | malformed
  /-- A pass is listed twice. -/
  | repeatedPass (kind : PassKind)
  deriving DecidableEq

/-- The report of a settings error. -/
def SettingsError.display : SettingsError → String
  | unreadable => "Cannot read config file"
  | malformed => "Cannot parse config file"
  | repeatedPass kind => "Invalid config: Pass " ++ kind.label ++ " is listed more than once"

namespace Settings

/-- The first pass that stands in a list after having stood there before; the
earlier ones are `seen`. -/
def firstRepeated? (seen : List PassKind) : List PassKind → Option PassKind
  | [] => none
  | kind :: rest => if kind ∈ seen then some kind else firstRepeated? (kind :: seen) rest

/-- The settings, unless they list a pass twice. -/
def validate (s : Settings) : Except SettingsError Settings :=
  match firstRepeated? [] s.passes with
  | some kind => .error (.repeatedPass kind)
  | none => .ok s

/-- The number of workers on a machine with the given number of processors. -/
def workerCount (s : Settings) (processors : Nat) : Nat :=
  if s.workerThreads = 0 then processors else s.workerThreads

/-- The pipeline that the settings describe, on a machine with the given number
of processors. -/
def toPipeline (s : Settings) (processors : Nat) : Pipeline :=
  let p : Pipeline := { passes := s.passes.map (·.pass) }
  if s.parallel then p.withWorkers (s.workerCount processors) else p

end Settings

end Lowering
