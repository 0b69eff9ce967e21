import Lowering.NullSafety.Insertion
import Lowering.Pipeline.Pass

/-!
# The null-safety pass

The pass makes every implicit null check of the source language explicit. It
goes over the unit twice. The first traversal visits all conversion sites and
asserts values non-null where the site requires it. The second one gives assert
messages that may be null the text `null` as default. The sites come first:
once assertions stand in the tree, the context of a conversion is no longer
visible.
-/

namespace Lowering

namespace NullSafety

/-! ## Assertions at conversion sites -/

/-- What the first traversal keeps: the diagnostics, and the number of
assertions made. -/
structure Tally where
  problems : Problems := {}
  inserted : Nat := 0
  deriving DecidableEq

/-- Asserts a value non-null and counts the assertion. -/
def insert (value : Expr) (site : Site) : StateM Tally Expr := fun tally =>
  let (result, problems) := assertNonNull value site tally.problems
  (result, { problems, inserted := tally.inserted + if value.isKnownNonNull then 0 else 1 })

/-- Whether a slot takes no null: its inferred or its declared type excludes
null. The boxed `void` is exempt, as null is its only value. -/
def excludesNull (inferred declared : Ty) : Bool :=
  !inferred.isBoxedVoid && (!inferred.canBeNull || !declared.canBeNull)

/-- Asserts the values of slots that take no null, and every value that is
dereferenced, thrown or unboxed. -/
def asserting : Handler (StateM Tally) where
  onSlot inferred declared value site :=
    if excludesNull inferred declared then insert value site else pure value
  onNonNull _ _ value site := insert value site

/-! ## Defaults of assert messages -/

/-- What the second traversal keeps: the identities left, and the number of
messages that got a default. -/
structure Defaults where
  supply : Supply
  defaulted : Nat := 0
  deriving DecidableEq

/-- The default of an assert message. -/
def messageDefault : Expr := .ofString "null"

/-- A message that cannot be null; the choice has the given type. -/
def defaultMessage (type : Ty) : Option Expr → StateM Defaults (Option Expr)
  | none => pure none
  | some message => fun state =>
    let (result, supply) := withDefault message messageDefault type state.supply
    (some result,
      { supply, defaulted := state.defaulted + if message.isKnownNonNull then 0 else 1 })

/-- The transformation that gives assert messages their default. -/
def messageDefaults (type : Ty) : Transform (StateM Defaults) where
  onAssert condition message span := do
    let message ← defaultMessage type message
    pure (.assertion condition message span)

/-! ## The pass -/

/-- The outcome of the pass over one unit. -/
structure Outcome where
  unit : CompilationUnit
  problems : Problems
  inserted : Nat
  defaulted : Nat
  supply : Supply

/-- Both traversals over a unit; `objectType` is the type of defaulted messages. -/
def run (objectType : Ty) (problems : Problems) (supply : Supply) (unit : CompilationUnit) :
    Outcome :=
  let ((unit, cursor), tally) :=
    ((conversion asserting).unit unit).run { supply } |>.run { problems }
  let (unit, defaults) := (messageDefaults objectType).unit unit |>.run { supply := cursor.supply }
  { unit
    problems := tally.problems
    inserted := tally.inserted
    defaulted := defaults.defaulted
    supply := defaults.supply }

def passName : String := "insert-not-null-assertions"

/-- The log line that sums the pass up. -/
def summary (outcome : Outcome) : String :=
  passName ++ ": inserted " ++ toString outcome.inserted ++ " not-null assertions, " ++
    toString outcome.defaulted ++ " assert message defaults in '" ++ outcome.unit.name ++ "'"

/-- The null-safety pass. -/
def pass : Pass where
  name := passName
  apply unit := do
    let context ← get
    let (objectType, types) := context.types.internNonNullable Known.object
    let outcome := run objectType.type context.problems context.supply unit
    set { context with types, problems := outcome.problems, supply := outcome.supply }
    PassM.note .debug (summary outcome)
    pure outcome.unit

end NullSafety

end Lowering
