import Lowering.Pipeline.Pass
import Lowering.Tree.Equality

/-!
# Pipelines

A pipeline applies an ordered list of passes to every unit. Units are
independent of each other: each has its own context and its own supply of
identities, so the result for one unit does not depend on the others. The first
failure ends the run. A pipeline may spread the units over workers; the output
is in input order either way, and of several failing units the first one in
input order is reported.
-/

namespace Lowering

/-- Why a run ended without output. -/
inductive PipelineError where
  | passFailed (pass unit : String) (cause : Inconsistency)
  | workerPanicked
  deriving DecidableEq

/-- The report of a failed run. -/
def PipelineError.display : PipelineError → String
  | passFailed pass unit cause =>
    "Pass '" ++ pass ++ "' failed on unit '" ++ unit ++ "': " ++ cause.display
  | workerPanicked => "Pipeline worker panicked while processing units"

/-- A unit after all passes, with its diagnostics. -/
structure UnitOutput where
  unit : CompilationUnit
  problems : Problems

/-- The units and their diagnostics, both in input order. -/
structure PipelineOutput where
  units : List CompilationUnit
  problems : List Problems

namespace PipelineOutput

def ofUnits (outputs : List UnitOutput) : PipelineOutput :=
  { units := outputs.map (·.unit), problems := outputs.map (·.problems) }

/-- Adds a count up over all units. -/
def total (o : PipelineOutput) (count : Problems → Nat) : Nat :=
  o.problems.foldl (fun sum problems => sum + count problems) 0

def warningCount (o : PipelineOutput) : Nat := o.total Problems.warningCount

def errorCount (o : PipelineOutput) : Nat := o.total Problems.errorCount

end PipelineOutput

/-- An ordered list of passes, and how to spread units over workers. -/
structure Pipeline where
  passes : List Pass
  /-- The number of workers; without one the units are processed in turn. -/
  workers : Option Nat := none
  types : TypeTable := .standard

namespace Pipeline

/-- The pipeline on the given number of workers, at least one. -/
def withWorkers (p : Pipeline) (workers : Nat) : Pipeline :=
  { p with workers := some (max workers 1) }

/-- The pipeline with its own table of types. -/
def withTypes (p : Pipeline) (types : TypeTable) : Pipeline :=
  { p with types }

def passNames (p : Pipeline) : List String :=
  p.passes.map (·.name)

/-! ## One unit -/

/-- How a failing pass appears as the failure of a run. -/
def failureOf (pass unit : String) : PassError → PipelineError
  | .inconsistent cause => .passFailed pass unit cause
  | .crash => .workerPanicked

/-- The context in which a pass over the unit starts: its entry stands in the log. -/
def announce (unitName : String) (pass : Pass) (context : PassContext) : PassContext :=
  { context with
    log := context.log ++
      [{ level := .trace, text := "pass '" ++ pass.name ++ "' on '" ++ unitName ++ "'" }] }

/-- Applies passes in order to one unit. Log entries and failures have the name that the unit
came with, whatever the passes make of it. -/
def applyPasses (unitName : String) :
    List Pass → CompilationUnit → ExceptT PipelineError (StateM PassContext) CompilationUnit
  | [], unit => pure unit
  | pass :: rest, unit => fun context =>
    match pass.apply unit (announce unitName pass context) with
    | (.ok unit, context) => applyPasses unitName rest unit context
    | (.error cause, context) => (.error (failureOf pass.name unitName cause), context)

/-- The log line at the end of a unit. -/
def finishedText (unitName : String) (problems : Problems) : String :=
  "finished '" ++ unitName ++ "': " ++ toString problems.warningCount ++ " warnings, " ++
    toString problems.errorCount ++ " errors"

/-- Runs all passes over one unit. -/
def runUnit (p : Pipeline) (supply : Supply) (unit : CompilationUnit) :
    Logged (Except PipelineError UnitOutput) :=
  match applyPasses unit.name p.passes unit
      { unitName := unit.name, types := p.types, supply } with
  | (.ok result, context) =>
    { result := .ok { unit := result, problems := context.problems }
      log := context.log ++
        [{ level := .trace, text := finishedText unit.name context.problems }] }
  | (.error cause, context) => { result := .error cause, log := context.log }

/-! ## Several units -/

/-- The units with a supply of identities for each, the first one of the given
origin. -/
def withSupplies (origin : Nat) : List CompilationUnit → List (Supply × CompilationUnit)
  | [] => []
  | unit :: rest => ({ origin }, unit) :: withSupplies (origin + 1) rest

/-- Runs the units in turn up to the first failure. -/
def runInTurn (p : Pipeline) :
    List (Supply × CompilationUnit) → Logged (Except PipelineError (List UnitOutput))
  | [] => { result := .ok [], log := [] }
  | (supply, unit) :: rest =>
    match p.runUnit supply unit with
    | { result := .error cause, log } => { result := .error cause, log }
    | { result := .ok output, log } =>
      let further := p.runInTurn rest
      { result := further.result.map (output :: ·), log := log ++ further.log }

/-- What the workers hand in together: all outputs, or the failure of the first
unit in input order that has none. Workers take the units in input order and stop
after a failure, so the units before that one are always processed, and a worker
that breaks down later does not hide it. -/
def collect (results : List (Except PipelineError UnitOutput)) :
    Except PipelineError (List UnitOutput) :=
  results.mapM id

/-- Runs the units on workers. -/
def runOnWorkers (p : Pipeline) (jobs : List (Supply × CompilationUnit)) :
    Logged (Except PipelineError (List UnitOutput)) :=
  let results := jobs.map fun (supply, unit) => p.runUnit supply unit
  { result := collect (results.map (·.result)), log := results.flatMap (·.log) }

/-- How the run is announced in the log. -/
def modeText (p : Pipeline) : String :=
  match p.workers with
  | some n => toString n ++ " workers"
  | none => "sequential"

/-- The log line at the start of a run. -/
def startText (p : Pipeline) (unitCount : Nat) : String :=
  "running " ++ toString p.passes.length ++ " passes over " ++ toString unitCount ++
    " units (" ++ p.modeText ++ ")"

/-- Runs every pass over every unit. Temporaries of the first unit get identities
of the given origin, those of the second unit of the next one, and so on. -/
def run (p : Pipeline) (units : List CompilationUnit) (origin : Nat := 1) :
    Logged (Except PipelineError PipelineOutput) :=
  let jobs := withSupplies origin units
  let outputs :=
    if p.workers.isSome && 1 < units.length then p.runOnWorkers jobs else p.runInTurn jobs
  { result := outputs.result.map PipelineOutput.ofUnits
    log := { level := .debug, text := p.startText units.length } :: outputs.log }

end Pipeline

end Lowering
