import Lowering.Interleaving
import Lowering.Pipeline.Run

/-!
# Workers

The workers of a pipeline share a desk: the queue of the units that nobody has taken
yet, in input order, and a flag that is raised when a unit fails. A worker goes round
a loop. It looks at the flag, takes the next unit, runs it, raises the flag if the
unit has failed, and notes the result down. It leaves the loop when it finds the flag
raised or the queue empty; a unit that it has taken is always finished first.

Each of these moves is a turn, and the turns of different workers may follow each
other in any order. When all workers have left their loops, their notes are put
together: every output goes to the slot of its unit, and of several failures the one
of the first unit counts.
-/

namespace Lowering

/-- Where a worker stands in its loop, by the move that it makes next. -/
inductive WorkerPhase where
  /-- Looks at the flag. -/
  | looking
  /-- Takes the next unit from the queue. -/
  | taking
  /-- Runs the unit that it has taken. -/
  | running (index : Nat) (job : Supply × CompilationUnit)
  /-- Raises the flag because its unit has failed. -/
  | raising (index : Nat) (cause : PipelineError)
  /-- Notes down the result of its unit. -/
  | noting (index : Nat) (result : Except PipelineError UnitOutput)
  /-- Has left the loop. -/
  | finished
  /-- Has broken down over a unit, and its notes are lost. -/
  | broken

/-- A worker with its notes, oldest first: the indices of the units that it has run
and their results. -/
structure Worker where
  phase : WorkerPhase := .looking
  notes : List (Nat × Except PipelineError UnitOutput) := []

/-- What the workers share. -/
structure Desk where
  /-- The units that nobody has taken, with their indices. -/
  queue : List ((Supply × CompilationUnit) × Nat)
  /-- Whether some unit has failed. -/
  failed : Bool := false

namespace Worker

def isBroken (worker : Worker) : Bool :=
  match worker.phase with
  | .broken => true
  | _ => false

/-- A worker that makes no more moves. -/
def isDone (worker : Worker) : Bool :=
  match worker.phase with
  | .finished | .broken => true
  | _ => false

/-- The desk and the worker after its next move. -/
def move (p : Pipeline) (desk : Desk) (worker : Worker) : Option (Desk × Worker) :=
  match worker.phase with
  | .looking =>
    some (desk, { worker with phase := if desk.failed then .finished else .taking })
  | .taking =>
    match desk.queue with
    | [] => some (desk, { worker with phase := .finished })
    | (job, index) :: rest =>
      some ({ desk with queue := rest }, { worker with phase := .running index job })
  | .running index job =>
    match (p.runUnit job.1 job.2).result with
    | .ok output => some (desk, { worker with phase := .noting index (.ok output) })
    | .error .workerPanicked => some (desk, { worker with phase := .broken })
    | .error cause => some (desk, { worker with phase := .raising index cause })
  | .raising index cause =>
    some ({ desk with failed := true }, { worker with phase := .noting index (.error cause) })
  | .noting index result =>
    some (desk, { phase := .looking, notes := worker.notes ++ [(index, result)] })
  | .finished | .broken => none

/-- What a worker does that finds the queue in use by others: it begins its loop
again. -/
def retry (worker : Worker) : Option Worker :=
  match worker.phase with
  | .taking => some { worker with phase := .looking }
  | _ => none

end Worker

/-! ## Crews -/

/-- Workers at their desk. -/
structure Crew where
  desk : Desk
  workers : List Worker

/-- Which worker moves, and whether it finds the queue in use. -/
structure CrewTurn where
  worker : Nat
  retries : Bool := false

namespace Crew

/-- The crew after a turn. -/
def step (p : Pipeline) (crew : Crew) (turn : CrewTurn) : Option Crew :=
  match crew.workers[turn.worker]? with
  | none => none
  | some worker =>
    let moved :=
      if turn.retries then worker.retry.map fun worker => (crew.desk, worker)
      else worker.move p crew.desk
    moved.map fun (desk, worker) => { desk, workers := crew.workers.set turn.worker worker }

/-- Whether all workers have left their loops. -/
def isDone (crew : Crew) : Bool :=
  crew.workers.all (·.isDone)

end Crew

/-! ## Handing in -/

/-- What the notes come to. -/
structure Tally where
  /-- The outputs, each at the index of its unit. -/
  slots : List (Option UnitOutput)
  /-- The failure of the first unit that has one. -/
  firstFailure : Option (Nat × PipelineError) := none

namespace Tally

/-- Takes in one note. -/
def add (tally : Tally) : Nat × Except PipelineError UnitOutput → Tally
  | (index, .ok output) => { tally with slots := tally.slots.set index (some output) }
  | (index, .error cause) =>
    if tally.firstFailure.all (index < ·.1) then
      { tally with firstFailure := some (index, cause) }
    else tally

/-- All outputs, if no unit has failed and none is missing. -/
def result (tally : Tally) : Except PipelineError (List UnitOutput) :=
  match tally.firstFailure with
  | some (_, cause) => .error cause
  | none => tally.slots.mapM fun slot => slot.elim (.error .workerPanicked) .ok

end Tally

/-- What the workers hand in for the given number of units. -/
def Crew.handIn (crew : Crew) (count : Nat) : Except PipelineError (List UnitOutput) :=
  if crew.workers.any (·.isBroken) then .error .workerPanicked
  else
    ((crew.workers.flatMap (·.notes)).foldl Tally.add { slots := List.replicate count none }).result

namespace Pipeline

/-- The crew for the given units before the first turn. There are no more workers
than units. -/
def crew (workers : Nat) (jobs : List (Supply × CompilationUnit)) : Crew :=
  { desk := { queue := jobs.zipIdx }, workers := List.replicate (min workers jobs.length) {} }

/-- What a run may return: the result of the units in turn, or what the workers hand
in after some interleaving of their turns. -/
inductive MayReturn (p : Pipeline) (units : List CompilationUnit) (origin : Nat) :
    Except PipelineError PipelineOutput → Prop where
  | inTurn : p.workers = none ∨ units.length ≤ 1 →
      MayReturn p units origin
        ((p.runInTurn (withSupplies origin units)).result.map PipelineOutput.ofUnits)
  | onWorkers {workers : Nat} {turns : List CrewTurn} {crew : Crew} :
      p.workers = some workers → 1 < units.length →
      play (Crew.step p) (Pipeline.crew workers (withSupplies origin units)) turns = some crew →
      crew.isDone →
      MayReturn p units origin ((crew.handIn units.length).map PipelineOutput.ofUnits)

end Pipeline

end Lowering
