import Lowering.Pipeline.Workers

/-!
# Workers at their desk

What holds of a crew however its workers take turns. Units leave the queue in input
order, so at any moment those taken are the first ones. Each of them is in the hands
or in the notes of some worker, with its own result. A worker leaves its loop only
after a unit has been taken that fails, or when all units have been taken.

`Worker.Moves` says what a move can be. The invariant is stated for the desk and for
one worker at a time: `Worker.Sound.move` says what one move keeps of it,
`Crew.Sound.step` carries this over to a turn of a crew, and `Crew.sound_of_play` to
every interleaving. Moves also use up the work that is left (`Worker.weight_move`), so
that a crew cannot go on for ever unless it keeps finding its queue in use.
-/

namespace Lowering

variable {p : Pipeline} {jobs : List (Supply × CompilationUnit)}

/-- The result of the unit at an index. -/
def Pipeline.ResultAt (p : Pipeline) (jobs : List (Supply × CompilationUnit)) (index : Nat)
    (result : Except PipelineError UnitOutput) : Prop :=
  ∃ job, jobs[index]? = some job ∧ (p.runUnit job.1 job.2).result = result

/-! ## Moves -/

namespace Worker

/-- The moves of a worker, with what they make of the desk. -/
inductive Moves (p : Pipeline) : Desk → Worker → Desk → Worker → Prop where
  | stop {desk notes} : desk.failed = true →
      Moves p desk ⟨.looking, notes⟩ desk ⟨.finished, notes⟩
  | goOn {desk notes} : desk.failed = false →
      Moves p desk ⟨.looking, notes⟩ desk ⟨.taking, notes⟩
  | runOut {desk notes} : desk.queue = [] →
      Moves p desk ⟨.taking, notes⟩ desk ⟨.finished, notes⟩
  | take {desk notes job index rest} : desk.queue = (job, index) :: rest →
      Moves p desk ⟨.taking, notes⟩ { desk with queue := rest } ⟨.running index job, notes⟩
  | succeed {desk notes job index output} : (p.runUnit job.1 job.2).result = .ok output →
      Moves p desk ⟨.running index job, notes⟩ desk ⟨.noting index (.ok output), notes⟩
  | breakDown {desk notes job index} : (p.runUnit job.1 job.2).result = .error .workerPanicked →
      Moves p desk ⟨.running index job, notes⟩ desk ⟨.broken, notes⟩
  | fail {desk notes job index cause} : (p.runUnit job.1 job.2).result = .error cause →
      cause ≠ .workerPanicked →
      Moves p desk ⟨.running index job, notes⟩ desk ⟨.raising index cause, notes⟩
  | raise {desk notes index cause} :
      Moves p desk ⟨.raising index cause, notes⟩ { desk with failed := true }
        ⟨.noting index (.error cause), notes⟩
  | note {desk notes index result} :
      Moves p desk ⟨.noting index result, notes⟩ desk ⟨.looking, notes ++ [(index, result)]⟩

theorem moves_of_move {desk desk' : Desk} {worker worker' : Worker}
    (h : worker.move p desk = some (desk', worker')) : Moves p desk worker desk' worker' := by
  obtain ⟨phase, notes⟩ := worker
  cases phase with
  | looking =>
    cases h
    cases hfailed : desk.failed with
    | true => exact .stop hfailed
    | false => exact .goOn hfailed
  | taking =>
    cases hqueue : desk.queue with
    | nil =>
      simp only [move, hqueue] at h
      cases h
      exact .runOut hqueue
    | cons front rest =>
      simp only [move, hqueue] at h
      cases h
      exact .take hqueue
  -- A crash inside of a pass breaks the worker down, and any other failure is reported.
  | running index job =>
    cases hrun : (p.runUnit job.1 job.2).result with
    | ok output =>
      simp only [move, hrun] at h
      cases h
      exact .succeed hrun
    | error cause =>
      cases cause with
      | workerPanicked =>
        simp only [move, hrun] at h
        cases h
        exact .breakDown hrun
      | passFailed pass unit cause =>
        simp only [move, hrun] at h
        cases h
        exact .fail hrun nofun
  | raising index cause =>
    cases h
    exact .raise
  | noting index result =>
    cases h
    exact .note
  | finished => cases h
  | broken => cases h

/-- Only a worker in front of the queue can retry. -/
theorem retry_eq_some {worker worker' : Worker} (h : worker.retry = some worker') :
    worker.phase = .taking ∧ worker' = { worker with phase := .looking } := by
  obtain ⟨phase, notes⟩ := worker
  cases phase <;> cases h
  exact ⟨rfl, rfl⟩

/-- A worker that is in its loop can always move on. -/
theorem exists_move (p : Pipeline) (desk : Desk) {worker : Worker}
    (h : worker.isDone = false) : ∃ moved, worker.move p desk = some moved := by
  obtain ⟨phase, notes⟩ := worker
  cases phase with
  | looking => exact ⟨_, rfl⟩
  -- An empty queue is no reason to wait: the worker leaves then.
  | taking => cases hqueue : desk.queue <;> simp [move, hqueue]
  | running index job =>
    cases hrun : (p.runUnit job.1 job.2).result with
    | ok output => simp [move, hrun]
    | error cause => cases cause <;> simp [move, hrun]
  | raising index cause => exact ⟨_, rfl⟩
  | noting index result => exact ⟨_, rfl⟩
  | finished => cases h
  | broken => cases h

end Worker

/-! ## The invariant -/

/-- The first units have been taken from the desk, and a raised flag means that one of
them fails. -/
structure Desk.Sound (p : Pipeline) (jobs : List (Supply × CompilationUnit)) (taken : Nat)
    (desk : Desk) : Prop where
  bound : taken ≤ jobs.length
  queue : desk.queue = jobs.zipIdx.drop taken
  flag : desk.failed → ∃ index < taken, ∃ cause, p.ResultAt jobs index (.error cause)

namespace Worker

/-- What the phase of a worker says about the units and the desk. -/
def PhaseSound (p : Pipeline) (jobs : List (Supply × CompilationUnit)) (taken : Nat)
    (desk : Desk) : WorkerPhase → Prop
  | .looking | .taking => True
  | .running index job => index < taken ∧ jobs[index]? = some job
  | .raising index cause => index < taken ∧ p.ResultAt jobs index (.error cause)
  | .noting index result => index < taken ∧ p.ResultAt jobs index result
  | .finished => desk.failed ∨ desk.queue = []
  | .broken => False

/-- A worker in a proper phase, with results in its notes that are those of the
units. -/
structure Sound (p : Pipeline) (jobs : List (Supply × CompilationUnit)) (taken : Nat)
    (desk : Desk) (worker : Worker) : Prop where
  phase : PhaseSound p jobs taken desk worker.phase
  notes : ∀ note ∈ worker.notes, note.1 < taken ∧ p.ResultAt jobs note.1 note.2

/-- The index of the unit that a worker has in its hands. -/
def holding : WorkerPhase → Option Nat
  | .running index _ | .raising index _ | .noting index _ => some index
  | .looking | .taking | .finished | .broken => none

/-- The unit at the index is in the hands or in the notes of the worker. -/
def Has (worker : Worker) (index : Nat) : Prop :=
  holding worker.phase = some index ∨ ∃ result, (index, result) ∈ worker.notes

/-- A worker with empty hands has only what is in its notes, and keeps it with them. -/
theorem has_of_notes {worker worker' : Worker} (hempty : holding worker.phase = none)
    (hnotes : worker'.notes = worker.notes) : ∀ index, worker.Has index → worker'.Has index := by
  rintro index (hholds | hnoted)
  · rw [hempty] at hholds
    cases hholds
  · exact .inr (hnotes ▸ hnoted)

end Worker

/-- The desk and all workers are sound, and no unit that was taken is lost. -/
structure Crew.Sound (p : Pipeline) (jobs : List (Supply × CompilationUnit)) (taken : Nat)
    (crew : Crew) : Prop where
  desk : crew.desk.Sound p jobs taken
  workers : ∀ worker ∈ crew.workers, worker.Sound p jobs taken crew.desk
  kept : ∀ index < taken, ∃ worker ∈ crew.workers, worker.Has index

/-! ## What a move keeps -/

/-- What moves of one worker mean for the others: more units may have been taken, a
raised flag stays up, and an empty queue stays empty. -/
structure Desk.Later (taken taken' : Nat) (desk desk' : Desk) : Prop where
  taken : taken ≤ taken'
  failed : desk.failed → desk'.failed
  empty : desk.queue = [] → desk'.queue = []

theorem Desk.Later.refl (taken : Nat) (desk : Desk) : desk.Later taken taken desk :=
  ⟨Nat.le_refl _, id, id⟩

/-- A worker that does not move stays sound. -/
theorem Worker.Sound.later {taken taken' : Nat} {desk desk' : Desk} {worker : Worker}
    (hworker : worker.Sound p jobs taken desk) (hlater : desk.Later taken taken' desk') :
    worker.Sound p jobs taken' desk' where
  phase := by
    have hphase := hworker.phase
    -- A worker with a unit only needs that its index stays taken. One that has left
    -- needs the reason for which it left to last.
    cases hcase : worker.phase with
    | looking => trivial
    | taking => trivial
    | running index job =>
      rw [hcase] at hphase
      exact ⟨Nat.lt_of_lt_of_le hphase.1 hlater.taken, hphase.2⟩
    | raising index cause =>
      rw [hcase] at hphase
      exact ⟨Nat.lt_of_lt_of_le hphase.1 hlater.taken, hphase.2⟩
    | noting index result =>
      rw [hcase] at hphase
      exact ⟨Nat.lt_of_lt_of_le hphase.1 hlater.taken, hphase.2⟩
    | finished =>
      rw [hcase] at hphase
      exact hphase.imp hlater.failed hlater.empty
    | broken =>
      rw [hcase] at hphase
      exact hphase
  notes note hnote := by
    obtain ⟨hlt, hresult⟩ := hworker.notes note hnote
    exact ⟨Nat.lt_of_lt_of_le hlt hlater.taken, hresult⟩

/-- What one move makes of a sound desk and a sound worker: both are sound again, the
worker keeps the units that it had, and it has those that were taken. -/
structure Worker.Advance (p : Pipeline) (jobs : List (Supply × CompilationUnit))
    (taken : Nat) (desk : Desk) (worker : Worker) (taken' : Nat) (desk' : Desk)
    (worker' : Worker) : Prop where
  later : desk.Later taken taken' desk'
  desk_sound : desk'.Sound p jobs taken'
  worker_sound : worker'.Sound p jobs taken' desk'
  keeps : ∀ index, worker.Has index → worker'.Has index
  takes : ∀ index, taken ≤ index → index < taken' → worker'.Has index

/-- A move that leaves the desk as it is takes nothing. -/
theorem Worker.Advance.of_phase {taken : Nat} {desk : Desk} {worker worker' : Worker}
    (hdesk : desk.Sound p jobs taken) (hworker' : worker'.Sound p jobs taken desk)
    (hkeeps : ∀ index, worker.Has index → worker'.Has index) :
    worker.Advance p jobs taken desk taken desk worker' where
  later := .refl taken desk
  desk_sound := hdesk
  worker_sound := hworker'
  keeps := hkeeps
  takes _ hle hlt := absurd hlt (Nat.not_lt.mpr hle)

/-- The unit at the front of the queue is the next one in input order. -/
theorem Desk.Sound.front {taken : Nat} {desk : Desk} (hdesk : desk.Sound p jobs taken)
    {job : Supply × CompilationUnit} {index : Nat} {rest : List ((Supply × CompilationUnit) × Nat)}
    (hqueue : desk.queue = (job, index) :: rest) :
    index = taken ∧ jobs[taken]? = some job ∧ rest = jobs.zipIdx.drop (taken + 1) := by
  have hdrop : jobs.zipIdx.drop taken = (job, index) :: rest := hdesk.queue.symm.trans hqueue
  have hfront : jobs.zipIdx[taken]? = some (job, index) := by
    have hhead := congrArg (·[0]?) hdrop
    simpa using hhead
  have htail : rest = jobs.zipIdx.drop (taken + 1) := by
    have htail := congrArg List.tail hdrop
    simpa using htail.symm
  rw [List.getElem?_zipIdx] at hfront
  obtain ⟨found, hfound, hpair⟩ := Option.map_eq_some_iff.mp hfront
  obtain ⟨rfl, rfl⟩ := Prod.mk.inj hpair
  exact ⟨by simp, hfound, htail⟩

section Moves

variable {taken : Nat} {desk desk' : Desk} {worker worker' : Worker}

/-- Every move of a worker advances the crew, if no unit can break it down. -/
theorem Worker.Sound.move
    (hunbroken : ∀ job : Supply × CompilationUnit,
      (p.runUnit job.1 job.2).result ≠ .error .workerPanicked)
    (hdesk : desk.Sound p jobs taken) (hworker : worker.Sound p jobs taken desk)
    (h : Moves p desk worker desk' worker') :
    ∃ taken', worker.Advance p jobs taken desk taken' desk' worker' := by
  have hphase := hworker.phase
  cases h with
  -- The worker leaves for the flag, which stays up.
  | stop hfailed =>
    refine ⟨taken, .of_phase hdesk ⟨.inl hfailed, hworker.notes⟩ ?_⟩
    exact has_of_notes rfl rfl
  | goOn =>
    refine ⟨taken, .of_phase hdesk ⟨trivial, hworker.notes⟩ ?_⟩
    exact has_of_notes rfl rfl
  -- The worker leaves because nothing is left, and nothing is added to the queue.
  | runOut hqueue =>
    refine ⟨taken, .of_phase hdesk ⟨.inr hqueue, hworker.notes⟩ ?_⟩
    exact has_of_notes rfl rfl
  | @take notes job index rest hqueue =>
    obtain ⟨rfl, hjob, hrest⟩ := hdesk.front hqueue
    -- One more unit is taken now, and it is in the hands of this worker.
    have hlater : desk.Later index (index + 1) { desk with queue := rest } :=
      ⟨index.le_succ, id, fun hempty => by rw [hqueue] at hempty; cases hempty⟩
    have hbound : index < jobs.length := (List.getElem?_eq_some_iff.mp hjob).1
    refine ⟨index + 1, hlater, ⟨hbound, hrest, ?_⟩, ?_, ?_, ?_⟩
    · intro hfailed
      -- The unit that accounts for a raised flag is still among those taken.
      obtain ⟨failing, hlt, hcause⟩ := hdesk.flag hfailed
      exact ⟨failing, Nat.lt_succ_of_lt hlt, hcause⟩
    · exact ⟨⟨index.lt_succ_self, hjob⟩, (hworker.later hlater).notes⟩
    · exact has_of_notes rfl rfl
    · intro other hle hlt
      exact .inl (congrArg some (Nat.le_antisymm hle (Nat.lt_succ_iff.mp hlt)))
  -- The result is that of the unit in its hands.
  | succeed hrun =>
    exact ⟨taken, .of_phase hdesk ⟨⟨hphase.1, _, hphase.2, hrun⟩, hworker.notes⟩ fun _ hhas => hhas⟩
  | breakDown hrun => exact absurd hrun (hunbroken _)
  | fail hrun =>
    exact ⟨taken, .of_phase hdesk ⟨⟨hphase.1, _, hphase.2, hrun⟩, hworker.notes⟩ fun _ hhas => hhas⟩
  | @raise notes index cause =>
    -- The unit in the hands of the worker accounts for the flag.
    have hlater : desk.Later taken taken { desk with failed := true } :=
      ⟨Nat.le_refl _, fun _ => rfl, id⟩
    refine ⟨taken, hlater, ⟨hdesk.bound, hdesk.queue, fun _ => ⟨index, hphase.1, cause, hphase.2⟩⟩,
      ⟨hphase, hworker.notes⟩, fun _ hhas => hhas, ?_⟩
    intro other hle hlt
    exact absurd hlt (Nat.not_lt.mpr hle)
  | @note notes index result =>
    refine ⟨taken, .of_phase hdesk ⟨trivial, ?_⟩ ?_⟩
    · intro note hnote
      rcases List.mem_append.mp hnote with hold | hnew
      · exact hworker.notes note hold
      · obtain rfl := List.mem_singleton.mp hnew
        exact hphase
    · -- What was in its hands is now in its notes.
      rintro other (hholds | ⟨noted, hnoted⟩)
      · cases hholds
        exact .inr ⟨result, by simp⟩
      · exact .inr ⟨noted, List.mem_append_left _ hnoted⟩

theorem Worker.Sound.retry (hdesk : desk.Sound p jobs taken)
    (hworker : worker.Sound p jobs taken desk) (h : worker.retry = some worker') :
    worker.Advance p jobs taken desk taken desk worker' := by
  obtain ⟨hphase, rfl⟩ := Worker.retry_eq_some h
  refine .of_phase hdesk ⟨trivial, hworker.notes⟩ ?_
  apply has_of_notes
  · rw [hphase]
    rfl
  · rfl

end Moves

/-! ## Turns of a crew -/

namespace Crew

variable {crew crew' : Crew} {turn : CrewTurn}

/-- A turn is a move of one worker, or its retry. -/
theorem step_eq_some (h : crew.step p turn = some crew') :
    ∃ worker desk' worker', crew.workers[turn.worker]? = some worker ∧
      crew' = { desk := desk', workers := crew.workers.set turn.worker worker' } ∧
      ((turn.retries = true ∧ worker.retry = some worker' ∧ desk' = crew.desk) ∨
        (turn.retries = false ∧ worker.Moves p crew.desk desk' worker')) := by
  unfold step at h
  cases hworker : crew.workers[turn.worker]? with
  | none =>
    rw [hworker] at h
    cases h
  | some worker =>
    rw [hworker] at h
    obtain ⟨⟨desk', worker'⟩, hmoved, rfl⟩ := Option.map_eq_some_iff.mp h
    refine ⟨worker, desk', worker', rfl, rfl, ?_⟩
    cases hretries : turn.retries with
    | true =>
      rw [hretries, if_pos rfl] at hmoved
      obtain ⟨retried, hretry, hpair⟩ := Option.map_eq_some_iff.mp hmoved
      cases hpair
      exact .inl ⟨rfl, hretry, rfl⟩
    | false =>
      rw [hretries] at hmoved
      exact .inr ⟨rfl, Worker.moves_of_move hmoved⟩

/-- If one worker of a sound crew advances, then the crew is sound again. -/
theorem Sound.set {taken taken' k : Nat} {desk' : Desk} {worker worker' : Worker}
    (hcrew : crew.Sound p jobs taken) (hk : crew.workers[k]? = some worker)
    (hadvance : worker.Advance p jobs taken crew.desk taken' desk' worker') :
    Sound p jobs taken' { desk := desk', workers := crew.workers.set k worker' } := by
  have hlt : k < crew.workers.length := (List.getElem?_eq_some_iff.mp hk).1
  have hmem : worker' ∈ crew.workers.set k worker' := List.mem_set hlt worker'
  constructor
  case desk => exact hadvance.desk_sound
  -- All other workers stand where they stood, at a later desk.
  case workers =>
    intro other hother
    rcases List.mem_or_eq_of_mem_set hother with hold | rfl
    · exact (hcrew.workers other hold).later hadvance.later
    · exact hadvance.worker_sound
  case kept =>
    intro index hindex
    by_cases htaken : index < taken
    · obtain ⟨holder, hholder, hhas⟩ := hcrew.kept index htaken
      obtain ⟨j, hj⟩ := List.mem_iff_getElem?.mp hholder
      by_cases hjk : k = j
      · -- The holder is the one that moves, and it keeps what it has.
        subst hjk
        obtain rfl : worker = holder := Option.some.inj (hk.symm.trans hj)
        exact ⟨worker', hmem, hadvance.keeps index hhas⟩
      · refine ⟨holder, List.mem_of_getElem? (i := j) ?_, hhas⟩
        rw [List.getElem?_set_ne hjk]
        exact hj
    · -- A unit taken just now was taken by the worker that moved.
      exact ⟨worker', hmem, hadvance.takes index (Nat.not_lt.mp htaken) hindex⟩

section

variable (hunbroken : ∀ job : Supply × CompilationUnit,
  (p.runUnit job.1 job.2).result ≠ .error .workerPanicked)

include hunbroken

/-- Every turn keeps a crew sound. -/
theorem Sound.step {taken : Nat} (hcrew : crew.Sound p jobs taken)
    (h : crew.step p turn = some crew') : ∃ taken', crew'.Sound p jobs taken' := by
  obtain ⟨worker, desk', worker', hworker, rfl, hmoved⟩ := step_eq_some h
  have hsound := hcrew.workers worker (List.mem_of_getElem? hworker)
  -- A retry takes nothing, a move may take one unit.
  rcases hmoved with ⟨_, hretry, rfl⟩ | ⟨_, hmove⟩
  · exact ⟨taken, hcrew.set hworker (hsound.retry hcrew.desk hretry)⟩
  · obtain ⟨taken', hadvance⟩ := hsound.move hunbroken hcrew.desk hmove
    exact ⟨taken', hcrew.set hworker hadvance⟩

/-- However the workers take turns, the crew is sound. -/
theorem sound_of_play {workers : Nat} {turns : List CrewTurn}
    (h : play (step p) (Pipeline.crew workers jobs) turns = some crew) :
    ∃ taken, crew.Sound p jobs taken := by
  have hkeep : ∀ s turn s', (∃ taken, Sound p jobs taken s) → step p s turn = some s' →
      ∃ taken, Sound p jobs taken s' := by
    rintro s turn s' ⟨taken, hs⟩ hstep
    exact hs.step hunbroken hstep
  apply invariant_of_play hkeep h
  -- At the start nothing is taken, the flag is down and all workers have empty hands.
  refine ⟨0, ⟨Nat.zero_le _, rfl, nofun⟩, ?_, fun index hindex => absurd hindex index.not_lt_zero⟩
  intro worker hworker
  obtain rfl := List.eq_of_mem_replicate hworker
  exact ⟨trivial, by simp⟩

end

end Crew

/-! ## An end to the turns -/

/-- How many moves a worker may make before it takes another unit or leaves. -/
def Worker.weight (worker : Worker) : Nat :=
  match worker.phase with
  | .running _ _ => 5
  | .raising _ _ => 4
  | .noting _ _ => 3
  | .looking => 2
  | .taking => 1
  | .finished | .broken => 0

/-- A move uses up some of the work that is left. A unit in the queue stands for the
moves that it takes to run it. -/
theorem Worker.weight_move {desk desk' : Desk} {worker worker' : Worker}
    (h : worker.Moves p desk desk' worker') :
    5 * desk'.queue.length + worker'.weight < 5 * desk.queue.length + worker.weight := by
  cases h with
  -- A unit goes from the queue into the hands, where it has the same weight; what is used up is the
  -- move itself.
  | take hqueue =>
    simp only [weight, hqueue, List.length_cons]
    omega
  | stop | goOn | runOut | succeed | breakDown | fail | raise | note => simp [weight]

namespace Crew

/-- The work that is left in the hands of workers. -/
def handWeight : List Worker → Nat
  | [] => 0
  | worker :: rest => worker.weight + handWeight rest

/-- The work that is left. -/
def weight (crew : Crew) : Nat :=
  5 * crew.desk.queue.length + handWeight crew.workers

theorem handWeight_set {workers : List Worker} {k : Nat} {worker : Worker}
    (h : workers[k]? = some worker) (worker' : Worker) :
    handWeight (workers.set k worker') + worker.weight = handWeight workers + worker'.weight := by
  induction workers generalizing k with
  | nil => cases h
  | cons first rest ih =>
    cases k with
    -- The first worker is replaced, so the others cancel out.
    | zero =>
      obtain rfl : first = worker := Option.some.inj h
      simp only [List.set_cons_zero, handWeight]
      omega
    | succ k =>
      have hrest := ih h
      simp only [List.set_cons_succ, handWeight]
      omega

/-- Only a retry puts work back, one move at a time. -/
theorem weight_step {crew crew' : Crew} {turn : CrewTurn} (h : crew.step p turn = some crew') :
    crew'.weight + 1 ≤ crew.weight + 2 * turn.retries.toNat := by
  obtain ⟨worker, desk', worker', hworker, rfl, hmoved⟩ := step_eq_some h
  have hset := handWeight_set hworker worker'
  rcases hmoved with ⟨hretries, hretry, rfl⟩ | ⟨hretries, hmove⟩
  · -- A retry goes from the queue back to the flag, which is one move more to make.
    obtain ⟨hphase, rfl⟩ := Worker.retry_eq_some hretry
    simp only [Worker.weight, hphase] at hset
    simp only [weight, hretries, Bool.toNat_true]
    omega
  · have hless := Worker.weight_move hmove
    simp only [weight, hretries, Bool.toNat_false]
    omega

/-- The turns that have been taken are paid for by the work that was there and by the
retries. -/
theorem weight_play {crew crew' : Crew} {turns : List CrewTurn}
    (h : play (step p) crew turns = some crew') :
    crew'.weight + turns.length ≤ crew.weight + 2 * turns.countP (·.retries) := by
  induction turns generalizing crew with
  | nil =>
    rw [play_nil_eq_some.mp h]
    simp
  | cons turn rest ih =>
    obtain ⟨crew₁, hfirst, hrest⟩ := play_cons_eq_some.mp h
    have hstep := weight_step hfirst
    have hplay := ih hrest
    rw [List.countP_cons, List.length_cons]
    -- Each turn is paid for by one unit of work, and a retry by the two that it is granted.
    cases hretries : turn.retries with
    | true =>
      rw [hretries, Bool.toNat_true] at hstep
      simp only [if_true]
      omega
    | false =>
      rw [hretries, Bool.toNat_false] at hstep
      simp only [Bool.false_eq_true, if_false]
      omega

theorem handWeight_replicate (n : Nat) : handWeight (List.replicate n {}) = 2 * n := by
  induction n with
  | zero => rfl
  | succ n ih =>
    simp only [List.replicate_succ, handWeight, ih, Worker.weight]
    omega

/-- No interleaving goes on for ever: besides retries there are at most five turns for
each unit and two for each worker. -/
theorem length_of_play {crew : Crew} {workers : Nat} {turns : List CrewTurn}
    (h : play (step p) (Pipeline.crew workers jobs) turns = some crew) :
    turns.length ≤ 5 * jobs.length + 2 * workers + 2 * turns.countP (·.retries) := by
  have hplay := weight_play h
  -- At the start all work is in the queue, except for the two moves in which each worker looks and
  -- leaves.
  have hstart : weight (Pipeline.crew workers jobs) =
      5 * jobs.length + 2 * min workers jobs.length := by
    simp [weight, Pipeline.crew, handWeight_replicate]
  have hmin := Nat.min_le_left workers jobs.length
  omega

/-- As long as a worker is in its loop, some worker can move. -/
theorem exists_step (p : Pipeline) {crew : Crew} (h : crew.isDone = false) :
    ∃ k crew', crew.step p { worker := k } = some crew' := by
  obtain ⟨worker, hworker, hnot⟩ : ∃ worker ∈ crew.workers, worker.isDone = false := by
    simpa [isDone] using h
  obtain ⟨k, hk⟩ := List.mem_iff_getElem?.mp hworker
  obtain ⟨moved, hmove⟩ := Worker.exists_move p crew.desk hnot
  refine ⟨k, { desk := moved.1, workers := crew.workers.set k moved.2 }, ?_⟩
  simp [step, hk, hmove]

/-- Every interleaving can be continued until all workers have left. -/
theorem exists_play_isDone (p : Pipeline) (crew : Crew) :
    ∃ turns crew', play (step p) crew turns = some crew' ∧ crew'.isDone = true := by
  -- By induction on the work that is left, since moves without retries use it up.
  induction hweight : crew.weight using Nat.strongRecOn generalizing crew with
  | _ left ih =>
    cases hdone : crew.isDone with
    | true => exact ⟨[], crew, rfl, hdone⟩
    | false =>
      obtain ⟨k, crew₁, hstep⟩ := exists_step p hdone
      have hless := weight_step hstep
      rw [Bool.toNat_false] at hless
      obtain ⟨turns, crew', hplay, hend⟩ := ih crew₁.weight (by omega) crew₁ rfl
      exact ⟨_ :: turns, crew', play_cons_eq_some.mpr ⟨crew₁, hstep, hplay⟩, hend⟩

end Crew

end Lowering
