import Lowering.Proofs.Pipeline.Crew
import Lowering.Proofs.Pipeline.Failures

/-!
# Workers agree with units in turn

Whatever the interleaving, the workers hand in what the units give in turn. If every
unit succeeds, then the flag is never raised, so that the workers leave only at the
end of the queue and their notes fill all slots. If a unit fails, then the first that
does is always taken: units are taken in input order, and nobody leaves before the
end of the queue unless a failing unit has been taken. A worker finishes the unit
that it has, so the failure of the first one is in the notes, and no other failure
has a lower index.

Main statement: `Pipeline.run_withWorkers`.
-/

namespace Lowering

/-! ## Putting notes together -/

namespace Tally

variable {tally : Tally} {notes : List (Nat × Except PipelineError UnitOutput)}

/-- Notes without failures fill the slots that were empty. -/
theorem foldl_add_outputs {outputs : List UnitOutput}
    (hnotes : ∀ note ∈ notes, ∃ output, outputs[note.1]? = some output ∧ note.2 = .ok output)
    (hlength : tally.slots.length = outputs.length)
    (hfilled : ∀ i < outputs.length,
      tally.slots[i]? = outputs[i]?.map some ∨ ∃ result, (i, result) ∈ notes) :
    notes.foldl add tally = { tally with slots := outputs.map some } := by
  -- The tally changes along the notes, so the induction is for every tally whose empty
  -- slots are still to come.
  induction notes generalizing tally with
  | nil =>
    have hslots : tally.slots = outputs.map some := by
      apply List.ext_getElem?
      intro i
      rw [List.getElem?_map]
      by_cases hi : i < outputs.length
      · exact (hfilled i hi).resolve_right (by simp)
      · rw [List.getElem?_eq_none (by omega), List.getElem?_eq_none (by omega)]
        rfl
    rw [List.foldl_nil, ← hslots]
  | cons note rest ih =>
    obtain ⟨index, result⟩ := note
    -- The note is the output of its unit, and goes into the slot of this unit.
    obtain ⟨output, houtput, rfl⟩ := hnotes _ List.mem_cons_self
    have hindex := (List.getElem?_eq_some_iff.mp houtput).1
    rw [List.foldl_cons, ih (fun note hnote => hnotes note (List.mem_cons_of_mem _ hnote))]
    · rfl
    · simpa [add] using hlength
    · intro i hi
      by_cases hsame : index = i
      · left
        subst hsame
        simp only [add] at houtput ⊢
        rw [List.getElem?_set_self (by omega), houtput]
        rfl
      · rcases hfilled i hi with hslot | ⟨result, hresult⟩
        · left
          simp only [add]
          rw [List.getElem?_set_ne hsame, hslot]
        · right
          rcases List.mem_cons.mp hresult with heq | hrest
          · exact absurd (congrArg Prod.fst heq).symm hsame
          · exact ⟨result, hrest⟩

theorem result_filled (outputs : List UnitOutput) :
    result { slots := outputs.map some } = .ok outputs := by
  show (outputs.map some).mapM _ = _
  induction outputs with
  | nil => rfl
  | cons output rest ih =>
    rw [List.map_cons, List.mapM_cons, ih]
    rfl

/-- Taking in a failure keeps the first one. -/
theorem firstFailure_add {index : Nat} {e : PipelineError} :
    (tally.add (index, .error e)).firstFailure =
      if tally.firstFailure.all (index < ·.1) then some (index, e) else tally.firstFailure := by
  simp only [add]
  split <;> rfl

/-- The failure with the lowest index is found wherever it stands in the notes. -/
theorem foldl_add_failure {least : Nat} {cause : PipelineError}
    (hnotes : ∀ note ∈ notes, ∀ e, note.2 = .error e →
      least < note.1 ∨ note = (least, .error cause))
    (hfirst : tally.firstFailure = some (least, cause) ∨
      ((least, .error cause) ∈ notes ∧ ∀ found ∈ tally.firstFailure, least < found.1)) :
    (notes.foldl add tally).firstFailure = some (least, cause) := by
  induction notes generalizing tally with
  | nil => exact hfirst.resolve_right (by simp)
  | cons note rest ih =>
    apply ih (fun note hnote => hnotes note (List.mem_cons_of_mem _ hnote))
    obtain ⟨index, result⟩ := note
    cases result with
    | ok output => simpa [add] using hfirst
    | error e =>
      rw [firstFailure_add]
      rcases hnotes _ List.mem_cons_self e rfl with hlater | hleast
      · -- A later failure does not replace the one that is looked for.
        rcases hfirst with hfound | ⟨hmem, hfound⟩
        · left
          have hnot : ¬ index < least := Nat.lt_asymm hlater
          simp [hfound, hnot]
        · right
          refine ⟨?_, ?_⟩
          · rcases List.mem_cons.mp hmem with heq | hrest
            · cases heq
              exact absurd hlater (Nat.lt_irrefl least)
            · exact hrest
          · split
            · simpa using hlater
            · exact hfound
      · -- The failure that is looked for beats whatever was found before it.
        left
        cases hleast
        rcases hfirst with hfound | ⟨_, hfound⟩
        · simp [hfound]
        · rw [if_pos]
          simpa [Option.all_eq_true] using hfound

end Tally

/-! ## What a crew hands in -/

namespace Crew

variable {p : Pipeline} {jobs : List (Supply × CompilationUnit)} {taken : Nat} {crew : Crew}

theorem Sound.phase_eq_finished (hcrew : crew.Sound p jobs taken) (hdone : crew.isDone = true)
    {worker : Worker} (hworker : worker ∈ crew.workers) : worker.phase = .finished := by
  have hleft : worker.isDone = true := List.all_eq_true.mp hdone worker hworker
  have hphase := (hcrew.workers worker hworker).phase
  unfold Worker.isDone at hleft
  cases hcase : worker.phase with
  | finished => rfl
  -- No worker breaks down, as the passes are orderly.
  | broken =>
    rw [hcase] at hphase
    exact hphase.elim
  | _ => simp [hcase] at hleft

/-- The notes of all workers. -/
def notes (crew : Crew) : List (Nat × Except PipelineError UnitOutput) :=
  crew.workers.flatMap (·.notes)

theorem Sound.resultAt_of_mem_notes (hcrew : crew.Sound p jobs taken)
    {note : Nat × Except PipelineError UnitOutput} (hnote : note ∈ crew.notes) :
    p.ResultAt jobs note.1 note.2 := by
  obtain ⟨worker, hworker, hmem⟩ := List.mem_flatMap.mp hnote
  exact ((hcrew.workers worker hworker).notes note hmem).2

/-- In the end the result of every unit that was taken is in the notes. -/
theorem Sound.exists_mem_notes (hcrew : crew.Sound p jobs taken) (hdone : crew.isDone = true)
    {index : Nat} (hindex : index < taken) : ∃ result, (index, result) ∈ crew.notes := by
  obtain ⟨worker, hworker, hhas⟩ := hcrew.kept index hindex
  rcases hhas with hholds | ⟨result, hresult⟩
  · rw [hcrew.phase_eq_finished hdone hworker] at hholds
    cases hholds
  · exact ⟨result, List.mem_flatMap.mpr ⟨worker, hworker, hresult⟩⟩

/-- In the end a unit has been taken that fails, or all have been taken. -/
theorem Sound.taken_of_isDone (hcrew : crew.Sound p jobs taken) (hdone : crew.isDone = true)
    (hworkers : crew.workers ≠ []) :
    (∃ index < taken, ∃ cause, p.ResultAt jobs index (.error cause)) ∨ taken = jobs.length := by
  -- One worker that has left is enough to tell, and there is one.
  obtain ⟨worker, hworker⟩ := List.exists_mem_of_ne_nil _ hworkers
  have hphase := (hcrew.workers worker hworker).phase
  rw [hcrew.phase_eq_finished hdone hworker] at hphase
  rcases hphase with hfailed | hempty
  · exact .inl (hcrew.desk.flag hfailed)
  · right
    rw [hcrew.desk.queue, List.drop_eq_nil_iff, List.length_zipIdx] at hempty
    exact Nat.le_antisymm hcrew.desk.bound hempty

/-- Nobody has broken down, so what is handed in comes from the notes alone. -/
theorem Sound.handIn_eq (hcrew : crew.Sound p jobs taken) (hdone : crew.isDone = true)
    (count : Nat) : crew.handIn count =
      (crew.notes.foldl Tally.add { slots := List.replicate count none }).result := by
  have hunbroken : crew.workers.any (·.isBroken) = false := by
    rw [List.any_eq_false]
    intro worker hworker
    simp [Worker.isBroken, hcrew.phase_eq_finished hdone hworker]
  unfold handIn
  rw [hunbroken]
  rfl

/-- If every unit succeeds, then all outputs are handed in, in input order. -/
theorem Sound.handIn_ok (hcrew : crew.Sound p jobs taken) (hdone : crew.isDone = true)
    (hworkers : crew.workers ≠ []) {outputs : List UnitOutput}
    (houtputs : List.Forall₂ p.Gives jobs outputs) : crew.handIn jobs.length = .ok outputs := by
  have hlength := houtputs.length_eq
  -- The result at an index is the output there.
  have hresult : ∀ {index result}, p.ResultAt jobs index result →
      ∃ output, outputs[index]? = some output ∧ result = .ok output := by
    rintro index result ⟨job, hjob, rfl⟩
    obtain ⟨hlt, rfl⟩ := List.getElem?_eq_some_iff.mp hjob
    refine ⟨_, List.getElem?_eq_getElem (hlength ▸ hlt), ?_⟩
    exact List.Forall₂.get houtputs hlt (hlength ▸ hlt)
  -- No unit fails, so nobody has left before the end of the queue.
  have hall : taken = jobs.length := by
    refine (hcrew.taken_of_isDone hdone hworkers).resolve_left ?_
    rintro ⟨index, _, cause, hfail⟩
    obtain ⟨output, _, heq⟩ := hresult hfail
    cases heq
  have hfold : crew.notes.foldl Tally.add { slots := List.replicate jobs.length none } =
      { slots := outputs.map some } := by
    apply Tally.foldl_add_outputs
    · exact fun note hnote => hresult (hcrew.resultAt_of_mem_notes hnote)
    · simpa using hlength
    · intro i hi
      right
      exact hcrew.exists_mem_notes hdone (by omega)
  rw [hcrew.handIn_eq hdone, hfold]
  exact Tally.result_filled outputs

/-- If a unit fails, then the failure of the first one is handed in. -/
theorem Sound.handIn_error (hcrew : crew.Sound p jobs taken) (hdone : crew.isDone = true)
    (hworkers : crew.workers ≠ []) {job : Supply × CompilationUnit} {e : PipelineError}
    (hjob : p.FirstFailing jobs job) (hfail : (p.runUnit job.1 job.2).result = .error e) :
    crew.handIn jobs.length = .error e := by
  obtain ⟨before, after, hsplit, hbefore, _⟩ := hjob
  have hat : jobs[before.length]? = some job := by simp [hsplit]
  -- No unit with a lower index fails, and the failure at this index is the one.
  have hleast : ∀ {index cause}, p.ResultAt jobs index (.error cause) →
      before.length < index ∨ index = before.length ∧ cause = e := by
    rintro index cause ⟨other, hother, hcause⟩
    rcases Nat.lt_trichotomy index before.length with hlt | rfl | hgt
    · rw [hsplit, List.getElem?_append_left hlt] at hother
      obtain ⟨output, houtput⟩ := hbefore other (List.mem_of_getElem? hother)
      rw [Pipeline.Gives, hcause] at houtput
      cases houtput
    · obtain rfl : job = other := Option.some.inj (hat.symm.trans hother)
      rw [hfail] at hcause
      cases hcause
      exact .inr ⟨rfl, rfl⟩
    · exact .inl hgt
  -- A failing unit has been taken, or all units: either way the first failing one has,
  -- because units are taken in input order.
  have htaken : before.length < taken := by
    rcases hcrew.taken_of_isDone hdone hworkers with ⟨index, hindex, cause, hcause⟩ | hall
    · rcases hleast hcause with hlt | ⟨rfl, _⟩
      · exact Nat.lt_trans hlt hindex
      · exact hindex
    · rw [hall]
      exact (List.getElem?_eq_some_iff.mp hat).1
  have hfound : (before.length, .error e) ∈ crew.notes := by
    obtain ⟨result, hnote⟩ := hcrew.exists_mem_notes hdone htaken
    obtain ⟨other, hother, rfl⟩ := hcrew.resultAt_of_mem_notes hnote
    obtain rfl : job = other := Option.some.inj (hat.symm.trans hother)
    rwa [hfail] at hnote
  have hfirst : (crew.notes.foldl Tally.add
      { slots := List.replicate jobs.length none }).firstFailure = some (before.length, e) := by
    apply Tally.foldl_add_failure
    · rintro ⟨index, result⟩ hnote cause rfl
      rcases hleast (hcrew.resultAt_of_mem_notes hnote) with hlt | ⟨rfl, rfl⟩
      · exact .inl hlt
      · exact .inr rfl
    · exact .inr ⟨hfound, by simp⟩
  rw [hcrew.handIn_eq hdone, Tally.result, hfirst]

/-- What is handed in is what the units give in turn. -/
theorem Sound.handIn_eq_runInTurn (hcrew : crew.Sound p jobs taken) (hdone : crew.isDone = true)
    (hworkers : crew.workers ≠ []) : crew.handIn jobs.length = (p.runInTurn jobs).result := by
  cases hturn : (p.runInTurn jobs).result with
  | ok outputs => exact hcrew.handIn_ok hdone hworkers (Pipeline.runInTurn_eq_ok.mp hturn)
  | error e =>
    obtain ⟨job, hfirst, hfail⟩ := Pipeline.firstFailing_of_runInTurn hturn
    exact hcrew.handIn_error hdone hworkers hfirst hfail

theorem length_workers_of_play {crew' : Crew} {turns : List CrewTurn}
    (h : play (step p) crew turns = some crew') : crew'.workers.length = crew.workers.length := by
  have hkeep : ∀ s turn s', s.workers.length = crew.workers.length → step p s turn = some s' →
      s'.workers.length = crew.workers.length := by
    intro s turn s' hs hstep
    -- A turn replaces one worker by another state of it.
    obtain ⟨worker, desk', worker', _, rfl, _⟩ := step_eq_some hstep
    simpa using hs
  exact invariant_of_play (P := fun s => s.workers.length = crew.workers.length) hkeep h rfl

end Crew

/-! ## Runs -/

namespace Pipeline

variable {p : Pipeline}

theorem length_withSupplies (origin : Nat) (units : List CompilationUnit) :
    (withSupplies origin units).length = units.length := by
  induction units generalizing origin with
  | nil => rfl
  | cons unit rest ih => simp [withSupplies, ih]

theorem run_result (p : Pipeline) (units : List CompilationUnit) (origin : Nat) :
    (p.run units origin).result =
      (p.runInTurn (withSupplies origin units)).result.map PipelineOutput.ofUnits := by
  unfold run
  simp only
  -- On workers or in turn: the first case comes down to the second.
  split
  · rw [runOnWorkers_result]
  · rfl

/-- The number of workers is not looked at when units are run in turn. -/
theorem runInTurn_withWorkers (p : Pipeline) (workers : Nat)
    (jobs : List (Supply × CompilationUnit)) :
    ((p.withWorkers workers).runInTurn jobs).result = (p.runInTurn jobs).result := by
  induction jobs with
  | nil => rfl
  | cons job rest ih =>
    rw [runInTurn_cons, runInTurn_cons, ih]
    rfl

/-- Orderly passes do not break a worker down. -/
theorem runUnit_ne_workerPanicked (hpasses : ∀ pass ∈ p.passes, pass.Orderly)
    (job : Supply × CompilationUnit) : (p.runUnit job.1 job.2).result ≠ .error .workerPanicked := by
  intro h
  obtain ⟨pass, cause, _, heq⟩ := failsIn_of_runUnit hpasses h
  cases heq

/-- A run with at least one worker returns what the units give in turn, and always
can return it. -/
theorem mayReturn_iff (hpasses : ∀ pass ∈ p.passes, pass.Orderly)
    (hworkers : ∀ n, p.workers = some n → 0 < n) {units : List CompilationUnit} {origin : Nat}
    {result : Except PipelineError PipelineOutput} :
    p.MayReturn units origin result ↔
      result = (p.runInTurn (withSupplies origin units)).result.map PipelineOutput.ofUnits := by
  have hlength := length_withSupplies origin units
  -- All ends of all interleavings hand in the same, and there is such an end.
  have hhand : ∀ {n turns crew}, p.workers = some n → 1 < units.length →
      play (Crew.step p) (Pipeline.crew n (withSupplies origin units)) turns = some crew →
      crew.isDone →
      crew.handIn units.length = (p.runInTurn (withSupplies origin units)).result := by
    intro n turns crew hn hunits hplay hdone
    obtain ⟨taken, hcrew⟩ := Crew.sound_of_play (runUnit_ne_workerPanicked hpasses) hplay
    have hcount : crew.workers.length = min n units.length := by
      rw [Crew.length_workers_of_play hplay, ← hlength]
      simp [Pipeline.crew]
    -- With workers to choose from and units to run there is at least one worker.
    have hsome : crew.workers ≠ [] := by
      have := hworkers n hn
      rw [← List.length_pos_iff, hcount]
      omega
    rw [← hlength]
    exact hcrew.handIn_eq_runInTurn hdone hsome
  constructor
  · intro h
    cases h with
    | inTurn _ => rfl
    | onWorkers hn hunits hplay hdone => rw [hhand hn hunits hplay hdone]
  · rintro rfl
    by_cases hturn : p.workers = none ∨ units.length ≤ 1
    · exact .inTurn hturn
    · obtain ⟨hsome, hunits⟩ := not_or.mp hturn
      obtain ⟨n, hn⟩ := Option.ne_none_iff_exists'.mp hsome
      obtain ⟨turns, crew, hplay, hdone⟩ :=
        Crew.exists_play_isDone p (Pipeline.crew n (withSupplies origin units))
      rw [← hhand hn (by omega) hplay hdone]
      exact .onWorkers hn (by omega) hplay hdone

/-- With orderly passes, a run on workers returns exactly what the run in turn returns,
for every number of workers and every interleaving of their turns. This is the output
of all units in input order, or the failure of the first failing unit in its first
failing pass. Every interleaving comes to an end, unless the workers keep finding the
queue in use, and up to its end some worker can move. -/
theorem run_withWorkers (hturn : p.workers = none) (hpasses : ∀ pass ∈ p.passes, pass.Orderly)
    (n : Nat) (units : List CompilationUnit) (origin : Nat) :
    (∀ result, ((p.withWorkers n).MayReturn units origin result ↔ p.MayReturn units origin result) ∧
        (p.MayReturn units origin result ↔ result = (p.run units origin).result)) ∧
      ((p.withWorkers n).run units origin).result = (p.run units origin).result ∧
      ((∃ outputs, List.Forall₂ p.Gives (withSupplies origin units) outputs ∧
          (p.run units origin).result = .ok (.ofUnits outputs)) ∨
        ∃ job pass cause, p.FirstFailing (withSupplies origin units) job ∧
          p.FailsIn job pass cause ∧
          (p.run units origin).result = .error (.passFailed pass.name job.2.name cause)) ∧
      ∀ turns crew, play (Crew.step (p.withWorkers n))
          (Pipeline.crew (max n 1) (withSupplies origin units)) turns = some crew →
        turns.length ≤ 5 * units.length + 2 * max n 1 + 2 * turns.countP (·.retries) ∧
          (crew.isDone = false →
            ∃ k crew', crew.step (p.withWorkers n) { worker := k } = some crew') := by
  -- A pipeline that is asked for no workers gets one.
  have hatLeast : ∀ m, (p.withWorkers n).workers = some m → 0 < m := by
    intro m hm
    cases hm
    omega
  have hnone : ∀ m, p.workers = some m → 0 < m := by simp [hturn]
  have hon : ∀ pass ∈ (p.withWorkers n).passes, pass.Orderly := hpasses
  refine ⟨fun result => ⟨?_, ?_⟩, ?_, ?_, fun turns crew hplay => ⟨?_, Crew.exists_step _⟩⟩
  · rw [mayReturn_iff hon hatLeast, mayReturn_iff hpasses hnone, runInTurn_withWorkers]
  · rw [mayReturn_iff hpasses hnone, run_result]
  · rw [run_result, run_result, runInTurn_withWorkers]
  · rw [run_result]
    cases hresult : (p.runInTurn (withSupplies origin units)).result with
    | ok outputs => exact .inl ⟨outputs, runInTurn_eq_ok.mp hresult, rfl⟩
    | error e =>
      obtain ⟨job, hfirst, hfail⟩ := firstFailing_of_runInTurn hresult
      obtain ⟨pass, cause, hpass, rfl⟩ := failsIn_of_runUnit hpasses hfail
      exact .inr ⟨job, pass, cause, hfirst, hpass, rfl⟩
  · rw [← length_withSupplies origin units]
    exact Crew.length_of_play hplay

/-- The default passes, run in turn. -/
def defaultInTurn : Pipeline :=
  { passes := ({} : Settings).passes.map (·.pass) }

/-- A variable that nothing declares. -/
def stray : Variable :=
  { id := { serial := 7 }, name := "stray", type := .prim .int }

/-- A unit of the given name with a use of this variable. -/
def strayUse (name : String) : CompilationUnit :=
  { Conversion.unitOf [] [.expression (.varRef stray) {}] with name }

/-- Three units, of which the last two fail. -/
def partlyStray : List CompilationUnit :=
  [Conversion.nullableHolder, strayUse "B.java", strayUse "A.java"]

/-- Two workers report the first of the failing units, whatever they do. -/
theorem run_withWorkers_partlyStray :
    defaultInTurn.workers = none ∧ (∀ pass ∈ defaultInTurn.passes, pass.Orderly) ∧
      ∀ result, (defaultInTurn.withWorkers 2).MayReturn partlyStray 1 result ↔
        result = .error (.passFailed Shape.passName "B.java"
          { pass := Shape.passName
            message := (Shape.Violation.outOfScope stray).message
            span := {} }) := by
  have hpasses : ∀ pass ∈ defaultInTurn.passes, pass.Orderly := by
    intro pass hpass
    obtain ⟨kind, _, rfl⟩ := List.mem_map.mp hpass
    exact kind.pass_orderly
  refine ⟨rfl, hpasses, fun result => ?_⟩
  have hagree := (run_withWorkers rfl hpasses 2 partlyStray 1).1 result
  exact hagree.1.trans hagree.2

end Pipeline

end Lowering
