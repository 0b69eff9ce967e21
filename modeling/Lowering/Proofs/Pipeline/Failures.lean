import Lowering.Proofs.NullSafety.Relation
import Lowering.Proofs.Pipeline.Units
import Lowering.Proofs.Shape.Accepted
import Lowering.Settings.Basic

/-!
# Failing runs

A unit fails in its first pass that finds it inconsistent, and a run over several
units fails with the first of them. That the units are run on workers makes no
difference to the result.

The report names the unit as it was named before the passes. That there is one takes passes
that are orderly: they end with a unit or a report. The passes that settings can name are.

Main statements:

- `Pipeline.failsIn_of_runUnit`: which pass makes a unit fail, and with which report.
- `Pipeline.firstFailing_of_runInTurn`: which unit makes a run fail.
- `Pipeline.runOnWorkers_result`: units on workers give what units in turn give.
-/

namespace Lowering

/-! ## Orderly passes -/

/-- A pass that always ends with a unit or a report. -/
def Pass.Orderly (pass : Pass) : Prop :=
  ∀ u context, (pass.apply u context).1 ≠ .error .crash

theorem NullSafety.pass_orderly : NullSafety.pass.Orderly := by
  intro u context
  obtain ⟨context', happly⟩ := NullSafety.pass_apply u context
  rw [happly]
  simp

/-- The shape check accepts or reports, and in both cases ends. -/
theorem Shape.pass_orderly : Shape.pass.Orderly := by
  intro u context
  cases hcheck : u.checkShape with
  | ok _ => simp [Shape.pass_apply_eq_ok.mpr ⟨hcheck, rfl, rfl⟩]
  | error fault => simp [Shape.pass_apply_of_fault hcheck]

/-- Every pass that settings can name is orderly. -/
theorem PassKind.pass_orderly (kind : PassKind) : kind.pass.Orderly := by
  cases kind with
  | insertNotNullAssertions => exact NullSafety.pass_orderly
  | verifyTreeShape => exact Shape.pass_orderly

namespace Pipeline

variable {p : Pipeline}

/-! ## One unit -/

/-- The passes before this one succeed on the unit, and this one finds it
inconsistent. -/
def FailsIn (p : Pipeline) (job : Supply × CompilationUnit) (pass : Pass)
    (cause : Inconsistency) : Prop :=
  ∃ before after u context, p.passes = before ++ pass :: after ∧
    applyPasses job.2.name before job.2
        { unitName := job.2.name, types := p.types, supply := job.1 } = (.ok u, context) ∧
    (pass.apply u (announce job.2.name pass context)).1 = .error (.inconsistent cause)

/-- Passes fail with the report of the first that does. -/
theorem applyPasses_eq_error {passes : List Pass} (hpasses : ∀ pass ∈ passes, pass.Orderly)
    {unitName : String} {u : CompilationUnit} {context context' : PassContext} {e : PipelineError}
    (h : applyPasses unitName passes u context = (.error e, context')) :
    ∃ before pass after u₁ context₁ cause, passes = before ++ pass :: after ∧
      applyPasses unitName before u context = (.ok u₁, context₁) ∧
      (pass.apply u₁ (announce unitName pass context₁)).1 = .error (.inconsistent cause) ∧
      e = .passFailed pass.name unitName cause := by
  induction passes generalizing u context with
  | nil => cases h
  | cons first rest ih =>
    -- An orderly pass that fails has a cause to report.
    have hends := hpasses first List.mem_cons_self u (announce unitName first context)
    rcases hfirst : first.apply u (announce unitName first context) with ⟨result, context₁⟩
    simp only [applyPasses, hfirst] at h
    rw [hfirst] at hends
    cases result with
    | ok u₁ =>
      -- The first pass succeeds, so the failure is that of the others.
      obtain ⟨before, pass, after, u₂, context₂, cause, rfl, hbefore, hfail, rfl⟩ :=
        ih (fun pass hpass => hpasses pass (List.mem_cons_of_mem _ hpass)) h
      refine ⟨first :: before, pass, after, u₂, context₂, cause, rfl, ?_, hfail, rfl⟩
      exact applyPasses_cons_eq_ok.mpr ⟨u₁, context₁, hfirst, hbefore⟩
    | error failure =>
      cases h
      cases failure with
      | inconsistent cause =>
        exact ⟨[], first, rest, u, context, cause, rfl, rfl, by rw [hfirst], rfl⟩
      | crash => exact absurd rfl hends

/-- A unit fails in a pass, and the report names this pass and the unit. The name is the one that
the unit had before the passes, not what they may have made of it. -/
theorem failsIn_of_runUnit (hpasses : ∀ pass ∈ p.passes, pass.Orderly)
    {job : Supply × CompilationUnit} {e : PipelineError}
    (h : (p.runUnit job.1 job.2).result = .error e) :
    ∃ pass cause, p.FailsIn job pass cause ∧ e = .passFailed pass.name job.2.name cause := by
  unfold runUnit at h
  generalize hrun : applyPasses job.2.name p.passes job.2
    { unitName := job.2.name, types := p.types, supply := job.1 } = outcome at h
  obtain ⟨result, context⟩ := outcome
  cases result with
  | ok u => cases h
  | error cause =>
    cases h
    -- The passes before this one have all succeeded, which is what makes it the first.
    obtain ⟨before, pass, after, u, context₁, cause, hsplit, hbefore, hfail, rfl⟩ :=
      applyPasses_eq_error hpasses hrun
    exact ⟨pass, cause, ⟨before, after, u, context₁, hsplit, hbefore, hfail⟩, rfl⟩

/-! ## Several units -/

theorem runInTurn_cons (job : Supply × CompilationUnit) (rest : List (Supply × CompilationUnit)) :
    (p.runInTurn (job :: rest)).result =
      (p.runUnit job.1 job.2).result.bind fun output =>
        (p.runInTurn rest).result.map (output :: ·) := by
  obtain ⟨supply, unit⟩ := job
  rw [runInTurn]
  generalize p.runUnit supply unit = logged
  obtain ⟨result, log⟩ := logged
  -- The log is left out here, since only the result counts.
  cases result <;> rfl

/-- The first of the units that does not succeed. -/
def FirstFailing (p : Pipeline) (jobs : List (Supply × CompilationUnit))
    (job : Supply × CompilationUnit) : Prop :=
  ∃ before after, jobs = before ++ job :: after ∧
    (∀ earlier ∈ before, ∃ output, p.Gives earlier output) ∧ ¬ ∃ output, p.Gives job output

/-- A run in turn fails with its first failing unit. -/
theorem firstFailing_of_runInTurn {jobs : List (Supply × CompilationUnit)} {e : PipelineError}
    (h : (p.runInTurn jobs).result = .error e) :
    ∃ job, p.FirstFailing jobs job ∧ (p.runUnit job.1 job.2).result = .error e := by
  induction jobs with
  | nil => cases h
  | cons first rest ih =>
    rw [runInTurn_cons] at h
    cases hfirst : (p.runUnit first.1 first.2).result with
    -- Nothing before the first unit can have failed.
    | error cause =>
      rw [hfirst] at h
      cases h
      exact ⟨first, ⟨[], rest, rfl, by simp, by simp [Gives, hfirst]⟩, hfirst⟩
    | ok output =>
      rw [hfirst] at h
      -- The first unit succeeds, so the failure is that of the rest.
      have hrest : (p.runInTurn rest).result = .error e := by
        cases hrest : (p.runInTurn rest).result with
        | ok outputs =>
          rw [hrest] at h
          cases h
        | error cause =>
          rw [hrest] at h
          cases h
          rfl
      obtain ⟨job, ⟨before, after, rfl, hbefore, hjob⟩, hfail⟩ := ih hrest
      exact ⟨job, ⟨first :: before, after, rfl,
        List.forall_mem_cons.mpr ⟨⟨output, hfirst⟩, hbefore⟩, hjob⟩, hfail⟩

/-- Spreading the units over workers does not change the result: the first failure in input order is
reported, even if units after it have been run. -/
theorem runOnWorkers_result (p : Pipeline) (jobs : List (Supply × CompilationUnit)) :
    (p.runOnWorkers jobs).result = (p.runInTurn jobs).result := by
  induction jobs with
  | nil => rfl
  | cons job rest ih =>
    -- The results are collected from the front, so they have the recursion of the run in turn.
    have hcons : (p.runOnWorkers (job :: rest)).result =
        (p.runUnit job.1 job.2).result.bind fun output =>
          (p.runOnWorkers rest).result.map (output :: ·) := by
      show collect ((p.runUnit job.1 job.2).result :: _) = _
      rw [collect, List.mapM_cons]
      rfl
    rw [hcons, ih, runInTurn_cons]

end Pipeline

end Lowering
