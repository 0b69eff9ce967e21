import Mathlib.Data.List.Forall2
import Lowering.Pipeline.Run

/-!
# Successful runs

A run over a unit succeeds if its passes do, one after the other. Units are
processed independently of each other, in turn or on workers: a run succeeds
exactly if every unit does, and its output is what the units give, in input order.

Main statements:

- `Pipeline.gives_iff`: when a unit succeeds, and with what.
- `Pipeline.run_eq_ok`: when a run succeeds, and with what.
-/

namespace Lowering

namespace Pipeline

variable {p : Pipeline}

/-! ## One unit -/

theorem applyPasses_nil_eq_ok {unitName : String} {u u' : CompilationUnit}
    {context context' : PassContext} :
    applyPasses unitName [] u context = (.ok u', context') ↔ u' = u ∧ context' = context := by
  constructor
  · intro h
    cases h
    exact ⟨rfl, rfl⟩
  · rintro ⟨rfl, rfl⟩
    rfl

/-- Passes succeed if the first one does, and the others do on what it returns. -/
theorem applyPasses_cons_eq_ok {unitName : String} {pass : Pass} {rest : List Pass}
    {u u' : CompilationUnit} {context context' : PassContext} :
    applyPasses unitName (pass :: rest) u context = (.ok u', context') ↔
      ∃ u₁ context₁, pass.apply u (announce unitName pass context) = (.ok u₁, context₁) ∧
        applyPasses unitName rest u₁ context₁ = (.ok u', context') := by
  simp only [applyPasses]
  rcases pass.apply u (announce unitName pass context) with ⟨result, context₁⟩
  cases result with
  -- A pass that fails is the last one, so there is no unit to hand on.
  | error cause =>
    constructor
    · intro h
      cases h
    · rintro ⟨_, _, heq, _⟩
      cases heq
  | ok u₁ =>
    constructor
    · intro h
      exact ⟨u₁, context₁, rfl, h⟩
    · rintro ⟨_, _, heq, h⟩
      cases heq
      exact h

/-- The unit succeeds with its own supply and gives the output. -/
def Gives (p : Pipeline) (job : Supply × CompilationUnit) (output : UnitOutput) : Prop :=
  (p.runUnit job.1 job.2).result = .ok output

/-- A unit succeeds if its passes do, with the tree they return and the problems that they have
noted. Nothing else of the context is part of the output. -/
theorem gives_iff {supply : Supply} {u : CompilationUnit} {output : UnitOutput} :
    p.Gives (supply, u) output ↔ ∃ context,
      applyPasses u.name p.passes u { unitName := u.name, types := p.types, supply } =
        (.ok output.unit, context) ∧ output.problems = context.problems := by
  unfold Gives runUnit
  generalize applyPasses u.name p.passes u { unitName := u.name, types := p.types, supply } =
    outcome
  obtain ⟨result, context⟩ := outcome
  cases result with
  | error cause => exact ⟨nofun, nofun⟩
  | ok u' =>
    constructor
    · intro h
      cases h
      exact ⟨context, rfl, rfl⟩
    · rintro ⟨_, heq, hproblems⟩
      cases heq
      obtain ⟨unit, problems⟩ := output
      cases hproblems
      rfl

/-! ## Several units -/

/-- Units in turn succeed if each of them does with its own supply. No unit sees what the ones
before it have given. -/
theorem runInTurn_eq_ok {jobs : List (Supply × CompilationUnit)} {outputs : List UnitOutput} :
    (p.runInTurn jobs).result = .ok outputs ↔ List.Forall₂ p.Gives jobs outputs := by
  induction jobs generalizing outputs with
  | nil =>
    constructor
    · intro h
      cases h
      exact .nil
    · intro h
      cases h
      rfl
  | cons job rest ih =>
    obtain ⟨supply, unit⟩ := job
    rw [runInTurn, List.forall₂_cons_left_iff]
    generalize hunit : p.runUnit supply unit = logged
    obtain ⟨result, log⟩ := logged
    cases result with
    -- The run ends here, and this unit gives nothing.
    | error cause => simp [Gives, hunit]
    | ok output =>
      -- The rest is run only now, and its success decides.
      cases hrest : (p.runInTurn rest).result with
      | error cause => simp [Gives, hunit, ← ih, hrest, Except.map]
      | ok further =>
        simp [Gives, hunit, ← ih, hrest, Except.map, eq_comm]

theorem collect_eq_ok {results : List (Except PipelineError UnitOutput)}
    {outputs : List UnitOutput} :
    collect results = .ok outputs ↔ List.Forall₂ (fun r o => r = .ok o) results outputs := by
  unfold collect
  induction results generalizing outputs with
  | nil =>
    constructor
    · intro h
      cases h
      exact .nil
    · intro h
      cases h
      rfl
  | cons result rest ih =>
    rw [List.mapM_cons, List.forall₂_cons_left_iff]
    cases result with
    -- One failure is enough for the whole to fail.
    | error cause => simp [bind, Except.bind]
    | ok output =>
      cases hrest : rest.mapM id with
      | error cause => simp [bind, Except.bind, ← ih, hrest]
      | ok further => simp [bind, Except.bind, pure, Except.pure, ← ih, hrest, eq_comm]

/-- On workers the units succeed under the same condition, although all of them are run in any
case. -/
theorem runOnWorkers_eq_ok {jobs : List (Supply × CompilationUnit)} {outputs : List UnitOutput} :
    (p.runOnWorkers jobs).result = .ok outputs ↔ List.Forall₂ p.Gives jobs outputs := by
  show collect ((jobs.map fun job => p.runUnit job.1 job.2).map (·.result)) = _ ↔ _
  rw [collect_eq_ok, List.map_map, List.forall₂_map_left_iff]
  rfl

/-- A run succeeds exactly if every unit does, and puts their outputs together. -/
theorem run_eq_ok {units : List CompilationUnit} {origin : Nat} {output : PipelineOutput} :
    (p.run units origin).result = .ok output ↔
      ∃ outputs, List.Forall₂ p.Gives (withSupplies origin units) outputs ∧
        output = .ofUnits outputs := by
  -- Putting outputs together does not fail.
  have hmap : ∀ {result : Except PipelineError (List UnitOutput)},
      result.map PipelineOutput.ofUnits = .ok output ↔
        ∃ outputs, result = .ok outputs ∧ output = .ofUnits outputs := by
    intro result
    cases result with
    | error cause => simp [Except.map]
    | ok outputs => simp [Except.map, eq_comm]
  unfold run
  simp only [hmap]
  split
  · simp only [runOnWorkers_eq_ok]
  · simp only [runInTurn_eq_ok]

/-- A run succeeds on units that succeed with every supply. -/
theorem run_isOk {units : List CompilationUnit} (origin : Nat)
    (h : ∀ u ∈ units, ∀ supply, ∃ output, p.Gives (supply, u) output) :
    ∃ output, (p.run units origin).result = .ok output := by
  have houtputs : ∃ outputs, List.Forall₂ p.Gives (withSupplies origin units) outputs := by
    induction units generalizing origin with
    | nil => exact ⟨[], .nil⟩
    | cons u rest ih =>
      -- The supply of a unit depends on its place, so the hypothesis is for every supply.
      obtain ⟨output, hu⟩ := h u List.mem_cons_self { origin }
      obtain ⟨outputs, hrest⟩ := ih (origin + 1) fun v hv => h v (List.mem_cons_of_mem _ hv)
      exact ⟨output :: outputs, .cons hu hrest⟩
  obtain ⟨outputs, hgives⟩ := houtputs
  exact ⟨_, run_eq_ok.mpr ⟨outputs, hgives, rfl⟩⟩

/-- Every unit of the output is what some unit of the input gives. -/
theorem exists_gives_of_run {units : List CompilationUnit} {origin : Nat} {output : PipelineOutput}
    (h : (p.run units origin).result = .ok output) :
    ∀ u' ∈ output.units, ∃ u ∈ units, ∃ supply result,
      p.Gives (supply, u) result ∧ u' = result.unit := by
  obtain ⟨outputs, hgives, rfl⟩ := run_eq_ok.mp h
  intro u' hu'
  obtain ⟨result, hresult, rfl⟩ := List.mem_map.mp hu'
  clear h hu'
  induction units generalizing origin outputs with
  | nil =>
    cases hgives
    cases hresult
  | cons u rest ih =>
    cases hgives with
    | cons hu hrest =>
      -- Outputs are in input order, so the first comes from the first.
      rcases List.mem_cons.mp hresult with rfl | hresult
      · exact ⟨u, List.mem_cons_self, _, _, hu, rfl⟩
      · obtain ⟨v, hv, hfrom⟩ := ih _ hrest hresult
        exact ⟨v, List.mem_cons_of_mem _ hv, hfrom⟩

end Pipeline

end Lowering
