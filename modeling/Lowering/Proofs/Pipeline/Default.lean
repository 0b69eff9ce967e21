import Lowering.Proofs.NullSafety.Recheck
import Lowering.Proofs.Pipeline.Units
import Lowering.Settings.Basic

/-!
# Compiling the output of a compilation

The default passes insert assertions and then verify the shape of the result. Their
output can be compiled again: assertions are values that cannot be null, so the
second run puts none of them under another assertion, and the shape of the result
is fine.

This takes that no expression is of a wildcard or a capture. An assertion on such a
value is of the same wildcard, annotated as non-nullable, which does not count as
non-null. The second run asserts the assertion, and the verification refuses the
result: see `Pipeline.run_again_fails`.

Main statement: `Pipeline.run_again`.
-/

namespace Lowering

namespace Pipeline

variable {p : Pipeline}

/-- A unit succeeds in the default passes if the shape check accepts what the
null-safety pass makes of it, and gives this. -/
theorem gives_default_iff (hpasses : p.passes = ({} : Settings).passes.map (·.pass))
    {supply : Supply} {u u' : CompilationUnit} :
    (∃ output, p.Gives (supply, u) output ∧ u' = output.unit) ↔
      u' = (NullSafety.run Known.object.toNonNullable {} supply u).unit ∧
        u'.checkShape = .ok () := by
  have hpasses' : p.passes = [NullSafety.pass, Shape.pass] := hpasses
  simp only [gives_iff, hpasses', applyPasses_cons_eq_ok, applyPasses_nil_eq_ok,
    Shape.pass_apply_eq_ok]
  -- The null-safety pass never fails, so only the shape check decides.
  obtain ⟨context, hfirst⟩ := NullSafety.pass_apply u
    (announce u.name NullSafety.pass { unitName := u.name, types := p.types, supply })
  rw [hfirst]
  constructor
  · rintro ⟨output, ⟨_, ⟨_, _, heq, _, _, ⟨hcheck, rfl, rfl⟩, hunit, rfl⟩, _⟩, rfl⟩
    cases heq
    rw [hunit]
    exact ⟨rfl, hcheck⟩
  · rintro ⟨rfl, hcheck⟩
    exact ⟨⟨_, context.problems⟩, ⟨_, ⟨_, _, rfl, _, _, ⟨hcheck, rfl, rfl⟩, rfl, rfl⟩, rfl⟩, rfl⟩

section

variable (hpasses : p.passes = ({} : Settings).passes.map (·.pass))

include hpasses

/-- The default passes bring no wildcards into a unit. -/
theorem plain_of_gives_default {supply : Supply} {u : CompilationUnit} {output : UnitOutput}
    (h : p.Gives (supply, u) output) (hu : u.Everywhere Expr.Plain) :
    output.unit.Everywhere Expr.Plain := by
  obtain ⟨hunit, _⟩ := (gives_default_iff hpasses).mp ⟨output, h, rfl⟩
  rw [hunit]
  exact (NullSafety.run_related _ _ _ u).everywhere (NullSafety.everywhere_plain_of_step rfl) hu

/-- An accepted unit without wildcards succeeds in the default passes. -/
theorem exists_gives_default {u : CompilationUnit} (hu : u.Everywhere Expr.Plain)
    (hcheck : u.checkShape = .ok ()) (supply : Supply) : ∃ output, p.Gives (supply, u) output := by
  have hrelated := NullSafety.run_related Known.object.toNonNullable {} supply u
  -- The result of the null-safety pass is accepted since its input is.
  have hagain := NullSafety.checkShape_again rfl hrelated hu hcheck
  obtain ⟨output, hgives, _⟩ := (gives_default_iff hpasses).mpr ⟨rfl, hagain⟩
  exact ⟨output, hgives⟩

end

/-- If the default passes succeed on units without wildcards and captures, in turn
or on workers, then they succeed on their output too, with identities of any
origin, and no assertion of the result stands directly on another one. -/
theorem run_again (hpasses : p.passes = ({} : Settings).passes.map (·.pass))
    {units : List CompilationUnit} {origin : Nat} {output : PipelineOutput}
    (hplain : ∀ u ∈ units, u.Everywhere Expr.Plain)
    (h : (p.run units origin).result = .ok output) (origin' : Nat) :
    ∃ output', (p.run output.units origin').result = .ok output' ∧
      ∀ u ∈ output'.units, u.Everywhere fun e => e.isDoubledAssertion = false := by
  -- The units of the output have passed the shape check of the first run.
  have hfirst : ∀ u ∈ output.units, u.Everywhere Expr.Plain ∧ u.checkShape = .ok () := by
    intro u' hu'
    obtain ⟨u, hu, supply, result, hgives, rfl⟩ := exists_gives_of_run h u' hu'
    exact ⟨plain_of_gives_default hpasses hgives (hplain u hu),
      ((gives_default_iff hpasses).mp ⟨result, hgives, rfl⟩).2⟩
  obtain ⟨output', hrun⟩ := run_isOk origin' fun u hu =>
    exists_gives_default hpasses (hfirst u hu).1 (hfirst u hu).2
  refine ⟨output', hrun, fun u' hu' => ?_⟩
  -- And those of the second output that of the second run.
  obtain ⟨u, _, supply, result, hgives, rfl⟩ := exists_gives_of_run hrun u' hu'
  exact Shape.not_doubled_of_checkShape ((gives_default_iff hpasses).mp ⟨result, hgives, rfl⟩).2

theorem run_again_nullableHolder :
    (({} : Settings).toPipeline 1).passes = ({} : Settings).passes.map (·.pass) ∧
      (∀ u ∈ [Conversion.nullableHolder], u.Everywhere Expr.Plain) ∧
      ∃ output,
        ((({} : Settings).toPipeline 1).run [Conversion.nullableHolder]).result = .ok output ∧
        ∃ output', ((({} : Settings).toPipeline 1).run output.units 2).result = .ok output' ∧
          ∀ u ∈ output'.units, u.Everywhere fun e => e.isDoubledAssertion = false := by
  have hplain : ∀ u ∈ [Conversion.nullableHolder], u.Everywhere Expr.Plain := by decide
  have hgives : ∀ u ∈ [Conversion.nullableHolder], ∀ supply, ∃ output,
      (({} : Settings).toPipeline 1).Gives (supply, u) output := by
    intro u hu
    obtain rfl := List.mem_singleton.mp hu
    exact exists_gives_default rfl (hplain _ hu) rfl
  obtain ⟨output, hrun⟩ := run_isOk 1 hgives
  exact ⟨rfl, hplain, output, hrun, run_again rfl hplain hrun 2⟩

/-! ## A value of a wildcard -/

/-- `value.count` where `value` is of the wildcard `? extends Holder`. -/
def wildcardReceiver : CompilationUnit :=
  let value : Variable :=
    { id := { serial := 0 }, name := "value", isParameter := true
      type := .typeVar "?" .wildcard (.classNamed "t.Holder") .parametric }
  Conversion.unitOf [value]
    [.expression (.fieldAccess (some (.varRef value)) Conversion.counter) {}]

/-- The first run succeeds, with the receiver under an assertion; the second one
asserts it again and is refused. -/
theorem run_again_fails :
    ∃ output, ((({} : Settings).toPipeline 1).run [wildcardReceiver]).result = .ok output ∧
      ((({} : Settings).toPipeline 1).run output.units 2).result =
        .error (.passFailed Shape.passName "Holder.java"
          { pass := Shape.passName, message := Shape.Violation.doubledAssertion.message
            span := {} }) :=
  ⟨_, rfl, rfl⟩

end Pipeline

end Lowering
