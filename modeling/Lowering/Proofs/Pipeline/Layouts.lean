import Lowering.Layout.Registry
import Lowering.Layout.Summary
import Lowering.Proofs.Pipeline.Default
import Lowering.Proofs.Tree.Skeleton

/-!
# Layouts before and after the passes

Passes change expressions and nothing else: the conversion traversal keeps the
skeleton of a unit whatever its handler puts in the place of expressions, and so does
the null-safety pass. The layout of a class depends on skeletons only. Layouts can
therefore be computed before the passes of a compilation or after them.

Main statement: `Pipeline.layoutOf_of_run`.
-/

namespace Lowering

/-! ## What keeps skeletons -/

/-- Every handler answers with some expression. -/
def Conversion.anything : Adjustment where
  slot _ _ _ _ := True
  nonNull _ _ _ _ := True

/-- The conversion traversal keeps the skeleton, whatever the handler does. -/
theorem Conversion.skeleton_unit {σ : Type} (h : Handler (StateM σ)) (u : CompilationUnit)
    {c : Cursor} (hc : c.site.enclosingMethod = none) (s : σ) :
    ((conversion h).unit u c s).1.1.skeleton = u.skeleton := by
  -- Nothing is asked of the answers, so what is left is the shape around them.
  have hanswers : Answers h anything := ⟨fun _ _ _ _ _ => trivial, fun _ _ _ _ _ => trivial⟩
  have hrelated := (unit_converted hanswers u c hc s).2 (fun _ => True) fun _ _ => trivial
  exact hrelated.skeleton

/-- The null-safety pass succeeds and keeps the skeleton. -/
theorem NullSafety.skeleton_pass (u : CompilationUnit) (context : PassContext) :
    ∃ u' context', NullSafety.pass.apply u context = (.ok u', context') ∧
      u'.skeleton = u.skeleton := by
  obtain ⟨context', happly⟩ := NullSafety.pass_apply u context
  exact ⟨_, context', happly, (NullSafety.run_related _ _ _ u).skeleton⟩

/-- A pass that changes expressions only. -/
def Pass.KeepsSkeleton (pass : Pass) : Prop :=
  ∀ u u' context context', pass.apply u context = (.ok u', context') → u'.skeleton = u.skeleton

theorem PassKind.pass_keepsSkeleton (kind : PassKind) : kind.pass.KeepsSkeleton := by
  intro u u' context context' happly
  cases kind with
  | insertNotNullAssertions =>
    obtain ⟨_, _, happly', hskeleton⟩ := NullSafety.skeleton_pass u context
    cases happly.symm.trans happly'
    exact hskeleton
  -- The verification returns the unit that it was given.
  | verifyTreeShape => rw [(Shape.pass_apply_eq_ok.mp happly).2.1]

namespace Pipeline

variable {p : Pipeline}

theorem skeleton_of_applyPasses {passes : List Pass} (hpasses : ∀ pass ∈ passes, pass.KeepsSkeleton)
    {unitName : String} {u u' : CompilationUnit} {context context' : PassContext}
    (h : applyPasses unitName passes u context = (.ok u', context')) :
    u'.skeleton = u.skeleton := by
  induction passes generalizing u context with
  | nil => rw [(applyPasses_nil_eq_ok.mp h).1]
  | cons pass rest ih =>
    obtain ⟨u₁, context₁, hfirst, hrest⟩ := applyPasses_cons_eq_ok.mp h
    calc u'.skeleton
      _ = u₁.skeleton := ih (fun pass hpass => hpasses pass (List.mem_cons_of_mem _ hpass)) hrest
      _ = u.skeleton := hpasses pass List.mem_cons_self u u₁ _ _ hfirst

/-- Runs of such passes give units with the skeletons of the input, in input order. -/
theorem skeletons_of_run (hpasses : ∀ pass ∈ p.passes, pass.KeepsSkeleton)
    {units : List CompilationUnit} {origin : Nat} {output : PipelineOutput}
    (h : (p.run units origin).result = .ok output) :
    output.units.map CompilationUnit.skeleton = units.map CompilationUnit.skeleton := by
  obtain ⟨outputs, hgives, rfl⟩ := run_eq_ok.mp h
  clear h
  -- Each unit gets its own supply of names, so the origin moves along with the units.
  induction units generalizing origin outputs with
  | nil =>
    cases hgives
    rfl
  | cons u rest ih =>
    cases hgives with
    | cons hfirst hrest =>
      obtain ⟨context, happly, _⟩ := gives_iff.mp hfirst
      have hskeleton := skeleton_of_applyPasses hpasses happly
      have hfurther := ih _ hrest
      simp only [PipelineOutput.ofUnits, List.map_cons] at hfurther ⊢
      rw [hskeleton, hfurther]

end Pipeline

/-! ## What depends on skeletons -/

/-- Summaries of classes leave expressions out. -/
theorem ClassSummary.ofDecl_skeleton (d : TypeDecl) : ofDecl d.skeleton = ofDecl d := by
  have hfields : d.skeleton.instanceFields.map (·.ref) = d.instanceFields.map (·.ref) := by
    unfold TypeDecl.instanceFields TypeDecl.skeleton
    simp [List.filter_map, Function.comp_def, FieldDecl.skeleton]
  have hmethods : d.skeleton.polymorphicMethods = d.polymorphicMethods := by
    unfold TypeDecl.polymorphicMethods TypeDecl.skeleton
    simp [Function.comp_def, MethodDecl.skeleton]
  unfold ofDecl
  rw [hfields, hmethods]
  rfl

/-- A registry depends on the skeletons of the units only. -/
theorem LayoutRegistry.ofUnits_skeleton (units : List CompilationUnit) :
    ofUnits (units.map CompilationUnit.skeleton) = ofUnits units := by
  have hunit : ∀ u : CompilationUnit,
      u.skeleton.types.map ClassSummary.ofDecl = u.types.map ClassSummary.ofDecl := by
    intro u
    simp [CompilationUnit.skeleton, Function.comp_def, ClassSummary.ofDecl_skeleton]
  unfold ofUnits
  rw [List.flatMap_map]
  simp only [hunit]

/-- Passes touch nothing but expressions. The conversion traversal keeps the skeleton of
every unit, whatever its handler does, and so does the null-safety pass, which always
succeeds. So after the default passes every query for a layout is answered as before
them. -/
theorem Pipeline.layoutOf_of_run :
    (∀ (σ : Type) (h : Handler (StateM σ)) (u : CompilationUnit) (c : Cursor) (s : σ),
        c.site.enclosingMethod = none →
          ((conversion h).unit u c s).1.1.skeleton = u.skeleton) ∧
      (∀ u context, ∃ u' context', NullSafety.pass.apply u context = (.ok u', context') ∧
        u'.skeleton = u.skeleton) ∧
      ∀ (p : Pipeline) (units : List CompilationUnit) (origin : Nat) (output : PipelineOutput),
        p.passes = ({} : Settings).passes.map (·.pass) →
        (p.run units origin).result = .ok output →
          ∀ name, (LayoutRegistry.ofUnits output.units).layoutOf name =
            (LayoutRegistry.ofUnits units).layoutOf name := by
  refine ⟨fun σ h u c s hc => Conversion.skeleton_unit h u hc s, NullSafety.skeleton_pass, ?_⟩
  intro p units origin output hpasses hrun name
  have hkeep : ∀ pass ∈ p.passes, pass.KeepsSkeleton := by
    intro pass hpass
    rw [hpasses] at hpass
    obtain ⟨kind, _, rfl⟩ := List.mem_map.mp hpass
    exact kind.pass_keepsSkeleton
  -- The two registries are equal, so every query has the same answer and the same effect.
  have hsame : LayoutRegistry.ofUnits output.units = LayoutRegistry.ofUnits units := by
    rw [← LayoutRegistry.ofUnits_skeleton output.units, skeletons_of_run hkeep hrun,
      LayoutRegistry.ofUnits_skeleton]
  rw [hsame]

/-- The passes put assertions into `nullableHolder`, and leave its layouts. -/
theorem Pipeline.layoutOf_of_run_nullableHolder :
    (Conversion.nullableHolder.Everywhere fun e => e.isNotNull = false) ∧
      ∃ output,
        ((({} : Settings).toPipeline 1).run [Conversion.nullableHolder]).result = .ok output ∧
        (∃ u ∈ output.units, ¬ u.Everywhere fun e => e.isNotNull = false) ∧
        ∀ name, (LayoutRegistry.ofUnits output.units).layoutOf name =
          (LayoutRegistry.ofUnits [Conversion.nullableHolder]).layoutOf name := by
  obtain ⟨output, hrun, hchanged⟩ : ∃ output,
      ((({} : Settings).toPipeline 1).run [Conversion.nullableHolder]).result = .ok output ∧
        ∃ u ∈ output.units, ¬ u.Everywhere fun e => e.isNotNull = false :=
    ⟨_, rfl, by decide⟩
  exact ⟨by decide, output, hrun, hchanged, layoutOf_of_run.2.2 _ _ _ _ rfl hrun⟩

end Lowering
