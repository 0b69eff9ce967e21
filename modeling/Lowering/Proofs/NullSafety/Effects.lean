import Lowering.Proofs.NullSafety.Relation
import Lowering.Proofs.Tree.Effects

/-!
# The pass keeps the effects

Asserting duplicates the targets of updates, flattening drops repeated checks,
and defaults duplicate assert messages. All of these are reads; what has effects
is bound to a temporary and evaluated once. Hence the effect trace stays, except
for the declarations of the temporaries.

Main statement: `NullSafety.pass_effects`.
-/

namespace Lowering

open Conversion

/-- Only variables and fields are updated by `++`, `--`, `+=` and `-=`. -/
def Expr.updatesPlace : Expr → Bool
  | binary .plusAssign left _ _ | binary .minusAssign left _ _ => left.written.isSome
  | unary .increment _ operand _ | unary .decrement _ operand _ => operand.written.isSome
  | _ => true

namespace NullSafety

/-- What the proof needs of every node of the input. -/
structure Traceable (known : VariableId → Bool) (e : Expr) : Prop where
  known : ∀ v ∈ e.ownVariables, known v.id = true
  target : e.updatesPlace = true

/-- The result has the effects of the expression, besides declarations of unknown
variables. -/
def SameEffects (known : VariableId → Bool) (e e' : Expr) : Prop :=
  e'.effects.filter (·.isKept known) = e.effects

/-- As an assignment target, the result also denotes the same variable or field. -/
structure SameTrace (known : VariableId → Bool) (e e' : Expr) : Prop where
  effects : SameEffects known e e'
  written : e'.written = e.written

section

variable {known : VariableId → Bool} {T : VariableId → Prop}

/-- Assertions have no effects of their own; failing does not count as one. -/
theorem effects_of_wrapped {e e' : Expr} (h : Wrapped e e') : e'.effects = e.effects := by
  cases h with
  | same | asserted => rfl

/-- Effects of parts are compared part by part, with declarations of temporaries left out on the
side of the result. -/
theorem sameEffects_option {q q' : Option Expr} (h : Option.Rel (SameEffects known) q q') :
    (Expr.effectsOption q').filter (·.isKept known) = Expr.effectsOption q := by
  cases h with
  | none => rfl
  | some h => exact h

theorem sameEffects_list {es es' : List Expr} (h : List.Forall₂ (SameEffects known) es es') :
    (Expr.effectsList es').filter (·.isKept known) = Expr.effectsList es := by
  induction h with
  | nil => rfl
  | cons he _ ih => rw [Expr.effectsList, List.filter_append, he, ih, Expr.effectsList]

/-- Declared variables of the input are known, so their declarations are not left out. -/
theorem sameEffects_fragments {fs fs' : List (Fragment Expr)}
    (hknown : ∀ f ∈ fs, known f.binder.id = true)
    (h : List.Forall₂ (Fragment.Rel (SameEffects known)) fs fs') :
    (Expr.effectsFragments fs').filter (·.isKept known) = Expr.effectsFragments fs := by
  induction h with
  | nil => rfl
  | cons hf _ ih =>
    have htail := ih fun f hf => hknown f (List.mem_cons_of_mem _ hf)
    cases hf with
    | @mk binder i i' hi =>
      -- The binder is the same on both sides.
      have hbinder : Effect.isKept known (.declare binder.id) = true :=
        hknown ⟨binder, i⟩ List.mem_cons_self
      rw [Expr.effectsFragments, List.filter_append, List.filter_cons, if_pos hbinder,
        sameEffects_option hi, htail, Expr.effectsFragments]

/-! ## Updates -/

/-- A target that is read twice has no effects. -/
theorem effects_of_repeatable {target : Expr} (hwritten : target.written.isSome = true)
    (h : hasRepeatableReceiver target = true) : target.effects = [] := by
  cases target with
  | varRef v => rfl
  | fieldAccess q f =>
    cases q with
    | none => rfl
    | some q => exact Expr.effects_of_isIdempotent (e := q) h
  | _ => cases hwritten

/-- An update with its checks has the effects of the update: those of the target,
followed by `tail`. -/
theorem effects_of_guarded (hT : ∀ id, T id → known id = false) {update : Expr → Expr}
    (tail : Option Written → List Effect) {target e : Expr}
    (h : Guarded assertions T update target e)
    (hupdate : ∀ t, (update t).effects = t.effects ++ tail t.written)
    (hwritten : target.written.isSome = true) :
    e.effects.filter (·.isKept known) =
      (target.effects ++ tail target.written).filter (·.isKept known) := by
  have hdropped : ∀ {v : Variable}, T v.id → Effect.isKept known (.declare v.id) = false :=
    fun hv => hT _ hv
  cases h with
  | unboxed _ | unchanged _ _ _ => rw [hupdate]
  | checked hrepeatable hcheck _ =>
    -- The target is read twice, which is the same as once because it has no effects.
    have hread := effects_of_repeatable hwritten hrepeatable
    have hcheck' := effects_of_wrapped (wrapped_of_required hcheck)
    simp only [Expr.effects, Expr.effectsList, hupdate, hcheck', hread, List.nil_append,
      List.append_nil]
  -- The receiver moves into the declaration, with its effects; reading the temporary has none.
  | bound _ _ hv _ _ _ =>
    simp [Expr.declareOne, Expr.effects, Expr.effectsList, Expr.effectsFragments,
      Expr.effectsOption, Expr.written, hupdate, hdropped hv]
  | boundChecked _ _ hv _ hcheck _ =>
    have hcheck' := effects_of_wrapped (wrapped_of_required hcheck)
    simp [Expr.declareOne, Expr.effects, Expr.effectsList, Expr.effectsFragments,
      Expr.effectsOption, Expr.written, hupdate, hdropped hv, hcheck']

/-! ## All kinds of expressions -/

/-- Every expression has the effects of its result. Assignments and steps name what they write, so
targets have to denote the same variable or field on both sides. -/
theorem sameTrace_congruence (hT : ∀ id, T id → known id = false) :
    WrapCongruence T (Traceable known) (SameTrace known) (SameEffects known) where
  wrap h hwrapped := by
    rw [SameEffects, effects_of_wrapped hwrapped]
    exact h.effects
  leaf {e} hleaf _ := by
    refine ⟨?_, rfl⟩
    cases e with
    | nullLiteral | boolLiteral | numberLiteral | stringLiteral | thisRef | varRef => rfl
    | _ => cases hleaf
  fieldAccess _ hq := ⟨sameEffects_option hq, rfl⟩
  call _ hq has := by
    refine ⟨?_, rfl⟩
    rw [SameEffects, Expr.effects, List.filter_append, List.filter_append, sameEffects_option hq,
      sameEffects_list has]
    rfl
  newInstance _ has := by
    refine ⟨?_, rfl⟩
    rw [SameEffects, Expr.effects, List.filter_append, sameEffects_list has]
    rfl
  binary _ hop hl hr := by
    refine ⟨?_, rfl⟩
    simp only [SameEffects] at hl hr
    simp [SameEffects, Expr.effects, hl, hr, hop]
  assign _ hl hr := by
    refine ⟨?_, rfl⟩
    have hl' : _ = _ := hl.effects
    have hr' : _ = _ := hr
    simp [SameEffects, Expr.effects, hl', hr', hl.written, BinaryOp.isAssignment]
  compound {op l l₁ r r' e type} he hop _ hl hr hguarded := by
    have hassign : op.isAssignment = true := by rcases hop with rfl | rfl <;> rfl
    have hwritten : l₁.written.isSome = true := by
      rw [hl.written]
      rcases hop with rfl | rfl <;> exact he.target
    have hnone := hguarded.root (R := fun e => e.written = none) (fun _ => rfl) fun _ _ => rfl
    refine ⟨?_, hnone⟩
    -- After the target come the right side and the write.
    rw [SameEffects, effects_of_guarded hT (fun written => r'.effects ++ [.assign op written])
      hguarded (fun t => by simp [Expr.effects, hassign]) hwritten]
    have hl' : _ = _ := hl.effects
    have hr' : _ = _ := hr
    simp [Expr.effects, hl', hr', hl.written, hassign]
  unary _ hop hx := by
    refine ⟨?_, rfl⟩
    simp only [SameEffects] at hx
    simp [SameEffects, Expr.effects, hx, hop]
  step {op fixity x x₁ e type} he hop _ hx hguarded := by
    have hwritten : x₁.written.isSome = true := by
      rw [hx.written]
      cases op with
      | increment | decrement => exact he.target
      | _ => cases hop
    have hnone := hguarded.root (R := fun e => e.written = none) (fun _ => rfl) fun _ _ => rfl
    refine ⟨?_, hnone⟩
    rw [SameEffects, effects_of_guarded hT (fun written => [.step op fixity written])
      hguarded (fun t => by simp [Expr.effects, hop]) hwritten]
    have hx' : _ = _ := hx.effects
    simp [Expr.effects, hx', hx.written, hop]
  cast _ hx := ⟨hx, rfl⟩
  conditional _ hc ha hb := by
    refine ⟨?_, rfl⟩
    simp only [SameEffects] at hc ha hb
    simp [SameEffects, Expr.effects, hc, ha, hb]
  notNull _ hx := ⟨hx.effects, rfl⟩
  -- Splicing keeps the order, and checks that are left out have no effects.
  multi _ _ hes := by
    refine ⟨?_, rfl⟩
    rw [SameEffects, Expr.effects, Expr.effectsList_dropRepeated, Expr.effectsList_flatten]
    exact sameEffects_list (hes.imp fun _ _ h => h.effects)
  declare {fs _} he hfs := by
    refine ⟨sameEffects_fragments (fun f hf => ?_) hfs, rfl⟩
    exact he.known f.binder (List.mem_map.mpr ⟨f, hf, rfl⟩)

/-! ## Units -/

/-- A message with its default has the effects of the message. -/
theorem sameEffects_of_defaulted (hT : ∀ id, T id → known id = false) {type : Ty}
    {e e₁ e' : Expr} (h : SameEffects known e e₁) (hdefault : Defaulted type T e₁ e') :
    SameEffects known e e' := by
  have heffects : e'.effects.filter (·.isKept known) = e₁.effects.filter (·.isKept known) := by
    cases hdefault with
    | known _ => rfl
    | null hnull =>
      cases e₁ with
      | nullLiteral => rfl
      | _ => cases hnull
    -- The message is there twice, but it has no effects.
    | choice _ hidem =>
      have hread := Expr.effects_of_isIdempotent hidem
      simp [nullChoice, Expr.equalsNull, Expr.operation, messageDefault, Expr.ofString, Expr.null,
        Expr.effects, Expr.effectsList, hread, BinaryOp.isAssignment]
    | @bound temporary _ _ hv _ =>
      -- The message is evaluated once, before the choice; only the declaration is new.
      have hdropped : Effect.isKept known (.declare temporary.id) = false := hT _ hv
      simp [nullChoice, Expr.equalsNull, Expr.operation, messageDefault, Expr.ofString, Expr.null,
        Expr.declareOne, Expr.effects, Expr.effectsList, Expr.effectsFragments, Expr.effectsOption,
        hdropped, BinaryOp.isAssignment]
  exact heffects.trans h

/-- Expressions of a unit and of its result have the same effects, one by one, and so do the
units. -/
theorem sameEffects_of_related (hT : ∀ id, T id → known id = false) {type : Ty}
    {u u' : CompilationUnit} (h : CompilationUnit.Related (steps type T) u u')
    (hu : u.Everywhere (Traceable known)) : u'.effects.filter (·.isKept known) = u.effects := by
  have heach : List.Forall₂ (SameEffects known) u.expressions u'.expressions := by
    refine forall₂_imp_of_mem h.expressions fun e he e' hstep => ?_
    exact (sameTrace_congruence hT).of_step
      (fun htrace => sameEffects_of_defaulted hT htrace.effects) hstep (hu e he)
  have hlist := sameEffects_list heach
  rwa [Expr.effectsList_eq_flatMap, Expr.effectsList_eq_flatMap] at hlist

end

/-- If only variables and fields are updated and the variables of the unit are not
issued again, the pass succeeds and keeps the effects of the unit. The result has
no effects but these and the declarations of variables that do not occur in the
unit. -/
theorem pass_effects (u : CompilationUnit) (context : PassContext)
    (hfresh : ∀ v ∈ u.allVariables, ¬ context.supply.CanIssue v.id)
    (htarget : u.Everywhere fun e => e.updatesPlace = true) :
    ∃ u' context', pass.apply u context = (.ok u', context') ∧
      u'.effects.filter (·.isKept u.knows) = u.effects := by
  obtain ⟨context', happly⟩ := pass_apply u context
  refine ⟨_, context', happly, sameEffects_of_related ?_ (run_related _ _ _ u) fun e he s hs => ?_⟩
  · -- A temporary is no variable of the unit.
    intro id hid
    simp only [CompilationUnit.knows, List.any_eq_false, beq_iff_eq]
    rintro v hv rfl
    exact hfresh v hv hid.canIssue
  · refine ⟨fun v hv => ?_, htarget e he s hs⟩
    simp only [CompilationUnit.knows, List.any_eq_true, beq_iff_eq]
    exact ⟨v, u.everywhere_ownVariables e he s hs v hv, rfl⟩

theorem nullableHolder_effects :
    (∀ v ∈ nullableHolder.allVariables, ¬ Supply.CanIssue { origin := 1 } v.id) ∧
      (nullableHolder.Everywhere fun e => e.updatesPlace = true) ∧
      ∃ u' context', pass.apply nullableHolder
        { unitName := "Holder.java", supply := { origin := 1 } } = (.ok u', context') ∧
        u'.effects.filter (·.isKept nullableHolder.knows) = nullableHolder.effects :=
  ⟨by decide, by decide, pass_effects nullableHolder _ (by decide) (by decide)⟩

end NullSafety

end Lowering
