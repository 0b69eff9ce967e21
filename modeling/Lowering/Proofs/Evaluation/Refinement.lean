import Lowering.Proofs.Evaluation.Evaluator

/-!
# Refinement up to temporaries

`Eval.Refines T x y` says that `x` can do what `y` does: whenever `y` ends
normally, so does `x`, with the same result and the same state except for the
variables in `T`. The relation follows the structure of computations, so that
refinement of two expressions is proved along their evaluators.
-/

namespace Lowering

/-- The states differ at most in the variables in `T`. -/
structure State.AgreesOff (T : VariableId → Prop) (s t : State) : Prop where
  heap : s.heap = t.heap
  store : ∀ id, ¬ T id → s.store id = t.store id

namespace State.AgreesOff

variable {T : VariableId → Prop} {s t r : State}

theorem refl (s : State) : s.AgreesOff T s := ⟨rfl, fun _ _ => rfl⟩

/-- Agreement is kept by passing through a third state, as long as the same variables are left
out. -/
theorem trans (h : s.AgreesOff T t) (h' : t.AgreesOff T r) : s.AgreesOff T r :=
  ⟨h.heap.trans h'.heap, fun id hid => (h.store id hid).trans (h'.store id hid)⟩

end State.AgreesOff

namespace Eval

/-- Whenever the second computation ends normally, the first one does so with the
same result and up to `T` the same state. -/
def Refines {α : Type} (T : VariableId → Prop) (x y : Eval α) : Prop :=
  ∀ s t : State, s.AgreesOff T t → ∀ (a : α) (t' : State), y t = some (a, t') →
    ∃ s', x s = some (a, s') ∧ s'.AgreesOff T t'

theorem bind_apply {α β : Type} (x : Eval α) (f : α → Eval β) (s : State) :
    (x >>= f) s = (x s).bind fun r => f r.1 r.2 := rfl

/-- A sequence of computations ends normally if both parts do, the second from the state that the
first has left. -/
theorem bind_eq_some {α β : Type} {x : Eval α} {f : α → Eval β} {s s' : State} {b : β} :
    (x >>= f) s = some (b, s') ↔ ∃ a s₁, x s = some (a, s₁) ∧ f a s₁ = some (b, s') := by
  rw [bind_apply, Option.bind_eq_some_iff]
  exact ⟨fun ⟨⟨a, s₁⟩, h⟩ => ⟨a, s₁, h⟩, fun ⟨a, s₁, h⟩ => ⟨⟨a, s₁⟩, h⟩⟩

namespace Refines

variable {α β : Type} {T : VariableId → Prop}

/-! ## Structure -/

theorem pure (a : α) : Refines T (Pure.pure a) (Pure.pure a) := by
  intro s t hst b t' h
  cases h
  exact ⟨s, rfl, hst⟩

/-- Everything refines a computation that never ends normally. So nothing has to be shown where the
original fails. -/
theorem fail {x : Eval α} : Refines T x Eval.fail := by
  intro s t _ a t' h
  cases h

/-- The rest of the computation may rely on its input being a result of the first
part. -/
theorem bind_result {x y : Eval α} {f g : α → Eval β} (hxy : Refines T x y)
    (hfg : ∀ a s s', x s = some (a, s') → Refines T (f a) (g a)) :
    Refines T (x >>= f) (y >>= g) := by
  intro s t hst b t' h
  obtain ⟨a, t₁, hy, hg⟩ := bind_eq_some.mp h
  -- The first parts have the same result `a`, so the rests are compared for one input.
  obtain ⟨s₁, hx, hst₁⟩ := hxy s t hst a t₁ hy
  obtain ⟨s', hf, hst'⟩ := hfg a s s₁ hx s₁ t₁ hst₁ b t' hg
  exact ⟨s', bind_eq_some.mpr ⟨a, s₁, hx, hf⟩, hst'⟩

theorem bind {x y : Eval α} {f g : α → Eval β} (hxy : Refines T x y)
    (hfg : ∀ a, Refines T (f a) (g a)) : Refines T (x >>= f) (y >>= g) :=
  hxy.bind_result fun a _ _ _ => hfg a

/-- The second computation may be replaced by one whose runs it can match from
the same state. -/
theorem of_runs {x y z : Eval α} (hxy : Refines T x y)
    (h : ∀ t a t', z t = some (a, t') → ∃ t₁, y t = some (a, t₁) ∧ t₁.AgreesOff T t') :
    Refines T x z := by
  intro s t hst a t' hz
  obtain ⟨t₁, hy, htt'⟩ := h t a t' hz
  obtain ⟨s', hx, hst'⟩ := hxy s t hst a t₁ hy
  exact ⟨s', hx, hst'.trans htt'⟩

/-! ## Steps -/

theorem ofOption (a : Option α) : Refines T (Eval.ofOption a) (Eval.ofOption a) := by
  intro s t hst b t' h
  cases a with
  | none => cases h
  | some a =>
    cases h
    exact ⟨s, rfl, hst⟩

/-- Computations on the heap see and leave the same heap, since the temporaries are not part of
it. -/
theorem onHeap (f : Heap → Option (α × Heap)) : Refines T (Eval.onHeap f) (Eval.onHeap f) := by
  intro s t hst b t' h
  obtain ⟨⟨a, heap⟩, hf, heq⟩ := Option.map_eq_some_iff.mp h
  cases heq
  refine ⟨{ s with heap }, ?_, rfl, hst.store⟩
  simp only [Eval.onHeap, hst.heap, hf, Option.map_some]

/-- Variables outside of `T` have the same value on both sides. Temporaries are read on one side
only, so that this is all that is needed about reading variables. -/
theorem read_slot {id : VariableId} (hid : ¬ T id) :
    Refines T (Eval.read (.slot id)) (Eval.read (.slot id)) := by
  intro s t hst b t' h
  obtain ⟨a, ht, heq⟩ := Option.map_eq_some_iff.mp h
  cases heq
  exact ⟨s, by simp [Eval.read, hst.store id hid, ht], hst⟩

theorem read_field (location : Location) :
    Refines T (Eval.read (.field location)) (Eval.read (.field location)) := by
  intro s t hst b t' h
  cases h
  exact ⟨s, by simp [Eval.read, hst.heap], hst⟩

/-- Setting one variable keeps the states in agreement, whether it belongs to `T` or not. -/
theorem setSlot (id : VariableId) (value : Option Value) :
    Refines T (Eval.setSlot id value) (Eval.setSlot id value) := by
  intro s t hst b t' h
  cases h
  -- At `id` both states now have the new value, elsewhere they agree as before.
  refine ⟨_, rfl, hst.heap, fun id' hid' => ?_⟩
  simp only [hst.store id' hid']

/-- Writing a field keeps the states in agreement: the heaps were equal before, and the change is
the same. -/
theorem write_field (location : Location) (value : Value) :
    Refines T (Eval.write (.field location) value) (Eval.write (.field location) value) := by
  intro s t hst b t' h
  cases h
  exact ⟨_, rfl, by simp only [hst.heap], hst.store⟩

end Refines

end Eval

end Lowering
