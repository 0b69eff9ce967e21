import Lowering.Proofs.Conversion.Sequence
import Lowering.Proofs.Evaluation.Refinement

/-!
# Reads and sequences

An idempotent expression leaves the state as it is, and equal reads have equal
values. Hence a check that repeats the check before it does nothing, and a
sequence means the same after it has been flattened and freed of such checks.

Main statements: `Expr.stable_eval`, `Expr.eval_eq_of_sameRead` and
`Expr.evalAfter_dropRepeated`.
-/

namespace Lowering

/-! ## Computations that leave the state alone -/

/-- The computation leaves the state as it is. -/
def Eval.Stable {α : Type} (x : Eval α) : Prop :=
  ∀ s a s', x s = some (a, s') → s' = s

namespace Eval.Stable

variable {α β : Type}

theorem pure (a : α) : Stable (Pure.pure a : Eval α) := by
  intro s b s' h
  cases h
  rfl

/-- A sequence leaves the state alone if each part does. -/
theorem bind {x : Eval α} {f : α → Eval β} (hx : Stable x) (hf : ∀ a, Stable (f a)) :
    Stable (x >>= f) := by
  intro s b s' h
  obtain ⟨a, s₁, hxa, hfa⟩ := bind_eq_some.mp h
  exact (hf a s₁ b s' hfa).trans (hx s a s₁ hxa)

theorem ofOption (a : Option α) : Stable (Eval.ofOption a) := by
  intro s b s' h
  obtain ⟨_, _, heq⟩ := Option.map_eq_some_iff.mp h
  cases heq
  rfl

theorem read (place : Place) : Stable (Eval.read place) := by
  intro s b s' h
  cases place with
  | slot id =>
    obtain ⟨_, _, heq⟩ := Option.map_eq_some_iff.mp h
    cases heq
    rfl
  | field location =>
    cases h
    rfl

end Eval.Stable

namespace Expr

open Eval Conversion

variable {w : World}

/-! ## Reads -/

/-- An idempotent expression has no effect. -/
theorem stable_eval {e : Expr} (h : e.isIdempotent = true) : Stable (e.eval w) := by
  -- The induction is on the shape of idempotent expressions, which are calls and updates nowhere.
  have hread := read_of_isIdempotent h
  clear h
  induction hread with
  | @leaf e hleaf =>
    cases e with
    | nullLiteral | boolLiteral | numberLiteral | stringLiteral | thisRef => exact .pure _
    | varRef v => exact .read _
    | _ => cases hleaf
  | ownField => exact (Stable.pure _).bind fun _ => (Stable.ofOption _).bind fun _ => .read _
  | fieldAccess _ hq =>
    have hqualifier := hq.bind fun v => Stable.pure (some v)
    exact hqualifier.bind fun _ => (Stable.ofOption _).bind fun _ => .read _
  | @binary op _ _ _ hop _ _ hl hr =>
    cases op with
    -- Assignments are not idempotent.
    | assign | plusAssign | minusAssign => cases hop
    | conditionalAnd | conditionalOr =>
      -- Either the right side is evaluated, or nothing more happens.
      refine hl.bind fun _ => (Stable.ofOption _).bind fun b => ?_
      cases b <;> first | exact hr | exact .pure _
    | _ => exact hl.bind fun _ => hr.bind fun _ => .ofOption _
  | @unary op _ _ _ hop _ hx =>
    cases op with
    | increment | decrement => cases hop
    | _ => exact hx.bind fun _ => .ofOption _
  | cast _ hx | notNull _ hx => exact hx.bind fun _ => .ofOption _
  | conditional _ _ _ hc ha hb =>
    refine hc.bind fun _ => (Stable.ofOption _).bind fun chosen => ?_
    cases chosen
    · exact hb
    · exact ha

/-- Literals other than doubles. -/
def isIntegral : Expr → Bool
  | numberLiteral (.double _) _ => false
  | _ => true

/-- Equal reads have equal values. Doubles are left out, because the two zeros are
equal literals and different values. -/
theorem eval_eq_of_sameRead {x y : Expr} (h : x.SameRead y)
    (hx : x.Everywhere fun e => e.isIntegral = true) : x.eval w = y.eval w := by
  induction h with
  | nullLiteral | boolLiteral | stringLiteral | thisRef | ownField => rfl
  | @numberLiteral n n' t hn =>
    have hn' : n = n' := by
      cases n with
      | integer m => cases n' <;> simp_all [NumberValue.sameAs]
      -- Doubles compare as equal up to the sign of zero.
      | double d => exact absurd hx.here (by simp [isIntegral])
    rw [hn']
  -- Variables are compared by identity, and the store is by identity as well.
  | varRef hid => simp only [eval, hid]
  | fieldAccess _ ih =>
    have hq := ih (hx.child (by simp [children]))
    simp only [eval, evalOption, hq]
  | binary hop _ _ ihl ihr =>
    have hl := ihl (hx.child (by simp [children]))
    have hr := ihr (hx.child (by simp [children]))
    simp only [eval, hl, hr]
    -- All operators but the assignments use nothing but the values of their sides.
    split <;> simp_all [BinaryOp.isAssignment]
  | unary hop _ ih =>
    have he := ih (hx.child (by simp [children]))
    simp only [eval, he]
    split <;> simp_all [UnaryOp.hasSideEffect]
  | cast _ ih | notNull _ ih =>
    have he := ih (hx.child (by simp [children]))
    simp only [eval, he]
  | conditional _ _ _ ihc iha ihb =>
    have hc := ihc (hx.child (by simp [children]))
    have ha := iha (hx.child (by simp [children]))
    have hb := ihb (hx.child (by simp [children]))
    simp only [eval, hc, ha, hb]

/-! ## Sequences -/

/-- A sequence can be evaluated in two parts, where the second starts with the value of the first in
case that it is empty. -/
theorem evalAfter_append (v : Value) (es es' : List Expr) :
    evalAfter w v (es ++ es') = evalAfter w v es >>= fun v' => evalAfter w v' es' := by
  induction es generalizing v with
  | nil => simp [evalAfter]
  | cons e es ih => simp [evalAfter, ih]

/-- The value before a sequence with members does not matter. -/
theorem evalAfter_of_ne_nil {es : List Expr} (h : es ≠ []) (v v' : Value) :
    evalAfter w v es = evalAfter w v' es := by
  cases es with
  | nil => exact absurd rfl h
  | cons e es => rfl

/-- Splicing nested sequences in does not change the value. An empty sequence at the end is the
exception: it has no value, and once it is gone the member before it has. -/
theorem evalAfter_flatten {es : List Expr} (h : es.getLast? ≠ some (multi [])) (v : Value) :
    evalAfter w v (flatten es) = evalAfter w v es := by
  induction es generalizing v with
  | nil => rfl
  | cons e es ih =>
    -- The last member of the rest is the last of the whole.
    have htail : es.getLast? ≠ some (multi []) := by
      cases es with
      | nil => simp
      | cons e' es => rwa [List.getLast?_cons_cons] at h
    cases e with
    | multi inner =>
      show evalAfter w v (inner ++ flatten es) = evalAfter w .void inner >>= fun v' =>
        evalAfter w v' es
      cases inner with
      | nil =>
        -- The empty sequence is not the last member, so its value is not used.
        have hes : es ≠ [] := by
          rintro rfl
          exact h rfl
        simp only [List.nil_append, evalAfter, pure_bind, ih htail]
        exact evalAfter_of_ne_nil hes v .void
      | cons e' inner => simp only [evalAfter_append, ih htail, evalAfter]
    | _ => simp only [flatten, evalAfter, ih htail]

/-- The member kept last has just been evaluated to `v`; if it is a check, it
would evaluate to the same again. -/
def Settled (w : World) (kept : Expr) (v : Value) (s : State) : Prop :=
  kept.isNotNull = true → kept.isIdempotent = true → kept.eval w s = some (v, s)

/-- What has just been evaluated is settled: if it has no effect, the state is still the one it was
evaluated in. -/
theorem settled_of_eval {e : Expr} {v : Value} {s s' : State} (h : e.eval w s = some (v, s')) :
    Settled w e v s' := by
  intro _ hidem
  obtain rfl := stable_eval hidem s v s' h
  exact h

/-- Checks that repeat the one kept last can be left out. The induction carries that evaluating the
kept check again would give the value at hand. -/
theorem evalAfter_dropRepeatedAfter {es : List Expr} {kept : Expr} {v : Value} {s : State}
    (hkept : Settled w kept v s) (hintegral : kept.Everywhere fun e => e.isIntegral = true)
    (hes : ∀ e ∈ es, e.Everywhere fun e => e.isIntegral = true) :
    evalAfter w v (dropRepeatedAfter kept es) s = evalAfter w v es s := by
  induction es generalizing kept v s with
  | nil => rfl
  | cons e es ih =>
    have htail := fun x hx => hes x (List.mem_cons_of_mem e hx)
    rw [dropRepeatedAfter]
    split
    -- A repeated check is dropped, and what was kept stays the same.
    · rename_i hrepeated
      have hsettled : kept.eval w s = some (v, s) := by
        simp only [isRepeatedCheck, Bool.and_eq_true] at hrepeated
        exact hkept hrepeated.1.1 hrepeated.1.2
      obtain ⟨a, b, rfl, rfl, hread⟩ := sameRead_of_isRepeatedCheck hrepeated
      have hsame : (notNull b).eval w s = some (v, s) := by
        rw [← hsettled, eval_eq_of_sameRead (.notNull hread) hintegral]
      -- The repeated check gives the value at hand and leaves the state as it is.
      rw [ih hkept hintegral htail, evalAfter, bind_apply, hsame]
      rfl
    · rw [evalAfter, evalAfter, bind_apply, bind_apply]
      cases he : e.eval w s with
      -- If the member fails, so does the sequence, on both sides.
      | none => rfl
      | some r =>
        obtain ⟨v', s'⟩ := r
        exact ih (settled_of_eval he) (hes e List.mem_cons_self) htail

/-- Leaving out repeated checks does not change what a sequence does. -/
theorem evalAfter_dropRepeated {es : List Expr}
    (hes : ∀ e ∈ es, e.Everywhere fun e => e.isIntegral = true) (v : Value) :
    evalAfter w v (dropRepeated es) = evalAfter w v es := by
  cases es with
  | nil => rfl
  | cons e es =>
    funext s
    show evalAfter w v (e :: dropRepeatedAfter e es) s = _
    rw [evalAfter, evalAfter, bind_apply, bind_apply]
    cases he : e.eval w s with
    | none => rfl
    | some r =>
      obtain ⟨v', s'⟩ := r
      exact evalAfter_dropRepeatedAfter (settled_of_eval he) (hes e List.mem_cons_self)
        fun x hx => hes x (List.mem_cons_of_mem e hx)

end Expr

end Lowering
