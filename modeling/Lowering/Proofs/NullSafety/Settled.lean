import Lowering.Proofs.NullSafety.Effects
import Lowering.Proofs.Tree.Sameness

/-!
# The normal form of the pass

An update of a wrapper is preceded by a check of its target. When the traversal
comes to such an update again, it puts a second check before it, and the sequence
around both loses this check as a repetition of the first one. A tree is settled
if the traversal finds every check that it needs in this way: checks stand only
in sequences, directly before their updates, and sequences are flat and free of
repetitions.

Main statements:

- `Conversion.dropRepeated_flatten_guarded`: a settled sequence gets nothing new.
- `NullSafety.neat_of_step`: the pass makes settled trees, from units in which
  only variables and fields are updated and no literal is not-a-number.
-/

namespace Lowering

open Conversion

/-! ## Updates and their checks -/

namespace Expr

/-- The check that the traversal puts before an update whose target has a wrapper
type and may be null. -/
def pendingCheck (e : Expr) : Option Expr :=
  e.updated?.bind fun target =>
    if target.type.unboxed?.isSome && !target.isKnownNonNull then some (.notNull target) else none

/-- The update under its check. -/
def guarded (e : Expr) : Expr :=
  match e.pendingCheck with
  | some check => .multi [check, e]
  | none => e

/-- Nothing is put before an expression without pending check. -/
theorem guarded_eq {e : Expr} (h : e.pendingCheck = none) : e.guarded = e := by
  unfold guarded
  rw [h]

theorem pendingCheck_eq_none {e : Expr} (h : e.updated? = none) : e.pendingCheck = none := by
  unfold pendingCheck
  rw [h]
  rfl

/-- A pending check is about the target of an update, which is unboxed and may be null. -/
theorem updated?_of_pendingCheck {e check : Expr} (h : e.pendingCheck = some check) :
    ∃ target, e.updated? = some target ∧ check = .notNull target ∧
      target.type.unboxed?.isSome = true ∧ target.isKnownNonNull = false := by
  unfold pendingCheck at h
  cases hupdated : e.updated? with
  | none =>
    rw [hupdated] at h
    cases h
  | some target =>
    rw [hupdated, Option.bind_some] at h
    split at h
    · cases h
      exact ⟨target, rfl, rfl, by simp_all⟩
    · cases h

end Expr

namespace Conversion

open Lowering.Expr

namespace IsUpdate

variable {update : Expr → Expr} {others : List Expr}

/-- An update is no sequence, so splicing leaves it as one member. -/
theorem ne_multi (h : IsUpdate update others) (t : Expr) :
    ∀ es, update t ≠ .multi es := by
  intro es heq
  have hupdated := h.updated t
  rw [heq] at hupdated
  cases hupdated

theorem number (h : IsUpdate update others) (t : Expr) :
    (update t).isNaNLiteral = false := by
  have hupdated := h.updated t
  generalize update t = e at hupdated
  cases e with
  | numberLiteral => cases hupdated
  | _ => rfl

/-- An update is no check, so it repeats none. -/
theorem not_repeated (h : IsUpdate update others) (b t : Expr) :
    isRepeatedCheck b (update t) = false := by
  by_contra hne
  obtain ⟨_, _, _, heq, _⟩ := sameRead_of_isRepeatedCheck (Bool.not_eq_false _ ▸ hne)
  have hupdated := h.updated t
  rw [heq] at hupdated
  cases hupdated

/-- Targets that are not unboxed or known to be non-null need no check. -/
theorem pendingCheck_eq_none (h : IsUpdate update others) {t : Expr}
    (hnone : t.type.unboxed? = none ∨ t.isKnownNonNull = true) :
    (update t).pendingCheck = none := by
  unfold Expr.pendingCheck
  rw [h.updated, Option.bind_some]
  rcases hnone with hnone | hknown
  · simp [hnone]
  · simp [hknown]

end IsUpdate

/-- A flat sequence, to stand after `before`, in which every update that needs a
check directly follows it. -/
inductive Prepared : Option Expr → List Expr → Prop where
  | nil {before : Option Expr} : Prepared before []
  | cons {before : Option Expr} {e : Expr} {es : List Expr} : (∀ inner, e ≠ .multi inner) →
      (∀ check ∈ e.pendingCheck, ∃ b ∈ before, isRepeatedCheck b check = true) →
      Prepared (some e) es → Prepared before (e :: es)

namespace Prepared

/-- A declaration needs no check before it. -/
theorem declareOne {before : Option Expr} {es : List Expr} (v : Variable) (i : Option Expr)
    (h : Prepared (some (.declareOne v i)) es) : Prepared before (.declareOne v i :: es) := by
  refine .cons (fun inner heq => ?_) (fun check hc => ?_) h
  · cases heq
  · cases hc

/-- What needs no member before it may stand after any. -/
theorem weaken {es : List Expr} (h : Prepared none es) (before : Option Expr) :
    Prepared before es := by
  cases h with
  | nil => exact .nil
  | cons hflat hcheck hrest =>
    refine .cons hflat (fun check hc => ?_) hrest
    obtain ⟨_, hb, _⟩ := hcheck check hc
    cases hb

/-- Contributions that need nothing before them may follow each other. -/
theorem append {before : Option Expr} {es es' : List Expr} (h : Prepared before es)
    (h' : Prepared none es') : Prepared before (es ++ es') := by
  induction h with
  | nil => exact h'.weaken _
  | cons hflat hcheck _ ih => exact .cons hflat hcheck ih

/-- Splicing contributions of this kind gives a sequence of this kind. -/
theorem flatten {es : List Expr} (h : ∀ e ∈ es, Prepared none e.members) :
    Prepared none (flatten es) := by
  rw [flatten_eq_flatMap]
  induction es with
  | nil => exact .nil
  | cons e es ih =>
    exact (h e List.mem_cons_self).append (ih fun x hx => h x (List.mem_cons_of_mem _ hx))

/-- The member that was kept last takes the place of the one before. -/
theorem dropRepeatedAfter {b kept : Expr} {es : List Expr} (h : Prepared (some b) es)
    (hkept : kept = b ∨ isRepeatedCheck kept b = true) :
    Prepared (some kept) (dropRepeatedAfter kept es) := by
  induction es generalizing b kept with
  | nil => exact .nil
  | cons e es ih =>
    cases h with
    | cons hflat hcheck hrest =>
      rw [Conversion.dropRepeatedAfter]
      split
      -- The member is left out, and what it repeats stays the one to compare with.
      · exact ih hrest (.inr ‹_›)
      · refine .cons hflat (fun check hc => ⟨kept, rfl, ?_⟩) (ih hrest (.inl rfl))
        obtain ⟨_, hb, hrepeated⟩ := hcheck check hc
        cases hb
        -- Checks are repeated transitively, so the kept one serves as well.
        rcases hkept with rfl | hkept
        · exact hrepeated
        · exact isRepeatedCheck_trans hkept hrepeated

theorem dropRepeated {es : List Expr} (h : Prepared none es) :
    Prepared none (dropRepeated es) := by
  cases h with
  | nil => exact .nil
  | cons hflat hcheck hrest => exact .cons hflat hcheck (hrest.dropRepeatedAfter (.inl rfl))

end Prepared

/-! ## Sequences that the traversal meets again -/

theorem members_of_ne_multi {e : Expr} (h : ∀ inner, e ≠ .multi inner) : e.members = [e] := by
  cases e with
  | multi inner => exact absurd rfl (h inner)
  | _ => rfl

/-- Putting all checks before their updates again and leaving out the repeated ones gives what
leaving them out gives without. The induction carries along which member was kept last, and that it
is or repeats the one before. -/
theorem dropRepeatedAfter_flatten_guarded {b kept : Expr} {es : List Expr}
    (h : Prepared (some b) es) (hkept : kept = b ∨ isRepeatedCheck kept b = true) :
    dropRepeatedAfter kept (flatten (es.map guarded)) = dropRepeatedAfter kept es := by
  induction es generalizing b kept with
  | nil => rfl
  | cons e es ih =>
    cases h with
    | cons hflat hcheck hrest =>
      have hnext : ∀ kept', kept' = e ∨ isRepeatedCheck kept' e = true →
          dropRepeatedAfter kept' (flatten (es.map guarded)) = dropRepeatedAfter kept' es :=
        fun _ => ih hrest
      -- Without regard to a check of its own, the first member is treated alike on both sides.
      have hrest : dropRepeatedAfter kept (e :: flatten (es.map guarded)) =
          dropRepeatedAfter kept (e :: es) := by
        rw [dropRepeatedAfter, dropRepeatedAfter]
        split
        · exact hnext kept (.inr ‹_›)
        · rw [hnext e (.inl rfl)]
      rw [List.map_cons, flatten_eq_flatMap, List.flatMap_cons, ← flatten_eq_flatMap]
      cases hpending : e.pendingCheck with
      | none =>
        rw [guarded_eq hpending, members_of_ne_multi hflat]
        exact hrest
      | some check =>
        -- The new check repeats the one that stands there already.
        obtain ⟨_, hb, hrepeated⟩ := hcheck check hpending
        cases hb
        have hdropped : isRepeatedCheck kept check = true := by
          rcases hkept with rfl | hkept
          · exact hrepeated
          · exact isRepeatedCheck_trans hkept hrepeated
        have hmembers : e.guarded.members = [check, e] := by
          unfold guarded
          rw [hpending]
          rfl
        rw [hmembers, List.cons_append, dropRepeatedAfter, if_pos hdropped]
        exact hrest

/-- A settled sequence gets nothing new: the checks of its updates are there. -/
theorem dropRepeated_flatten_guarded {es : List Expr} (h : Prepared none es)
    (hrepeated : dropRepeated es = es) : dropRepeated (flatten (es.map guarded)) = es := by
  cases h with
  | nil => rfl
  | @cons _ e es hflat hcheck hrest =>
    -- Nothing stands before the first member, so it cannot be in need of a check.
    have hpending : e.pendingCheck = none := by
      by_contra hne
      obtain ⟨check, hc⟩ := Option.ne_none_iff_exists'.mp hne
      obtain ⟨_, hb, _⟩ := hcheck check hc
      cases hb
    rw [List.map_cons, guarded_eq hpending, flatten_eq_flatMap, List.flatMap_cons,
      ← flatten_eq_flatMap, members_of_ne_multi hflat, List.singleton_append, dropRepeated,
      dropRepeatedAfter_flatten_guarded hrest (.inl rfl)]
    exact hrepeated

end Conversion

/-! ## Settled trees -/

/-- The traversal finds every check at this node that it needs. -/
structure Expr.Tidy (e : Expr) : Prop where
  parts : (∀ es, e ≠ .multi es) → ∀ c ∈ e.children, c.pendingCheck = none
  sequence : ∀ es, e = .multi es → Prepared none es ∧ dropRepeated es = es
  target : ∀ t ∈ e.updated?, t.written.isSome = true ∧
    (t.type.unboxed?.isSome = true → hasRepeatableReceiver t = true)

namespace NullSafety

/-- A settled tree that needs no check in front, without not-a-number literals. -/
structure Neat (e : Expr) : Prop where
  tidy : e.Everywhere Expr.Tidy
  pending : e.pendingCheck = none
  number : e.Everywhere fun x => x.isNaNLiteral = false

namespace Neat

/-- Parts of a neat expression are neat. Members of sequences are left out, as their check may stand
beside them. -/
theorem child {e c : Expr} (h : Neat e) (hflat : ∀ es, e ≠ .multi es) (hc : c ∈ e.children) :
    Neat c :=
  ⟨h.tidy.child hc, h.tidy.here.parts hflat c hc, h.number.child hc⟩

/-- Nodes other than sequences and updates. -/
theorem node {e : Expr} (hflat : ∀ es, e ≠ .multi es) (hupdated : e.updated? = none)
    (hnumber : e.isNaNLiteral = false) (h : ∀ c ∈ e.children, Neat c) : Neat e where
  tidy := by
    refine Expr.everywhere_iff.mpr
      ⟨⟨fun _ c hc => (h c hc).pending, ?_, ?_⟩, fun c hc => (h c hc).tidy⟩
    · exact fun es hes => absurd hes (hflat es)
    · simp [hupdated]
  pending := Expr.pendingCheck_eq_none hupdated
  number := Expr.everywhere_iff.mpr ⟨hnumber, fun c hc => (h c hc).number⟩

/-- Leaves are neat unless they are not a number. -/
theorem leaf {e : Expr} (hleaf : e.isLeaf = true) (hnumber : e.isNaNLiteral = false) : Neat e := by
  have hchildren : ∀ c ∈ e.children, Neat c := by
    rw [Expr.children_of_isLeaf hleaf]
    nofun
  cases e with
  | nullLiteral | boolLiteral | numberLiteral | stringLiteral | thisRef | varRef =>
    exact .node nofun rfl hnumber hchildren
  | _ => cases hleaf

theorem asserted {e : Expr} (h : Neat e) : Neat (.notNull e) :=
  .node nofun rfl rfl (by simpa [Expr.children] using h)

theorem wrapped {e e' : Expr} (h : Neat e) (hwrapped : Wrapped e e') : Neat e' := by
  cases hwrapped with
  | same => exact h
  | asserted => exact h.asserted

theorem declareOne {e : Expr} (h : Neat e) (v : Variable) : Neat (.declareOne v (some e)) :=
  .node nofun rfl rfl (by simpa [Expr.children, Expr.declareOne] using h)

/-- What an expression contributes to a sequence. -/
theorem members {e : Expr} (h : Neat e) : Prepared none e.members := by
  cases e with
  | multi es => exact (h.tidy.here.sequence es rfl).1
  | _ =>
    refine .cons nofun (fun check hc => ?_) .nil
    rw [h.pending] at hc
    cases hc

/-- A sequence is neat if it is prepared and free of repetitions. Its members need not be neat,
since their checks are in the sequence. -/
theorem sequence {es : List Expr} (hes : Prepared none es) (hrepeated : dropRepeated es = es)
    (htidy : ∀ e ∈ es, e.Everywhere Expr.Tidy)
    (hnumber : ∀ e ∈ es, e.Everywhere fun x => x.isNaNLiteral = false) : Neat (.multi es) where
  tidy := by
    refine Expr.everywhere_iff.mpr ⟨⟨fun hflat => absurd rfl (hflat es), ?_, nofun⟩, htidy⟩
    intro es' heq
    cases heq
    exact ⟨hes, hrepeated⟩
  pending := rfl
  number := Expr.everywhere_iff.mpr ⟨rfl, hnumber⟩

/-- Splicing neat expressions into a sequence gives a neat one. -/
theorem multi {es : List Expr} (h : ∀ e ∈ es, Neat e) :
    Neat (.multi (dropRepeated (flatten es))) := by
  have hprepared : Prepared none (flatten es) := .flatten fun e he => (h e he).members
  refine .sequence hprepared.dropRepeated (dropRepeated_dropRepeated _) ?_ ?_
  · exact fun e he => everywhere_flatten (fun x hx => (h x hx).tidy) e (mem_of_mem_dropRepeated he)
  · exact fun e he =>
      everywhere_flatten (fun x hx => (h x hx).number) e (mem_of_mem_dropRepeated he)

end Neat

/-! ## Updates under their checks -/

section

variable {update : Expr → Expr} {others : List Expr} {T : VariableId → Prop}

/-- The parts of an update whose target is a variable or field that can be read
twice. -/
theorem tidy_of_update (h : IsUpdate update others) {t : Expr} (ht : Neat t)
    (hothers : ∀ e ∈ others, Neat e) (hplace : t.written.isSome = true)
    (hrepeatable : t.type.unboxed?.isSome = true → hasRepeatableReceiver t = true) :
    (update t).Everywhere Expr.Tidy ∧
      (update t).Everywhere fun x => x.isNaNLiteral = false := by
  -- No part of an update is a sequence that could hold its check, so none may need one.
  have hparts : ∀ c ∈ (update t).children, Neat c := by
    rw [h.children]
    exact List.forall_mem_cons.mpr ⟨ht, hothers⟩
  refine ⟨Expr.everywhere_iff.mpr ⟨⟨fun _ c hc => (hparts c hc).pending, ?_, ?_⟩, fun c hc =>
    (hparts c hc).tidy⟩, Expr.everywhere_iff.mpr ⟨h.number t, fun c hc => (hparts c hc).number⟩⟩
  · exact fun es heq => absurd heq (h.ne_multi t es)
  · intro t' ht'
    rw [h.updated] at ht'
    cases ht'
    exact ⟨hplace, hrepeatable⟩

/-- A place that can be read twice is a read. -/
theorem isIdempotent_of_place {t : Expr} (hplace : t.written.isSome = true)
    (hrepeatable : hasRepeatableReceiver t = true) : t.isIdempotent = true := by
  cases t with
  | varRef v => rfl
  | fieldAccess q f =>
    cases q with
    | none => rfl
    | some q => exact hrepeatable
  | _ => cases hplace

/-- Asserting changes a value exactly if it may be null. -/
theorem asserted_beq {t : Expr} (ht : Neat t) : (t.asserted == t) = t.isKnownNonNull := by
  unfold Expr.asserted
  cases hknown : t.isKnownNonNull with
  -- This is where not-a-number literals would spoil the comparison.
  | true => exact t.sameAs_self ht.number
  | false => exact t.not_sameAs_operand

/-- A check and its update, perhaps after other members. -/
theorem prepared_checked (h : IsUpdate update others) {t : Expr} (ht : Neat t)
    (hidem : t.isIdempotent = true) (before : Option Expr) :
    Prepared before [.notNull t, update t] := by
  -- The traversal will make just this check again, and find that it repeats itself.
  have hself : isRepeatedCheck (.notNull t) (.notNull t) = true :=
    isRepeatedCheck_of_sameRead (Expr.sameRead_of_sameAs hidem (t.sameAs_self ht.number))
  refine .cons nofun nofun (.cons (h.ne_multi t) (fun check hc => ⟨_, rfl, ?_⟩) .nil)
  obtain ⟨t', ht', rfl, _, _⟩ := Expr.updated?_of_pendingCheck hc
  rw [h.updated] at ht'
  cases ht'
  exact hself

/-- The declaration of a temporary for a receiver, and the field of the temporary. -/
theorem neat_bound {q : Expr} {f : FieldRef} (h : Neat (.fieldAccess (some q) f)) (v : Variable) :
    Neat (.declareOne v (some q)) ∧ Neat (.fieldAccess (some (.varRef v)) f) := by
  have hq : Neat q := h.child nofun (by simp [Expr.children])
  have hvar : Neat (.varRef v) := .leaf rfl rfl
  exact ⟨hq.declareOne v, .node nofun rfl rfl (by simpa [Expr.children] using hvar)⟩

/-- What an update becomes is neat: it stands alone because it needs no check, or in a sequence with
its check before it. -/
theorem neat_of_guarded (h : IsUpdate update others) {t e : Expr}
    (hguarded : Guarded assertions T update t e) (ht : Neat t) (hothers : ∀ e ∈ others, Neat e)
    (hplace : t.written.isSome = true) : Neat e := by
  -- Two rules leave the update alone, one of them with another target.
  have halone : ∀ {t : Expr}, Neat t → t.written.isSome = true →
      (t.type.unboxed?.isSome = true → hasRepeatableReceiver t = true) →
      (t.type.unboxed? = none ∨ t.isKnownNonNull = true) → Neat (update t) := by
    intro t ht hplace hrepeatable hnone
    obtain ⟨htidy, hnumber⟩ := tidy_of_update h ht hothers hplace hrepeatable
    exact ⟨htidy, h.pendingCheck_eq_none hnone, hnumber⟩
  cases hguarded with
  | unboxed hnone => exact halone ht hplace (by simp [hnone]) (.inl hnone)
  | unchanged hrepeatable hcheck hsame =>
    cases hcheck
    rw [asserted_beq ht] at hsame
    exact halone ht hplace (fun _ => hrepeatable) (.inr hsame)
  | checked hrepeatable hcheck hsame =>
    cases hcheck
    rw [asserted_beq ht] at hsame
    have hasserted : t.asserted = .notNull t := if_neg (by simp [hsame])
    rw [hasserted]
    obtain ⟨htidy, hnumber⟩ := tidy_of_update h ht hothers hplace fun _ => hrepeatable
    have hidem : t.isIdempotent = true := isIdempotent_of_place hplace hrepeatable
    refine .sequence (prepared_checked h ht hidem none) ?_ ?_ ?_
    · simp [dropRepeated, dropRepeatedAfter, h.not_repeated]
    · simpa using ⟨ht.asserted.tidy, htidy⟩
    · simpa using ⟨ht.asserted.number, hnumber⟩
  -- The bound target is a field of a variable, and so a place that can be read twice.
  | @bound q check f v _ _ _ _ hcheck hsame =>
    obtain ⟨hdeclare, ht'⟩ := neat_bound ht v
    cases hcheck
    rw [asserted_beq ht'] at hsame
    have hupdate := halone ht' rfl (fun _ => rfl) (.inr hsame)
    refine .sequence (.declareOne v _ (.cons (h.ne_multi _) ?_ .nil)) ?_ ?_ ?_
    · simp [hupdate.pending]
    · simp [dropRepeated, dropRepeatedAfter, h.not_repeated]
    · simpa using ⟨hdeclare.tidy, hupdate.tidy⟩
    · simpa using ⟨hdeclare.number, hupdate.number⟩
  | @boundChecked q check f v _ _ _ _ hcheck hsame =>
    obtain ⟨hdeclare, ht'⟩ := neat_bound ht v
    cases hcheck
    rw [asserted_beq ht'] at hsame
    have hasserted : (Expr.fieldAccess (some (.varRef v)) f).asserted =
        .notNull (.fieldAccess (some (.varRef v)) f) := if_neg (by simp [hsame])
    rw [hasserted]
    obtain ⟨htidy, hnumber⟩ := tidy_of_update h ht' hothers rfl fun _ => rfl
    refine .sequence (.declareOne v _ (prepared_checked h ht' rfl _)) ?_ ?_ ?_
    · have hfirst : ∀ x, isRepeatedCheck (.declareOne v (some q)) x = false := fun _ => rfl
      simp [dropRepeated, dropRepeatedAfter, h.not_repeated, hfirst]
    · simpa using ⟨hdeclare.tidy, ht'.asserted.tidy, htidy⟩
    · simpa using ⟨hdeclare.number, ht'.asserted.number, hnumber⟩

/-! ## All kinds of expressions -/

/-- What the proof needs of every node of the input. -/
structure Updatable (e : Expr) : Prop where
  place : e.updatesPlace = true
  number : e.isNaNLiteral = false

/-- The result is neat, and a variable or field stays one. -/
structure NeatTarget (e e' : Expr) : Prop where
  neat : Neat e'
  place : e.written.isSome = true → e'.written.isSome = true

/-- The result of every expression is neat. Along with it goes that places stay places, because
updates ask it of their targets. -/
theorem neat_congruence (T : VariableId → Prop) :
    WrapCongruence T Updatable NeatTarget fun _ e' => Neat e' := by
  have hlist : ∀ {es es' : List Expr}, List.Forall₂ (fun _ e' => Neat e') es es' →
      ∀ e ∈ es', Neat e := by
    intro es es' hes e he
    obtain ⟨_, _, he'⟩ := exists_of_mem_forall₂ hes he
    exact he'
  constructor
  case wrap => exact fun he hwrapped => he.neat.wrapped hwrapped
  case leaf => exact fun hleaf he => ⟨.leaf hleaf he.number, id⟩
  case fieldAccess =>
    exact fun _ hq => ⟨.node nofun rfl rfl (hlist (forall₂_toList hq)), fun _ => rfl⟩
  case call =>
    intro q q' target as as' _ hq has
    exact ⟨.node nofun rfl rfl (hlist (List.rel_append (forall₂_toList hq) has)), nofun⟩
  case newInstance => exact fun _ has => ⟨.node nofun rfl rfl (hlist has), nofun⟩
  case binary =>
    intro op l l' r r' type _ hop hl hr
    refine ⟨.node nofun ?_ rfl (by simpa [Expr.children] using ⟨hl, hr⟩), nofun⟩
    cases op with
    | plusAssign | minusAssign => cases hop
    | _ => rfl
  case assign =>
    intro l l' r r' type _ hl hr
    exact ⟨.node nofun rfl rfl (by simpa [Expr.children] using ⟨hl.neat, hr⟩), nofun⟩
  case compound =>
    intro op l l₁ r r' e type he hop _ hl hr hguarded
    -- The input updates places only.
    have hplace : l.written.isSome = true := by
      rcases hop with rfl | rfl <;> exact he.place
    refine ⟨neat_of_guarded (isUpdate_compound hop r' type) hguarded hl.neat ?_ (hl.place hplace),
      nofun⟩
    simpa using hr
  case unary =>
    intro op fixity x x' type _ hop hx
    refine ⟨.node nofun ?_ rfl (by simpa [Expr.children] using hx), nofun⟩
    cases op with
    | increment | decrement => cases hop
    | _ => rfl
  case step =>
    intro op fixity x x₁ e type he hop _ hx hguarded
    have hplace : x.written.isSome = true := by
      cases op with
      | increment | decrement => exact he.place
      | _ => cases hop
    exact ⟨neat_of_guarded (isUpdate_step hop fixity type) hguarded hx.neat nofun (hx.place hplace),
      nofun⟩
  case cast => exact fun _ hx => ⟨.node nofun rfl rfl (by simpa [Expr.children] using hx), nofun⟩
  case conditional =>
    intro type c c' a a' b b' _ hc ha hb
    exact ⟨.node nofun rfl rfl (by simpa [Expr.children] using ⟨hc, ha, hb⟩), nofun⟩
  case notNull => exact fun _ hx => ⟨hx.neat.asserted, nofun⟩
  case multi => exact fun _ _ hes => ⟨.multi (hlist (hes.imp fun _ _ h => h.neat)), nofun⟩
  case declare =>
    intro fs fs' _ hfs
    refine ⟨.node nofun rfl rfl fun c hc => ?_, nofun⟩
    obtain ⟨f', hf', hc⟩ := List.mem_filterMap.mp hc
    obtain ⟨f, _, hff'⟩ := exists_of_mem_forall₂ hfs hf'
    cases hff' with
    | mk hi => exact hlist (forall₂_toList hi) c (Option.mem_toList.mpr hc)

/-! ## Assert messages -/

/-- Giving a neat message its default makes a neat one. -/
theorem neat_of_defaulted {type : Ty} {e e' : Expr} (h : Defaulted type T e e') (he : Neat e) :
    Neat e' := by
  -- The choice has the message twice, in the condition and in a branch.
  have hchoice : ∀ {x : Expr}, Neat x → Neat (nullChoice type x messageDefault) := by
    intro x hx
    have hequals : Neat x.equalsNull := by
      refine .node (fun inner heq => ?_) rfl rfl ?_
      · cases heq
      · simpa [Expr.children, Expr.equalsNull, Expr.operation] using ⟨hx, .leaf rfl rfl⟩
    refine .node (fun inner heq => ?_) rfl rfl ?_
    · cases heq
    · simpa [Expr.children, nullChoice] using ⟨hequals, .leaf rfl rfl, hx⟩
  cases h with
  | known _ => exact he
  | null _ => exact .leaf rfl rfl
  | choice _ _ =>
    have hneat := hchoice he
    exact .sequence hneat.members rfl (by simpa using hneat.tidy) (by simpa using hneat.number)
  | @bound v _ _ _ _ =>
    have hdeclare := he.declareOne v
    have hneat := hchoice (x := .varRef v) (.leaf rfl rfl)
    refine .sequence (.declareOne v _ (hneat.members.weaken _)) rfl ?_ ?_
    · simpa using ⟨hdeclare.tidy, hneat.tidy⟩
    · simpa using ⟨hdeclare.number, hneat.number⟩

/-- Every expression of the result is neat. -/
theorem neat_of_step {type : Ty} {e e' : Expr} (h : (steps type T).Any e e')
    (he : e.Everywhere Updatable) : Neat e' :=
  (neat_congruence T).of_step (fun he₁ hdefault => neat_of_defaulted hdefault he₁.neat) h he

end

end NullSafety

end Lowering
