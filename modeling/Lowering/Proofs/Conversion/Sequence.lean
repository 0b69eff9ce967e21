import Lowering.Conversion.Traversal
import Lowering.Proofs.Tree.Subterms

/-!
# Reads and flattened sequences

A transformed sequence is flattened and then freed of repeated checks. Neither
step makes up members, and the last member stays up to a repeated check. What
counts as repeated is the check of an equal read, so the module first says what
reads are made of.

Main statements:

- `Expr.read_of_isIdempotent`, `Expr.sameRead_of_sameAs`: idempotent expressions and
  their equality, by kinds of nodes.
- `Conversion.mem_of_mem_dropRepeated`, `Conversion.mem_of_mem_flatten`: where the
  members of the result come from.
- `Conversion.getLast?_dropRepeated`: the last member of the result.
-/

namespace Lowering

namespace Expr

/-- What an expression contributes to a sequence around it. -/
def members : Expr → List Expr
  | multi inner => inner
  | e => [e]

/-- The recursion that finds the type of a sequence looks at its last member only. -/
theorem typeOfLast_eq (es : List Expr) :
    typeOfLast es = ((es.getLast?).map type).getD (.prim .void) := by
  induction es with
  | nil => rfl
  | cons e es ih =>
    cases es with
    | nil => rfl
    | cons e' es => rw [typeOfLast, ih, List.getLast?_cons_cons]

/-- A sequence has the type of its last member, and `void` if it has no members. -/
theorem type_multi (es : List Expr) :
    (multi es).type = ((es.getLast?).map type).getD (.prim .void) := by
  rw [type, typeOfLast_eq]

/-- The last contribution of an expression has its type. -/
theorem exists_getLast?_members {e : Expr} (h : e ≠ multi []) :
    ∃ x, e.members.getLast? = some x ∧ x.type = e.type := by
  cases e with
  | multi inner =>
    cases hlast : inner.getLast? with
    | none => exact absurd (congrArg multi (List.getLast?_eq_none_iff.mp hlast)) h
    | some x => exact ⟨x, hlast, by rw [type_multi, hlast]; rfl⟩
  | _ => exact ⟨_, rfl, rfl⟩

/-- A sequence whose last member is the empty sequence. -/
def endsInEmpty : Expr → Bool
  | multi expressions =>
    match expressions.getLast? with
    | some (multi []) => true
    | _ => false
  | _ => false

/-- The form in which proofs about last members use the property. -/
theorem endsInEmpty_eq_false {es : List Expr} (h : (multi es).endsInEmpty = false) :
    es.getLast? ≠ some (multi []) := by
  intro hlast
  simp [endsInEmpty, hlast] at h

/-- Without empty sequences no sequence ends in one. -/
theorem everywhere_endsInEmpty {e : Expr} (h : e.Everywhere (· ≠ multi [])) :
    e.Everywhere fun x => x.endsInEmpty = false := by
  intro x hx
  cases x with
  | multi es =>
    simp only [endsInEmpty]
    split
    · rename_i hlast
      -- The empty member at the end would be a part of the whole.
      exact absurd rfl ((h.part hx).child (List.mem_of_getLast? hlast)).here
    · rfl
  | _ => rfl

end Expr

/-! ## Reads -/

/-- Expressions without effects, by the kinds of nodes that they are made of. -/
inductive Expr.Read : Expr → Prop where
  | leaf {e : Expr} : e.isLeaf = true → Read e
  | ownField {f : FieldRef} : Read (.fieldAccess none f)
  | fieldAccess {q : Expr} {f : FieldRef} : Read q → Read (.fieldAccess (some q) f)
  | binary {op : BinaryOp} {l r : Expr} {t : Ty} : op.isAssignment = false → Read l → Read r →
      Read (.binary op l r t)
  | unary {op : UnaryOp} {fixity : Fixity} {e : Expr} {t : Ty} : op.hasSideEffect = false →
      Read e → Read (.unary op fixity e t)
  | cast {t : Ty} {e : Expr} : Read e → Read (.cast t e)
  | conditional {t : Ty} {c a b : Expr} : Read c → Read a → Read b → Read (.conditional t c a b)
  | notNull {e : Expr} : Read e → Read (.notNull e)

/-- Idempotent expressions are reads. Inductions over reads have fewer cases than those over
expressions, and none of them has an effect. -/
theorem Expr.read_of_isIdempotent {e : Expr} (h : e.isIdempotent = true) : e.Read := by
  induction e using Expr.childInduction with
  | step e ih =>
    cases e with
    | nullLiteral | boolLiteral | numberLiteral | stringLiteral | thisRef | varRef =>
      exact .leaf rfl
    | fieldAccess q f =>
      cases q with
      | none => exact .ownField
      | some q => exact .fieldAccess (ih q (by simp [children]) h)
    | binary op l r t =>
      simp only [isIdempotent, Bool.and_eq_true, Bool.not_eq_true'] at h
      exact .binary h.1.1 (ih l (by simp [children]) h.1.2) (ih r (by simp [children]) h.2)
    | unary op fixity x t =>
      simp only [isIdempotent, Bool.and_eq_true, Bool.not_eq_true'] at h
      exact .unary h.1 (ih x (by simp [children]) h.2)
    | cast t x => exact .cast (ih x (by simp [children]) h)
    | conditional t c a b =>
      simp only [isIdempotent, Bool.and_eq_true] at h
      exact .conditional (ih c (by simp [children]) h.1.1) (ih a (by simp [children]) h.1.2)
        (ih b (by simp [children]) h.2)
    | notNull x => exact .notNull (ih x (by simp [children]) h)
    -- These kinds count as effects whatever is in them.
    | call | newInstance | multi | declare => simp [isIdempotent] at h

/-! ## Equal reads -/

/-- Two reads without effects that agree node by node; variables agree by
identity, number literals by value. -/
inductive Expr.SameRead : Expr → Expr → Prop where
  | nullLiteral {t : Ty} : SameRead (.nullLiteral t) (.nullLiteral t)
  | boolLiteral {b : Bool} {t : Ty} : SameRead (.boolLiteral b t) (.boolLiteral b t)
  | numberLiteral {n n' : NumberValue} {t : Ty} : n'.sameAs n = true →
      SameRead (.numberLiteral n t) (.numberLiteral n' t)
  | stringLiteral {s : String} {t : Ty} : SameRead (.stringLiteral s t) (.stringLiteral s t)
  | thisRef {t : Ty} : SameRead (.thisRef t) (.thisRef t)
  | varRef {v w : Variable} : v.id = w.id → SameRead (.varRef v) (.varRef w)
  | ownField {f : FieldRef} : SameRead (.fieldAccess none f) (.fieldAccess none f)
  | fieldAccess {q q' : Expr} {f : FieldRef} : SameRead q q' →
      SameRead (.fieldAccess (some q) f) (.fieldAccess (some q') f)
  | binary {op : BinaryOp} {l l' r r' : Expr} {t : Ty} : op.isAssignment = false →
      SameRead l l' → SameRead r r' → SameRead (.binary op l r t) (.binary op l' r' t)
  | unary {op : UnaryOp} {x : Fixity} {e e' : Expr} {t : Ty} : op.hasSideEffect = false →
      SameRead e e' → SameRead (.unary op x e t) (.unary op x e' t)
  | cast {t : Ty} {e e' : Expr} : SameRead e e' → SameRead (.cast t e) (.cast t e')
  | conditional {t : Ty} {c c' a a' b b' : Expr} : SameRead c c' → SameRead a a' →
      SameRead b b' → SameRead (.conditional t c a b) (.conditional t c' a' b')
  | notNull {e e' : Expr} : SameRead e e' → SameRead (.notNull e) (.notNull e')

/-- Literals and references that compare as equal agree up to the name and type of variables and the
form of numbers. -/
theorem Expr.sameRead_leaf {x y : Expr} (hleaf : x.isLeaf = true) (h : y.sameAs x = true) :
    SameRead x y := by
  cases x with
  | nullLiteral t =>
    cases y with
    | nullLiteral t' =>
      obtain rfl : t' = t := by simpa [sameAs] using h
      exact .nullLiteral
    | _ => simp [sameAs] at h
  | boolLiteral b t =>
    cases y with
    | boolLiteral b' t' =>
      obtain ⟨rfl, rfl⟩ : b' = b ∧ t' = t := by simpa [sameAs] using h
      exact .boolLiteral
    | _ => simp [sameAs] at h
  | numberLiteral n t =>
    cases y with
    | numberLiteral n' t' =>
      obtain ⟨hn, rfl⟩ : n'.sameAs n = true ∧ t' = t := by simpa [sameAs] using h
      exact .numberLiteral hn
    | _ => simp [sameAs] at h
  | stringLiteral s t =>
    cases y with
    | stringLiteral s' t' =>
      obtain ⟨rfl, rfl⟩ : s' = s ∧ t' = t := by simpa [sameAs] using h
      exact .stringLiteral
    | _ => simp [sameAs] at h
  | thisRef t =>
    cases y with
    | thisRef t' =>
      obtain rfl : t' = t := by simpa [sameAs] using h
      exact .thisRef
    | _ => simp [sameAs] at h
  | varRef v =>
    cases y with
    | varRef w =>
      -- Variables are compared by identity alone, so nothing is known of their types.
      have hid : w.id = v.id := by simpa [sameAs, BEq.beq, Variable.sameAs] using h
      exact .varRef hid.symm
    | _ => simp [sameAs] at h
  | _ => cases hleaf

/-- Comparing a read with any expression tells that both are the same read. One side is enough to
know what the other side is made of. -/
theorem Expr.sameRead_of_sameAs {x y : Expr} (hidem : x.isIdempotent = true)
    (h : y.sameAs x = true) : SameRead x y := by
  -- Expressions of different kinds are never the same; within a kind the comparison
  -- goes through the parts.
  have hread := read_of_isIdempotent hidem
  clear hidem
  induction hread generalizing y with
  | @leaf x hleaf => exact sameRead_leaf hleaf h
  -- A field without receiver differs from one with a receiver, so both sides have to be taken
  -- apart.
  | @ownField f =>
    cases y with
    | fieldAccess q' f' =>
      cases q' with
      | none =>
        obtain rfl : f' = f := by simpa [sameAs, sameOption] using h
        exact .ownField
      | some q' => simp [sameAs, sameOption] at h
    | _ => simp [sameAs] at h
  | @fieldAccess q f _ ih =>
    cases y with
    | fieldAccess q' f' =>
      cases q' with
      | none => simp [sameAs, sameOption] at h
      | some q' =>
        obtain ⟨hq, rfl⟩ : q'.sameAs q = true ∧ f' = f := by simpa [sameAs, sameOption] using h
        exact .fieldAccess (ih hq)
    | _ => simp [sameAs] at h
  | @binary op l r t hop _ _ ihl ihr =>
    cases y with
    | binary op' l' r' t' =>
      obtain ⟨⟨⟨rfl, hl⟩, hr⟩, rfl⟩ : ((op' = op ∧ l'.sameAs l = true) ∧ r'.sameAs r = true) ∧
          t' = t := by simpa [sameAs] using h
      exact .binary hop (ihl hl) (ihr hr)
    | _ => simp [sameAs] at h
  | @unary op fixity e t hop _ ih =>
    cases y with
    | unary op' fixity' e' t' =>
      obtain ⟨⟨⟨rfl, rfl⟩, he⟩, rfl⟩ : ((op' = op ∧ fixity' = fixity) ∧ e'.sameAs e = true) ∧
          t' = t := by simpa [sameAs] using h
      exact .unary hop (ih he)
    | _ => simp [sameAs] at h
  | @cast t e _ ih =>
    cases y with
    | cast t' e' =>
      obtain ⟨rfl, he⟩ : t' = t ∧ e'.sameAs e = true := by simpa [sameAs] using h
      exact .cast (ih he)
    | _ => simp [sameAs] at h
  | @conditional t c a b _ _ _ ihc iha ihb =>
    cases y with
    | conditional t' c' a' b' =>
      obtain ⟨⟨⟨rfl, hc⟩, ha⟩, hb⟩ : ((t' = t ∧ c'.sameAs c = true) ∧ a'.sameAs a = true) ∧
          b'.sameAs b = true := by simpa [sameAs] using h
      exact .conditional (ihc hc) (iha ha) (ihb hb)
    | _ => simp [sameAs] at h
  | @notNull e _ ih =>
    cases y with
    | notNull e' => exact .notNull (ih (by simpa [sameAs] using h))
    | _ => simp [sameAs] at h

/-- Equal reads have no effects. -/
theorem Expr.SameRead.isIdempotent {x y : Expr} (h : x.SameRead y) :
    x.isIdempotent = true ∧ y.isIdempotent = true := by
  induction h with
  | binary hop _ _ ihl ihr => simp [Expr.isIdempotent, hop, ihl, ihr]
  | unary hop _ ih => simp [Expr.isIdempotent, hop, ih]
  | conditional _ _ _ ihc iha ihb => simp [Expr.isIdempotent, ihc, iha, ihb]
  | fieldAccess _ ih | cast _ ih | notNull _ ih => exact ih
  | _ => exact ⟨rfl, rfl⟩

/-- Equality of number literals is transitive, although it is not reflexive. -/
theorem NumberValue.sameAs_trans {k n o : NumberValue} (h : k.sameAs n = true)
    (h' : n.sameAs o = true) : k.sameAs o = true := by
  cases k <;> cases n <;> cases o <;> simp_all [sameAs, Double.numericEq]
  -- Two doubles have the same bits, or both are zero.
  rename_i d e f
  rcases h.2 with hde | hde <;> rcases h'.2 with hef | hef <;>
    simp_all [Double.isZero, Double.magnitude]

/-- Equal reads may be chained. Number literals and variables are the cases that take an argument;
the others pass the question on to their parts. -/
theorem Expr.SameRead.trans {x y z : Expr} (h : x.SameRead y) (h' : y.SameRead z) :
    x.SameRead z := by
  induction h generalizing z with
  -- The comparison runs from the later read to the earlier one.
  | numberLiteral hn =>
    cases h' with
    | numberLiteral hn' => exact .numberLiteral (NumberValue.sameAs_trans hn' hn)
  | varRef hid =>
    cases h' with
    | varRef hid' => exact .varRef (hid.trans hid')
  | fieldAccess _ ih =>
    cases h' with
    | fieldAccess hq => exact .fieldAccess (ih hq)
  | binary hop _ _ ihl ihr =>
    cases h' with
    | binary _ hl hr => exact .binary hop (ihl hl) (ihr hr)
  | unary hop _ ih =>
    cases h' with
    | unary _ he => exact .unary hop (ih he)
  | cast _ ih =>
    cases h' with
    | cast he => exact .cast (ih he)
  | conditional _ _ _ ihc iha ihb =>
    cases h' with
    | conditional hc ha hb => exact .conditional (ihc hc) (iha ha) (ihb hb)
  | notNull _ ih =>
    cases h' with
    | notNull he => exact .notNull (ih he)
  | _ => exact h'

theorem Expr.SameRead.sameAs {x y : Expr} (h : x.SameRead y) : y.sameAs x = true := by
  induction h with
  | varRef hid => simp [Expr.sameAs, BEq.beq, Variable.sameAs, hid]
  | _ => simp_all [Expr.sameAs, Expr.sameOption]

namespace Conversion

open Lowering.Expr

/-! ## Flattening -/

/-- Flattening replaces every member by what it contributes. It goes one level deep, since members
that were transformed before are flat themselves. -/
theorem flatten_eq_flatMap (es : List Expr) : flatten es = es.flatMap members := by
  induction es with
  | nil => rfl
  | cons e es ih => cases e <;> simp [flatten, members, ih]

/-- Members of a flattened sequence were members before, or members of an inner sequence. -/
theorem mem_of_mem_flatten {x : Expr} {es : List Expr} (h : x ∈ flatten es) :
    x ∈ es ∨ ∃ inner, .multi inner ∈ es ∧ x ∈ inner := by
  rw [flatten_eq_flatMap, List.mem_flatMap] at h
  obtain ⟨e, he, hx⟩ := h
  cases e with
  | multi inner => exact .inr ⟨inner, he, hx⟩
  | _ =>
    obtain rfl := List.mem_singleton.mp hx
    exact .inl he

/-- What holds at every depth of the members of a sequence still does after flattening. -/
theorem everywhere_flatten {N : Expr → Prop} {es : List Expr} (h : ∀ e ∈ es, e.Everywhere N) :
    ∀ e ∈ flatten es, e.Everywhere N := by
  intro e he
  rcases mem_of_mem_flatten he with he | ⟨inner, hinner, he⟩
  · exact h e he
  · exact (h _ hinner).child he

/-- The last member of a flattened sequence is the last contribution of its last
member, if that has one. -/
theorem getLast?_flatten {es : List Expr} {e : Expr} (he : es.getLast? = some e)
    (hne : e ≠ .multi []) : (flatten es).getLast? = e.members.getLast? := by
  obtain ⟨front, rfl⟩ := List.getLast?_eq_some_iff.mp he
  have hmembers : e.members ≠ [] := by
    obtain ⟨x, hx, _⟩ := exists_getLast?_members hne
    exact List.ne_nil_of_mem (List.mem_of_getLast? hx)
  rw [flatten_eq_flatMap, List.flatMap_append, List.flatMap_singleton,
    List.getLast?_append_of_ne_nil _ hmembers]

/-! ## Repeated checks -/

/-- A repeated check is a check of the same read. -/
theorem sameRead_of_isRepeatedCheck {y x : Expr} (h : isRepeatedCheck y x = true) :
    ∃ a b, y = .notNull a ∧ x = .notNull b ∧ SameRead a b := by
  simp only [isRepeatedCheck, Bool.and_eq_true] at h
  obtain ⟨⟨hnotNull, hidem⟩, hsame⟩ := h
  cases y with
  | notNull a =>
    have hread := sameRead_of_sameAs hidem hsame
    cases hread with
    | notNull hread => exact ⟨_, _, rfl, rfl, hread⟩
  | _ => cases hnotNull

/-- Conversely the check of an equal read is a repeated one. -/
theorem isRepeatedCheck_of_sameRead {x y : Expr} (h : SameRead y x) :
    isRepeatedCheck (.notNull y) (.notNull x) = true := by
  have hsame : (Expr.notNull x).sameAs (.notNull y) = true := (SameRead.notNull h).sameAs
  have hidem : (Expr.notNull y).isIdempotent = true := (SameRead.notNull h).isIdempotent.1
  simp only [isRepeatedCheck, hidem, Bool.and_eq_true]
  exact ⟨⟨rfl, trivial⟩, hsame⟩

/-- A check that repeats a repeated check repeats what that repeats. -/
theorem isRepeatedCheck_trans {z y x : Expr} (h : isRepeatedCheck z y = true)
    (h' : isRepeatedCheck y x = true) : isRepeatedCheck z x = true := by
  obtain ⟨a, b, rfl, rfl, hab⟩ := sameRead_of_isRepeatedCheck h
  obtain ⟨b', c, hb, rfl, hbc⟩ := sameRead_of_isRepeatedCheck h'
  -- The check in the middle is one of both reads.
  cases hb
  exact isRepeatedCheck_of_sameRead (hab.trans hbc)

/-- Nothing is made up when repeated checks are left out. -/
theorem mem_of_mem_dropRepeatedAfter {x kept : Expr} {es : List Expr}
    (h : x ∈ dropRepeatedAfter kept es) : x ∈ es := by
  induction es generalizing kept with
  | nil => exact h
  | cons e es ih =>
    rw [dropRepeatedAfter] at h
    split at h
    · exact List.mem_cons_of_mem _ (ih h)
    · rcases List.mem_cons.mp h with rfl | h
      · exact List.mem_cons_self
      · exact List.mem_cons_of_mem _ (ih h)

/-- The same for whole sequences, whose first member is always kept. -/
theorem mem_of_mem_dropRepeated {x : Expr} {es : List Expr} (h : x ∈ dropRepeated es) :
    x ∈ es := by
  cases es with
  | nil => exact h
  | cons e es =>
    rcases List.mem_cons.mp h with rfl | h
    · exact List.mem_cons_self
    · exact List.mem_cons_of_mem _ (mem_of_mem_dropRepeatedAfter h)

/-- Only checks of reads are left out, and these have no effects. -/
theorem mem_dropRepeatedAfter_or_isIdempotent {x : Expr} (kept : Expr) {es : List Expr}
    (hx : x ∈ es) : x ∈ dropRepeatedAfter kept es ∨ x.isIdempotent = true := by
  induction es generalizing kept with
  | nil => cases hx
  | cons e es ih =>
    rw [dropRepeatedAfter]
    split
    · rename_i hrepeated
      rcases List.mem_cons.mp hx with rfl | hx
      · obtain ⟨_, b, _, rfl, hread⟩ := sameRead_of_isRepeatedCheck hrepeated
        exact .inr hread.isIdempotent.2
      -- The member that is left out does not become the one to compare with.
      · exact ih kept hx
    · rcases List.mem_cons.mp hx with rfl | hx
      · exact .inl List.mem_cons_self
      · exact (ih e hx).imp_left (List.mem_cons_of_mem _)

/-- Members with effects are never left out. -/
theorem mem_dropRepeated_or_isIdempotent {x : Expr} {es : List Expr} (hx : x ∈ es) :
    x ∈ dropRepeated es ∨ x.isIdempotent = true := by
  cases es with
  | nil => cases hx
  | cons e es =>
    rcases List.mem_cons.mp hx with rfl | hx
    · exact .inl List.mem_cons_self
    · exact (mem_dropRepeatedAfter_or_isIdempotent e hx).imp_left (List.mem_cons_of_mem _)

/-- A sequence loses its members only if it has none. -/
theorem dropRepeated_eq_nil {es : List Expr} : dropRepeated es = [] ↔ es = [] := by
  cases es <;> simp [dropRepeated]

/-- Once repeated checks are left out, there are none. -/
theorem dropRepeatedAfter_dropRepeatedAfter (kept : Expr) (es : List Expr) :
    dropRepeatedAfter kept (dropRepeatedAfter kept es) = dropRepeatedAfter kept es := by
  induction es generalizing kept with
  | nil => rfl
  | cons e es ih =>
    rw [dropRepeatedAfter]
    split
    · exact ih kept
    · rw [dropRepeatedAfter, if_neg ‹_›, ih e]

theorem dropRepeated_dropRepeated (es : List Expr) :
    dropRepeated (dropRepeated es) = dropRepeated es := by
  cases es with
  | nil => rfl
  | cons e es => rw [dropRepeated, dropRepeated, dropRepeatedAfter_dropRepeatedAfter]

/-- What stands last, once repeated checks are left out, counting the member that was kept before.
It is the old last member or a check that this one repeats. -/
theorem getLast?_dropRepeatedAfter (kept : Expr) (es : List Expr) {x : Expr}
    (hx : (kept :: es).getLast? = some x) :
    ∃ y, (kept :: dropRepeatedAfter kept es).getLast? = some y ∧
      (y = x ∨ isRepeatedCheck y x = true) := by
  induction es generalizing kept with
  | nil => exact ⟨x, hx, .inl rfl⟩
  | cons e es ih =>
    rw [List.getLast?_cons_cons] at hx
    rw [dropRepeatedAfter]
    split
    · -- `e` is left out, and `kept` stands in for it.
      rename_i hrepeated
      cases es with
      | nil =>
        obtain rfl : e = x := by simpa using hx
        exact ⟨kept, rfl, .inr hrepeated⟩
      | cons e' es =>
        apply ih kept
        rw [List.getLast?_cons_cons] at hx ⊢
        exact hx
    · -- `e` stays, and later members are compared to it.
      obtain ⟨y, hy, hyx⟩ := ih e hx
      exact ⟨y, by rw [List.getLast?_cons_cons, hy], hyx⟩

/-- The last member that is kept is the last member, or a check that the last
member repeats. -/
theorem getLast?_dropRepeated {es : List Expr} {x : Expr} (hx : es.getLast? = some x) :
    ∃ y, (dropRepeated es).getLast? = some y ∧ (y = x ∨ isRepeatedCheck y x = true) := by
  cases es with
  | nil => simp at hx
  | cons e es => exact getLast?_dropRepeatedAfter e es hx

end Conversion

end Lowering
