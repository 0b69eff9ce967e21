import Lowering.Proofs.Conversion.Sequence
import Lowering.Shape.Check

/-!
# Scopes during the shape check

The shape check takes a scope to a larger one or fails. `Shape.Compositional`
collects what a property of checks needs in order to hold of all of them.

Main statements:

- `Shape.rechecks_checkExpr`: a second check of the same tree succeeds in every
  scope that has what the first one ended with, and adds nothing.
- `Shape.passes_compositional`: an expression without assertions passes where its
  variables are in scope.
- `Shape.Checked.not_doubled`: what has passed has no doubled assertions.
- `Shape.pass_accepts_iff`: the pass accepts the units without a fault.
- `Shape.checkExprs_flatten`, `Shape.checkExprs_dropRepeated`: a sequence is checked
  like the one that the conversion traversal makes of it.
-/

namespace Lowering

/-- Is it an assertion directly on an assertion? -/
def Expr.isDoubledAssertion : Expr → Bool
  | notNull operand => operand.isNotNull
  | _ => false

namespace Shape

open Conversion

/-- Two checks in sequence succeed if the first does, and the second from what the first has
left. -/
theorem bind_eq_ok {α β : Type} {x : Except Fault α} {f : α → Except Fault β} {b : β} :
    (x >>= f) = .ok b ↔ ∃ a, x = .ok a ∧ f a = .ok b := by
  cases x with
  | error fault => exact ⟨nofun, nofun⟩
  | ok a => exact ⟨fun h => ⟨a, rfl, h⟩, fun ⟨_, ha, h⟩ => by cases ha; exact h⟩

/-! ## Checks from the checks of the parts -/

/-- A property of checks that passes from the parts of an expression to the whole,
where every node has `H`. -/
structure Compositional (H : Expr → Prop) (span : Span)
    (C : (Scope → Except Fault Scope) → Prop) : Prop where
  ok : C .ok
  bind {check check' : Scope → Except Fault Scope} :
    C check → C check' → C fun S => check S >>= check'
  binder {check : Scope → Except Fault Scope} (id : VariableId) :
    C check → C fun S => check (id :: S)
  varRef {v : Variable} : H (.varRef v) → C (checkExpr span (.varRef v))
  notNull {x : Expr} : H (.notNull x) → C (checkExpr span x) → C (checkExpr span (.notNull x))

namespace Compositional

variable {H : Expr → Prop} {span : Span} {C : (Scope → Except Fault Scope) → Prop}

theorem checkOption (hC : Compositional H span C) {e : Option Expr}
    (h : ∀ x ∈ e.toList, C (checkExpr span x)) : C (checkOption span e) := by
  cases e with
  | none => exact hC.ok
  | some e => exact h e (by simp)

theorem checkExprs (hC : Compositional H span C) {es : List Expr}
    (h : ∀ x ∈ es, C (checkExpr span x)) : C (checkExprs span es) := by
  induction es with
  | nil => exact hC.ok
  | cons e es ih =>
    exact hC.bind (h e List.mem_cons_self) (ih fun x hx => h x (List.mem_cons_of_mem _ hx))

theorem checkFragments (hC : Compositional H span C) {fs : List (Fragment Expr)}
    (h : ∀ x ∈ fs.filterMap (·.initializer), C (checkExpr span x)) :
    C (checkFragments span fs) := by
  induction fs with
  | nil => exact hC.ok
  | cons f fs ih =>
    obtain ⟨binder, initializer⟩ := f
    -- The initializer comes first, and the rest has the variable of the fragment in scope.
    refine hC.bind (hC.checkOption fun x hx => h x ?_) (hC.binder binder.id (ih fun x hx => h x ?_))
    · exact List.mem_filterMap.mpr ⟨_, List.mem_cons_self, Option.mem_toList.mp hx⟩
    · obtain ⟨f, hf, hx⟩ := List.mem_filterMap.mp hx
      exact List.mem_filterMap.mpr ⟨f, List.mem_cons_of_mem _ hf, hx⟩

/-- A compositional property holds of the check of every expression whose nodes all have `H`. The
check only does something of its own at declarations, references and assertions, which are the
fields of the structure. -/
theorem holds (hC : Compositional H span C) {e : Expr} (h : e.Everywhere H) :
    C (checkExpr span e) := by
  induction e using Expr.childInduction with
  | step e ih =>
    have hchild : ∀ c ∈ e.children, C (checkExpr span c) := fun c hc => ih c hc (h.child hc)
    cases e with
    | nullLiteral | boolLiteral | numberLiteral | stringLiteral | thisRef => exact hC.ok
    | varRef v => exact hC.varRef h.here
    | fieldAccess q f => exact hC.checkOption hchild
    | call q m as =>
      exact hC.bind (hC.checkOption fun x hx => hchild x (List.mem_append_left _ hx))
        (hC.checkExprs fun x hx => hchild x (List.mem_append_right _ hx))
    | newInstance m as => exact hC.checkExprs hchild
    | binary op l r t =>
      exact hC.bind (hchild l (by simp [Expr.children])) (hchild r (by simp [Expr.children]))
    | unary op fixity x t => exact hchild x (by simp [Expr.children])
    | cast t x => exact hchild x (by simp [Expr.children])
    | conditional t c a b =>
      exact hC.bind (hchild c (by simp [Expr.children]))
        (hC.bind (hchild a (by simp [Expr.children])) (hchild b (by simp [Expr.children])))
    | notNull x => exact hC.notNull h.here (hchild x (by simp [Expr.children]))
    | multi es => exact hC.checkExprs hchild
    | declare fs => exact hC.checkFragments hchild

end Compositional

/-! ## Checking again -/

/-- A successful check enlarges the scope, and a second one from a scope with all
of the result succeeds without adding to it. -/
def Rechecks (check : Scope → Except Fault Scope) : Prop :=
  ∀ S S₁, check S = .ok S₁ → S ⊆ S₁ ∧
    ∀ S₂, S₁ ⊆ S₂ → ∃ S₃, check S₂ = .ok S₃ ∧ S₃ ⊆ S₂

namespace Rechecks

theorem ok : Rechecks .ok := by
  intro S S₁ h
  cases h
  exact ⟨fun _ hid => hid, fun S₂ _ => ⟨S₂, rfl, fun _ hid => hid⟩⟩

/-- If each of two checks can be repeated, so can both in sequence. -/
theorem bind {check check' : Scope → Except Fault Scope} (h : Rechecks check)
    (h' : Rechecks check') : Rechecks fun S => check S >>= check' := by
  intro S S₁ hrun
  obtain ⟨S₀, hfirst, hsecond⟩ := bind_eq_ok.mp hrun
  -- The scope grows from `S` by way of `S₀` to `S₁`, which `S₂` has all of.
  obtain ⟨hsub, hagain⟩ := h S S₀ hfirst
  obtain ⟨hsub', hagain'⟩ := h' S₀ S₁ hsecond
  refine ⟨fun _ hid => hsub' (hsub hid), fun S₂ hS₂ => ?_⟩
  obtain ⟨R, hR, hRsub⟩ := hagain S₂ fun _ hid => hS₂ (hsub' hid)
  -- The first part has not lost anything of the scope that it started from.
  have hS₁R : S₁ ⊆ R := fun _ hid => (h S₂ R hR).1 (hS₂ hid)
  obtain ⟨R', hR', hRsub'⟩ := hagain' R hS₁R
  exact ⟨R', bind_eq_ok.mpr ⟨R, hR, hR'⟩, fun _ hid => hRsub (hRsub' hid)⟩

/-- A check with one more variable in scope can be repeated without it, since the first run has left
it in scope. -/
theorem binder {check : Scope → Except Fault Scope} (id : VariableId) (h : Rechecks check) :
    Rechecks fun S => check (id :: S) := by
  intro S S₁ hrun
  obtain ⟨hsub, hagain⟩ := h _ _ hrun
  refine ⟨fun _ hid => hsub (List.mem_cons_of_mem _ hid), fun S₂ hS₂ => ?_⟩
  obtain ⟨S₃, hS₃, hsub₃⟩ := hagain (id :: S₂) fun _ hid => List.mem_cons_of_mem _ (hS₂ hid)
  refine ⟨S₃, hS₃, fun id' hid' => ?_⟩
  -- The binder was in the scope that the first check ended with.
  rcases List.mem_cons.mp (hsub₃ hid') with rfl | hmem
  · exact hS₂ (hsub List.mem_cons_self)
  · exact hmem

theorem varRef (v : Variable) (span : Span) : Rechecks (checkExpr span (.varRef v)) := by
  intro S S₁ h
  simp only [checkExpr] at h
  split at h
  · cases h
    exact ⟨fun _ hid => hid, fun S₂ hS₂ => ⟨S₂, if_pos (hS₂ ‹_›), fun _ hid => hid⟩⟩
  · cases h

end Rechecks

section

variable {span : Span}

theorem rechecks_compositional : Compositional (fun _ => True) span Rechecks where
  ok := .ok
  bind := .bind
  binder := .binder
  varRef _ := .varRef _ span
  notNull {x} _ h := by
    unfold Rechecks
    simp only [checkExpr]
    -- A doubled assertion never passes, so there is nothing to repeat.
    split
    · nofun
    · exact h

/-- An expression that passes the check passes it again, and adds nothing then. -/
theorem rechecks_checkExpr (e : Expr) : Rechecks (checkExpr span e) :=
  rechecks_compositional.holds fun _ _ => trivial

/-! ## Expressions that pass -/

/-- The check succeeds from every scope with the given identities, and keeps them. -/
def Passes (known : Scope) (check : Scope → Except Fault Scope) : Prop :=
  ∀ S, known ⊆ S → ∃ S₁, check S = .ok S₁ ∧ known ⊆ S₁

/-- What the check cannot object to: no assertion, and only variables in scope. -/
structure Unobjectionable (known : Scope) (e : Expr) : Prop where
  plain : e.isNotNull = false
  inScope : ∀ v ∈ e.ownVariables, v.id ∈ known

/-- An expression without assertions passes wherever its variables are known, and what was known is
known after it. -/
theorem passes_compositional {known : Scope} :
    Compositional (Unobjectionable known) span (Passes known) where
  ok S hS := ⟨S, rfl, hS⟩
  bind {check check'} h h' := by
    intro S hS
    obtain ⟨S₁, hfirst, hS₁⟩ := h S hS
    obtain ⟨S₂, hsecond, hS₂⟩ := h' S₁ hS₁
    exact ⟨S₂, bind_eq_ok.mpr ⟨S₁, hfirst, hsecond⟩, hS₂⟩
  binder id h := fun S hS => h (id :: S) fun _ hid => List.mem_cons_of_mem _ (hS hid)
  varRef {v} hv := by
    have hmem : v.id ∈ known := hv.inScope v List.mem_cons_self
    exact fun S hS => ⟨S, if_pos (hS hmem), hS⟩
  -- There is no assertion among the nodes.
  notNull hx _ := by cases hx.plain

/-! ## What a successful check has seen -/

/-- The check of the expression succeeds somewhere. -/
def Checked (span : Span) (e : Expr) : Prop := ∃ S S₁, checkExpr span e S = .ok S₁

theorem checked_of_checkOption {e : Option Expr} {S S₁ : Scope}
    (h : checkOption span e S = .ok S₁) : ∀ x ∈ e.toList, Checked span x := by
  cases e with
  | none => nofun
  | some e =>
    intro x hx
    obtain rfl : x = e := by simpa using hx
    exact ⟨S, S₁, h⟩

/-- In a list that passes, each expression has passed in the scope after the ones before it. -/
theorem checked_of_checkExprs {es : List Expr} {S S₁ : Scope} (h : checkExprs span es S = .ok S₁) :
    ∀ x ∈ es, Checked span x := by
  induction es generalizing S with
  | nil => nofun
  | cons e es ih =>
    obtain ⟨S₀, hfirst, hrest⟩ := bind_eq_ok.mp h
    intro x hx
    rcases List.mem_cons.mp hx with rfl | hx
    · exact ⟨S, S₀, hfirst⟩
    · exact ih hrest x hx

theorem checked_of_checkFragments {fs : List (Fragment Expr)} {S S₁ : Scope}
    (h : checkFragments span fs S = .ok S₁) :
    ∀ x ∈ fs.filterMap (·.initializer), Checked span x := by
  induction fs generalizing S with
  | nil => nofun
  | cons f fs ih =>
    obtain ⟨binder, initializer⟩ := f
    obtain ⟨S₀, hfirst, hrest⟩ := bind_eq_ok.mp h
    intro x hx
    obtain ⟨g, hg, hx⟩ := List.mem_filterMap.mp hx
    rcases List.mem_cons.mp hg with rfl | hg
    · exact checked_of_checkOption hfirst x (Option.mem_toList.mpr hx)
    · exact ih hrest x (List.mem_filterMap.mpr ⟨g, hg, hx⟩)

/-- The parts of an expression that passes have passed. This is how a fact about whole trees comes
from the check of the root. -/
theorem Checked.child {e c : Expr} (h : Checked span e) (hc : c ∈ e.children) :
    Checked span c := by
  obtain ⟨S, S₁, h⟩ := h
  cases e with
  | nullLiteral | boolLiteral | numberLiteral | stringLiteral | thisRef | varRef => cases hc
  | fieldAccess q f => exact checked_of_checkOption h c hc
  | call q m as =>
    obtain ⟨S₀, hfirst, hrest⟩ := bind_eq_ok.mp h
    rcases List.mem_append.mp hc with hc | hc
    · exact checked_of_checkOption hfirst c hc
    · exact checked_of_checkExprs hrest c hc
  | newInstance m as => exact checked_of_checkExprs h c hc
  | binary op l r t =>
    obtain ⟨S₀, hfirst, hrest⟩ := bind_eq_ok.mp h
    simp only [Expr.children, List.mem_cons, List.not_mem_nil, or_false] at hc
    rcases hc with rfl | rfl
    · exact ⟨_, _, hfirst⟩
    · exact ⟨_, _, hrest⟩
  | unary op fixity x t =>
    obtain rfl := List.mem_singleton.mp hc
    exact ⟨_, _, h⟩
  | cast t x =>
    obtain rfl := List.mem_singleton.mp hc
    exact ⟨_, _, h⟩
  | conditional t x a b =>
    obtain ⟨S₀, hfirst, hrest⟩ := bind_eq_ok.mp h
    obtain ⟨S₀', hsecond, hthird⟩ := bind_eq_ok.mp hrest
    simp only [Expr.children, List.mem_cons, List.not_mem_nil, or_false] at hc
    rcases hc with rfl | rfl | rfl
    · exact ⟨_, _, hfirst⟩
    · exact ⟨_, _, hsecond⟩
    · exact ⟨_, _, hthird⟩
  -- The operand is checked only if it is not an assertion itself.
  | notNull x =>
    obtain rfl := List.mem_singleton.mp hc
    simp only [checkExpr] at h
    split at h
    · cases h
    · exact ⟨_, _, h⟩
  | multi es => exact checked_of_checkExprs h c hc
  | declare fs => exact checked_of_checkFragments h c hc

/-- No assertion in a checked expression stands directly on another one. -/
theorem Checked.not_doubled {e : Expr} (h : Checked span e) :
    e.Everywhere fun x => x.isDoubledAssertion = false := by
  induction e using Expr.childInduction with
  | step e ih =>
    -- The node itself has been looked at, and the parts have passed by `Checked.child`.
    refine Expr.everywhere_iff.mpr ⟨?_, fun c hc => ih c hc (h.child hc)⟩
    cases e with
    | notNull x =>
      obtain ⟨S, S₁, h⟩ := h
      simp only [checkExpr] at h
      split at h
      · cases h
      · exact Bool.eq_false_iff.mpr ‹_›
    | _ => rfl

/-! ## Reads and sequences -/

/-- The check of an idempotent expression leaves the scope as it is, since only declarations add to
the scope, and an expression with a declaration is not idempotent. -/
theorem scope_of_isIdempotent {e : Expr} (hidem : e.isIdempotent = true) {S S₁ : Scope}
    (h : checkExpr span e S = .ok S₁) : S₁ = S := by
  -- The induction is on the shape that idempotent expressions have.
  have hread := Expr.read_of_isIdempotent hidem
  clear hidem
  induction hread generalizing S S₁ with
  | @leaf e hleaf =>
    cases e with
    | nullLiteral | boolLiteral | numberLiteral | stringLiteral | thisRef =>
      cases h
      rfl
    | varRef v =>
      simp only [checkExpr] at h
      split at h
      · cases h
        rfl
      · cases h
    | _ => cases hleaf
  | ownField =>
    cases h
    rfl
  | fieldAccess _ ih | cast _ ih | unary _ _ ih => exact ih h
  | binary _ _ _ ihl ihr =>
    obtain ⟨S₀, hl, hr⟩ := bind_eq_ok.mp h
    rw [ihr hr, ihl hl]
  | conditional _ _ _ ihc iha ihb =>
    obtain ⟨S₀, hc, h⟩ := bind_eq_ok.mp h
    obtain ⟨S₀', ha, hb⟩ := bind_eq_ok.mp h
    rw [ihb hb, iha ha, ihc hc]
  | notNull _ ih =>
    simp only [checkExpr] at h
    split at h
    · cases h
    · exact ih h

/-- Equal reads pass the check in the same scopes. -/
theorem checkExpr_of_sameRead {x y : Expr} (h : x.SameRead y) {S : Scope}
    (hx : checkExpr span x S = .ok S) : checkExpr span y S = .ok S := by
  induction h with
  | nullLiteral | boolLiteral | numberLiteral | stringLiteral | thisRef | ownField => exact hx
  | varRef hid =>
    simp only [checkExpr, hid] at hx ⊢
    split at hx
    · rw [if_pos ‹_›]
    · cases hx
  | fieldAccess _ ih | cast _ ih | unary _ _ ih => exact ih hx
  -- The left side leaves the scope alone, so both sides are checked in the same scope.
  | binary _ hl _ ihl ihr =>
    obtain ⟨S₀, hx₁, hx₂⟩ := bind_eq_ok.mp hx
    obtain rfl := scope_of_isIdempotent hl.isIdempotent.1 hx₁
    exact bind_eq_ok.mpr ⟨S₀, ihl hx₁, ihr hx₂⟩
  | conditional hc ha _ ihc iha ihb =>
    obtain ⟨S₀, hx₁, hx⟩ := bind_eq_ok.mp hx
    obtain ⟨S₀', hx₂, hx₃⟩ := bind_eq_ok.mp hx
    obtain rfl := scope_of_isIdempotent hc.isIdempotent.1 hx₁
    obtain rfl := scope_of_isIdempotent ha.isIdempotent.1 hx₂
    exact bind_eq_ok.mpr ⟨_, ihc hx₁, bind_eq_ok.mpr ⟨_, iha hx₂, ihb hx₃⟩⟩
  | @notNull a b hread ih =>
    -- Equal reads are of one kind, so both are refused as doubled or neither is.
    have hnotNull : b.isNotNull = a.isNotNull := by cases hread <;> rfl
    simp only [checkExpr, hnotNull] at hx ⊢
    split at hx
    · cases hx
    · rw [if_neg ‹_›]
      exact ih hx

theorem checkExprs_singleton (e : Expr) (S : Scope) :
    checkExprs span [e] S = checkExpr span e S := by
  rw [checkExprs]
  cases checkExpr span e S <;> rfl

/-- A list is checked in two parts like it is in one. -/
theorem checkExprs_append (es es' : List Expr) (S : Scope) :
    checkExprs span (es ++ es') S = checkExprs span es S >>= checkExprs span es' := by
  induction es generalizing S with
  | nil => rfl
  | cons e es ih =>
    simp only [List.cons_append, checkExprs, bind_assoc]
    exact bind_congr fun S₁ => ih S₁

/-- A nested sequence is checked member by member, whether it is spliced in or not. -/
theorem checkExprs_flatten (es : List Expr) (S : Scope) :
    checkExprs span (flatten es) S = checkExprs span es S := by
  induction es generalizing S with
  | nil => rfl
  | cons e es ih =>
    cases e with
    -- The members take the place of the sequence, in the same order.
    | multi inner =>
      rw [flatten, checkExprs_append, checkExprs]
      exact bind_congr fun S₁ => ih S₁
    | _ =>
      rw [flatten, checkExprs, checkExprs]
      · exact bind_congr fun S₁ => ih S₁
      · simp

/-- Leaving out repeated checks changes nothing for the shape check. The condition says that the
last check that was kept passes where the scan stands, which is asked only if it could be
repeated. -/
theorem checkExprs_dropRepeatedAfter {kept : Expr} {es : List Expr} {S : Scope}
    (hkept : kept.isIdempotent = true → checkExpr span kept S = .ok S) :
    checkExprs span (dropRepeatedAfter kept es) S = checkExprs span es S := by
  induction es generalizing kept S with
  | nil => rfl
  | cons e es ih =>
    rw [dropRepeatedAfter]
    split
    · rename_i hrepeated
      obtain ⟨a, b, rfl, rfl, hread⟩ := sameRead_of_isRepeatedCheck hrepeated
      -- The kept check has succeeded in this scope, and so does its repetition.
      have hcheck := checkExpr_of_sameRead (.notNull hread) (hkept hread.isIdempotent.1)
      rw [ih hkept, checkExprs, hcheck]
      rfl
    · rw [checkExprs, checkExprs]
      cases he : checkExpr span e S with
      | error fault => rfl
      | ok S₁ =>
        -- From here on `e` is the last that was kept. If it is idempotent, it has left the scope
        -- alone.
        refine ih fun hidem => ?_
        obtain rfl := scope_of_isIdempotent hidem he
        exact he

/-- Without repeated checks, a sequence is accepted in the same scopes and leaves the same scope. -/
theorem checkExprs_dropRepeated (es : List Expr) (S : Scope) :
    checkExprs span (dropRepeated es) S = checkExprs span es S := by
  cases es with
  | nil => rfl
  | cons e es =>
    rw [dropRepeated, checkExprs, checkExprs]
    cases he : checkExpr span e S with
    | error fault => rfl
    | ok S₁ =>
      refine checkExprs_dropRepeatedAfter fun hidem => ?_
      obtain rfl := scope_of_isIdempotent hidem he
      exact he

end

/-! ## The pass -/

/-- The pass accepts exactly the units that have no fault. -/
theorem pass_accepts_iff (u : CompilationUnit) (context : PassContext) :
    (∃ context', pass.apply u context = (.ok u, context')) ↔ u.checkShape = .ok () := by
  unfold pass
  cases hcheck : u.checkShape with
  | error fault =>
    simp only [hcheck]
    constructor
    · rintro ⟨_, h⟩
      cases h
    · nofun
  | ok _ =>
    simp only [hcheck]
    exact ⟨fun _ => trivial, fun _ => ⟨context, rfl⟩⟩

end Shape

end Lowering
