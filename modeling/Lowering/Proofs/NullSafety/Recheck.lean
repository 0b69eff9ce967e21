import Lowering.Proofs.NullSafety.Shape
import Lowering.Proofs.Shape.Accepted

/-!
# The pass keeps accepted units accepted

A unit that the shape check accepts may have assertions of its own, for instance
because it is the result of an earlier compilation. The pass then keeps it
accepted, provided that no expression is of a wildcard or a capture: an assertion
is known to be non-null by its type, so it is never put under another one.
Nothing is asked of the supply, so temporaries may have the identities of
variables of the unit.

With wildcards the statement fails. The type of an assertion on a value of a
wildcard is that wildcard, annotated as non-nullable, and this type does not count
as non-null.

Main statement: `NullSafety.checkShape_again`.
-/

namespace Lowering

open Conversion Shape

/-! ## Wildcards and captures -/

def Ty.isWildcardOrCapture : Ty → Bool
  | .typeVar _ kind _ _ => kind.isWildcardOrCapture
  | _ => false

/-- The static type is not that of a wildcard or a capture. -/
def Expr.Plain (e : Expr) : Prop :=
  e.type.isWildcardOrCapture = false

instance : DecidablePred Expr.Plain := fun e =>
  inferInstanceAs (Decidable (e.type.isWildcardOrCapture = false))

theorem Ty.isWildcardOrCapture_toNonNullable (t : Ty) :
    t.toNonNullable.isWildcardOrCapture = t.isWildcardOrCapture := by
  cases t <;> rfl

theorem Expr.Plain.isNonNullWildcard {e : Expr} (h : e.Plain) :
    e.type.isNonNullWildcard = false := by
  unfold Plain at h
  cases ht : e.type <;> simp_all [Ty.isWildcardOrCapture, Ty.isNonNullWildcard]

/-- For expressions without wildcard types, not being null and being known to be non-null are the
same. -/
theorem Expr.Plain.isKnownNonNull {e : Expr} (h : e.Plain) (hnull : e.canBeNull = false) :
    e.isKnownNonNull = true := by
  simp [Expr.isKnownNonNull, hnull, h.isNonNullWildcard]

/-- A sequence has the type of its last member, so it is no wildcard if its members are none. -/
theorem Expr.plain_multi {es : List Expr} (h : ∀ e ∈ es, e.Plain) : (multi es).Plain := by
  unfold Plain
  rw [type_multi]
  cases hlast : es.getLast? with
  | none => rfl
  | some e => exact h e (List.mem_of_getLast? hlast)

namespace NullSafety

/-- Assertions keep the variable of a type, and change its nullability only. -/
theorem everywhere_plain_wrapped {e e' : Expr} (h : Wrapped e e') (he : e.Everywhere Expr.Plain) :
    e'.Everywhere Expr.Plain := by
  cases h with
  | same => exact he
  | asserted =>
    refine Expr.everywhere_iff.mpr ⟨?_, by simpa [Expr.children] using he⟩
    exact (Ty.isWildcardOrCapture_toNonNullable e.type).trans he.here

/-- The pass makes no wildcards: whatever is new has the type of something old. -/
theorem plain_inherited (T : VariableId → Prop) : Inherited Wrapped T Expr.Plain where
  rebuilt {e e'} hsame he hchildren := by
    cases hsame with
    -- An assertion has its type from the new operand, all other nodes keep their own.
    | @notNull x x' =>
      have hx' : x'.Plain := hchildren x' List.mem_cons_self
      exact (Ty.isWildcardOrCapture_toNonNullable x'.type).trans hx'
    | fieldAccess | call | newInstance | binary | unary | cast | conditional | declare => exact he
  adjusted := everywhere_plain_wrapped
  sequence := Expr.plain_multi
  temporary {v q} _ htype hq := by
    show v.type.isWildcardOrCapture = false
    rw [htype]
    exact hq
  binding _ _ := rfl

/-- Defaults bring in texts, comparisons and a choice, none of which is of a wildcard. -/
theorem everywhere_plain_defaulted {type : Ty} {T : VariableId → Prop} {e e' : Expr}
    (h : Defaulted type T e e') (he : e.Everywhere Expr.Plain)
    (htype : type.isWildcardOrCapture = false) : e'.Everywhere Expr.Plain := by
  have hleaf : ∀ {x : Expr}, x.isLeaf = true → x.Plain → x.Everywhere Expr.Plain := by
    intro x hx hplain
    refine Expr.everywhere_iff.mpr ⟨hplain, ?_⟩
    rw [Expr.children_of_isLeaf hx]
    nofun
  -- The choice has three parts: the comparison, the default and the value itself.
  have hchoice : ∀ {x : Expr}, x.Everywhere Expr.Plain →
      (nullChoice type x messageDefault).Everywhere Expr.Plain := by
    intro x hx
    refine Expr.everywhere_iff.mpr ⟨htype, fun c hc => ?_⟩
    simp only [nullChoice, Expr.children, List.mem_cons, List.not_mem_nil, or_false] at hc
    rcases hc with rfl | rfl | rfl
    · refine Expr.everywhere_iff.mpr ⟨rfl, fun c hc => ?_⟩
      simp only [Expr.equalsNull, Expr.operation, Expr.children, List.mem_cons, List.not_mem_nil,
        or_false] at hc
      rcases hc with rfl | rfl
      · exact hx
      · exact hleaf rfl rfl
    · exact hleaf rfl rfl
    · exact hx
  have hmulti : ∀ {es : List Expr}, (∀ x ∈ es, x.Everywhere Expr.Plain) →
      (Expr.multi es).Everywhere Expr.Plain := fun hes =>
    Expr.everywhere_iff.mpr ⟨Expr.plain_multi fun x hx => (hes x hx).here, hes⟩
  cases h with
  | known _ => exact he
  | null _ => exact hleaf rfl rfl
  | choice _ _ =>
    refine hmulti fun x hx => ?_
    obtain rfl := List.mem_singleton.mp hx
    exact hchoice he
  | @bound v _ _ _ hv =>
    -- The temporary has the type of the message.
    have hvar : (Expr.varRef v).Plain := by
      show v.type.isWildcardOrCapture = false
      rw [hv]
      exact he.here
    refine hmulti fun x hx => ?_
    simp only [List.mem_cons, List.not_mem_nil, or_false] at hx
    rcases hx with rfl | rfl
    · refine Expr.everywhere_iff.mpr ⟨rfl, fun c hc => ?_⟩
      obtain rfl : c = e := by simpa [Expr.children, Expr.declareOne] using hc
      exact he
    · exact hchoice (hleaf rfl hvar)

theorem everywhere_plain_of_step {type : Ty} {T : VariableId → Prop}
    (htype : type.isWildcardOrCapture = false) (e e' : Expr) (he : e.Everywhere Expr.Plain)
    (h : (steps type T).Any e e') : e'.Everywhere Expr.Plain :=
  WrapCongruence.of_step ((plain_inherited T).congruence wrapped_within)
    (fun he₁ hdefault => everywhere_plain_defaulted hdefault he₁ htype) h he

/-! ## Checks that still succeed -/

/-- Where the first check succeeds, the second one does from every larger scope,
and ends in a larger one. -/
def Follows (f f' : Scope → Except Fault Scope) : Prop :=
  ∀ S R S', f S = .ok R → S ⊆ S' → ∃ R', f' S' = .ok R' ∧ R ⊆ R'

theorem follows_relational : Relational Follows where
  ok S R S' h hS := by
    cases h
    exact ⟨S', rfl, hS⟩
  bind {f f' g g'} hf hg S R S' h hS := by
    -- Both checks of the input succeed, so both checks of the result do, in growing scopes.
    obtain ⟨S₁, hfirst, hsecond⟩ := bind_eq_ok.mp h
    obtain ⟨S₁', hfirst', hS₁⟩ := hf S S₁ S' hfirst hS
    obtain ⟨R', hsecond', hR⟩ := hg S₁ R S₁' hsecond hS₁
    exact ⟨R', bind_eq_ok.mpr ⟨S₁', hfirst', hsecond'⟩, hR⟩
  binder id f f' hf S R S' h hS := hf (id :: S) R (id :: S') h (List.cons_subset_cons id hS)

/-- The result passes wherever the expression does. -/
def StillPasses (e e' : Expr) : Prop :=
  Relational.OfExprs Follows e e'

/-- Besides, the result is an assertion only if the expression is one, and there
are no wildcards in it. -/
structure KeepsPassing (e e' : Expr) : Prop where
  passes : StillPasses e e'
  isNotNull : e'.isNotNull = e.isNotNull
  plain : e'.Everywhere Expr.Plain

/-- After an adjustment. -/
structure KeepsPassingValue (e e' : Expr) : Prop where
  passes : StillPasses e e'
  plain : e'.Everywhere Expr.Plain

section

variable {T : VariableId → Prop} {span : Span}

/-- An assertion is not asserted again, so asserting changes no check. -/
theorem checkExpr_asserted {e : Expr} (h : e.Plain) (S : Scope) :
    checkExpr span e.asserted S = checkExpr span e S := by
  unfold Expr.asserted
  split
  · rfl
  · rename_i hunknown
    have hplain : e.isNotNull ≠ true := by
      intro hnotNull
      apply hunknown
      -- An assertion is not null, and without wildcards it is known to be so.
      cases e with
      | notNull x => exact h.isKnownNonNull rfl
      | _ => cases hnotNull
    rw [checkExpr, if_neg hplain]

/-- A value is as it was, or asserted if it has to be. -/
def AssertedIfNeeded (e e' : Expr) : Prop := e' = e ∨ e' = e.asserted

/-- The relation of this module is finer than `Wrapped`: a value that is known to be non-null is not
put under an assertion, and this is what keeps assertions from being doubled. -/
theorem assertedIfNeeded_within : assertions.Within AssertedIfNeeded where
  same _ := .inl rfl
  slot {inferred declared e e'} h := by
    obtain rfl : e' = if excludesNull inferred declared then e.asserted else e := h
    split
    · exact .inr rfl
    · exact .inl rfl
  nonNull h := .inr h

theorem KeepsPassing.value {e e₁ e₂ : Expr} (h : KeepsPassing e e₁)
    (hvalue : AssertedIfNeeded e₁ e₂) :
    KeepsPassingValue e e₂ := by
  rcases hvalue with rfl | rfl
  · exact ⟨h.passes, h.plain⟩
  · refine ⟨fun span S R S' hcheck hS => ?_, everywhere_plain_wrapped (wrapped_asserted e₁) h.plain⟩
    rw [checkExpr_asserted h.plain.here]
    exact h.passes span S R S' hcheck hS

/-! ## Updates -/

/-- An update with its checks passes where the update passes; `rest` and `tail`
check what comes after the target. -/
theorem follows_guarded {update : Expr → Expr} {target₀ target e : Expr}
    {rest tail : Scope → Except Fault Scope} (h : Guarded assertions T update target e)
    (hupdate : ∀ t S, checkExpr span (update t) S = checkExpr span t S >>= tail)
    (htarget : KeepsPassing target₀ target) (hrest : Follows rest tail) :
    Follows (fun S => checkExpr span target₀ S >>= rest) (checkExpr span e) := by
  intro S R S' hcheck hS
  obtain ⟨S₁, hfirst, hsecond⟩ := bind_eq_ok.mp hcheck
  obtain ⟨S₁', hfirst', hS₁⟩ := htarget.passes span S S₁ S' hfirst hS
  -- Checking an expression never removes anything from the scope.
  have hgrown : S' ⊆ S₁' := (rechecks_checkExpr target S' S₁' hfirst').1
  cases h with
  | unboxed _ | unchanged _ _ _ =>
    obtain ⟨R', hsecond', hR⟩ := hrest S₁ R S₁' hsecond hS₁
    exact ⟨R', by rw [hupdate]; exact bind_eq_ok.mpr ⟨S₁', hfirst', hsecond'⟩, hR⟩
  | @checked _ check _ hcheck _ =>
    obtain rfl : check = target.asserted := hcheck
    -- The target is checked a second time, now from the scope after the first time.
    obtain ⟨S₂', hagain, hS₂⟩ := htarget.passes span S S₁ S₁' hfirst (List.Subset.trans hS hgrown)
    obtain ⟨R', hsecond', hR⟩ := hrest S₁ R S₂' hsecond hS₂
    refine ⟨R', ?_, hR⟩
    rw [checkExpr, checkExprs, checkExpr_asserted htarget.plain.here]
    refine bind_eq_ok.mpr ⟨S₁', hfirst', ?_⟩
    rw [checkExprs_singleton, hupdate]
    exact bind_eq_ok.mpr ⟨S₂', hagain, hsecond'⟩
  -- The temporary is added to the scope, perhaps under an identity that is there already.
  | @bound q _ f v _ _ _ _ _ _ =>
    have hbound : S₁ ⊆ v.id :: S₁' := fun _ hid => List.mem_cons_of_mem _ (hS₁ hid)
    obtain ⟨R', hsecond', hR⟩ := hrest S₁ R (v.id :: S₁') hsecond hbound
    refine ⟨R', ?_, hR⟩
    rw [checkExpr, checkExprs, checkExpr_declareOne]
    refine bind_eq_ok.mpr ⟨v.id :: S₁', bind_eq_ok.mpr ⟨S₁', hfirst', rfl⟩, ?_⟩
    rw [checkExprs_singleton, hupdate, checkExpr_temporary]
    exact hsecond'
  | @boundChecked q check f v _ _ _ _ hcheck _ =>
    obtain rfl : check = (Expr.fieldAccess (some (.varRef v)) f).asserted := hcheck
    have hplain : (Expr.fieldAccess (some (.varRef v)) f).Plain := htarget.plain.here
    have hbound : S₁ ⊆ v.id :: S₁' := fun _ hid => List.mem_cons_of_mem _ (hS₁ hid)
    obtain ⟨R', hsecond', hR⟩ := hrest S₁ R (v.id :: S₁') hsecond hbound
    refine ⟨R', ?_, hR⟩
    rw [checkExpr, checkExprs, checkExpr_declareOne]
    refine bind_eq_ok.mpr ⟨v.id :: S₁', bind_eq_ok.mpr ⟨S₁', hfirst', rfl⟩, ?_⟩
    rw [checkExprs, checkExpr_asserted hplain, checkExpr_temporary]
    refine bind_eq_ok.mpr ⟨v.id :: S₁', rfl, ?_⟩
    rw [checkExprs_singleton, hupdate, checkExpr_temporary]
    exact hsecond'

/-! ## All kinds of expressions -/

/-- Values that keep passing, as a relation of lists and options. -/
theorem plain_of_option {q q' : Option Expr} (h : Option.Rel KeepsPassingValue q q') :
    Option.Rel (fun _ e' => e'.Everywhere Expr.Plain) q q' :=
  optionRel_imp_of_mem h fun _ _ _ h => h.plain

theorem passes_of_option {q q' : Option Expr} (h : Option.Rel KeepsPassingValue q q') :
    Option.Rel StillPasses q q' :=
  optionRel_imp_of_mem h fun _ _ _ h => h.passes

/-- Every node keeps passing. That there are no wildcards below it has to be carried along, since
the result of a part may be asserted by the node above. -/
theorem keepsPassing_congruence :
    ValueCongruence assertions AssertedIfNeeded T Expr.Plain KeepsPassing KeepsPassingValue := by
  have hplain := (plain_inherited T).congruence wrapped_within
  constructor
  case wrap => exact KeepsPassing.value
  case leaf =>
    intro e hleaf he
    refine ⟨fun span S R S' hcheck hS => ?_, rfl, hplain.leaf hleaf he⟩
    cases e with
    | nullLiteral | boolLiteral | numberLiteral | stringLiteral | thisRef =>
      cases hcheck
      exact ⟨S', rfl, hS⟩
    | varRef v =>
      rw [checkExpr] at hcheck ⊢
      split at hcheck
      · cases hcheck
        exact ⟨S', if_pos (hS ‹_›), hS⟩
      · cases hcheck
    | _ => cases hleaf
  case fieldAccess =>
    intro q q' f he hq
    exact ⟨fun span => follows_relational.option (passes_of_option hq), rfl,
      hplain.fieldAccess he (plain_of_option hq)⟩
  case call =>
    intro q q' target as as' he hq has
    refine ⟨fun span => ?_, rfl,
      hplain.call he (plain_of_option hq) (has.imp fun _ _ h => h.plain)⟩
    exact follows_relational.bind (follows_relational.option (passes_of_option hq))
      (follows_relational.exprs (has.imp fun _ _ h => h.passes))
  case newInstance =>
    intro target as as' he has
    exact ⟨fun span => follows_relational.exprs (has.imp fun _ _ h => h.passes), rfl,
      hplain.newInstance he (has.imp fun _ _ h => h.plain)⟩
  case binary =>
    intro op l l' r r' type he hop hl hr
    exact ⟨fun span => follows_relational.bind (hl.passes span) (hr.passes span), rfl,
      hplain.binary he hop hl.plain hr.plain⟩
  case assign =>
    intro l l' r r' type he hl hr
    exact ⟨fun span => follows_relational.bind (hl.passes span) (hr.passes span), rfl,
      hplain.assign he hl.plain hr.plain⟩
  case compound =>
    intro op l l₁ r r' e type he hop hconverted hl hr hguarded
    refine ⟨fun span => ?_, ?_, hplain.compound he hop hconverted hl.plain hr.plain hguarded⟩
    · exact follows_guarded hguarded (fun _ _ => rfl) hl (hr.passes span)
    · exact hguarded.root (R := fun e => e.isNotNull = false) (fun _ => rfl) fun _ _ => rfl
  case unary =>
    intro op fixity x x' type he hop hx
    exact ⟨hx.passes, rfl, hplain.unary he hop hx.plain⟩
  case step =>
    intro op fixity x x₁ e type he hop hconverted hx hguarded
    refine ⟨fun span => ?_, ?_, hplain.step he hop hconverted hx.plain hguarded⟩
    · have hstep : Follows (fun S => checkExpr span x S >>= .ok) (checkExpr span e) :=
        follows_guarded hguarded (fun _ _ => (bind_pure _).symm) hx follows_relational.ok
      have hsame : (fun S => checkExpr span x S >>= .ok) = checkExpr span x :=
        funext fun S => bind_pure (checkExpr span x S)
      rwa [hsame] at hstep
    · exact hguarded.root (R := fun e => e.isNotNull = false) (fun _ => rfl) fun _ _ => rfl
  case cast =>
    intro type x x' he hx
    exact ⟨hx.passes, rfl, hplain.cast he hx.plain⟩
  case conditional =>
    intro type c c' a a' b b' he hc ha hb
    refine ⟨fun span => ?_, rfl, hplain.conditional he hc.plain ha.plain hb.plain⟩
    exact follows_relational.bind (hc.passes span)
      (follows_relational.bind (ha.passes span) (hb.passes span))
  -- An assertion of the input stays one, and its operand must not become one.
  case notNull =>
    intro x x' he hx
    refine ⟨fun span S R S' hcheck hS => ?_, rfl, hplain.notNull he hx.plain⟩
    -- The operand is no assertion, and neither is its result.
    rw [checkExpr] at hcheck ⊢
    rw [hx.isNotNull]
    split at hcheck
    · cases hcheck
    · rw [if_neg ‹_›]
      exact hx.passes span S R S' hcheck hS
  -- Flattening and dropping have no bearing on the check.
  case multi =>
    intro es es' he hconverted hes
    refine ⟨fun span S R S' hcheck hS => ?_, rfl,
      hplain.multi he hconverted (hes.imp fun _ _ h => h.plain)⟩
    rw [checkExpr, checkExprs_dropRepeated, checkExprs_flatten]
    exact follows_relational.exprs (hes.imp fun _ _ h => h.passes) S R S' hcheck hS
  case declare =>
    intro fs fs' he hfs
    have hpasses : List.Forall₂ (Fragment.Rel StillPasses) fs fs' := hfs.imp fun _ _ hf => by
      cases hf with
      | mk hi => exact .mk (passes_of_option hi)
    have hplain' : List.Forall₂ (Fragment.Rel fun _ e' => e'.Everywhere Expr.Plain) fs fs' :=
      hfs.imp fun _ _ hf => by
        cases hf with
        | mk hi => exact .mk (plain_of_option hi)
    exact ⟨fun span => follows_relational.fragments hpasses, rfl, hplain.declare he hplain'⟩

/-! ## Assert messages -/

/-- A message with its default passes where the message does. -/
theorem stillPasses_of_defaulted {type : Ty} {e e₁ e' : Expr} (h : StillPasses e e₁)
    (hdefault : Defaulted type T e₁ e') : StillPasses e e' := by
  intro span S R S' hcheck hS
  obtain ⟨R₁, hcheck₁, hR₁⟩ := h span S R S' hcheck hS
  have hgrown : S' ⊆ R₁ := (rechecks_checkExpr e₁ S' R₁ hcheck₁).1
  cases hdefault with
  | known _ => exact ⟨R₁, hcheck₁, hR₁⟩
  | null hnull =>
    cases e₁ with
    | nullLiteral => exact ⟨R₁, hcheck₁, hR₁⟩
    | _ => cases hnull
  | choice _ _ =>
    -- The message is read in the condition and again in the second branch.
    obtain ⟨R₂, hcheck₂, hR₂⟩ := h span S R R₁ hcheck (List.Subset.trans hS hgrown)
    refine ⟨R₂, ?_, hR₂⟩
    rw [checkExpr_nullChoice]
    exact bind_eq_ok.mpr ⟨R₁, hcheck₁, hcheck₂⟩
  | @bound v _ _ hv _ =>
    have hread : checkExpr span (.varRef v) (v.id :: R₁) = .ok (v.id :: R₁) :=
      if_pos List.mem_cons_self
    refine ⟨v.id :: R₁, ?_, fun _ hid => List.mem_cons_of_mem _ (hR₁ hid)⟩
    rw [checkExpr, checkExprs, checkExpr_declareOne]
    refine bind_eq_ok.mpr ⟨v.id :: R₁, bind_eq_ok.mpr ⟨R₁, hcheck₁, rfl⟩, ?_⟩
    show checkExpr span (.multi [nullChoice type (.varRef v) messageDefault]) (v.id :: R₁) = _
    rw [checkExpr_nullChoice]
    exact bind_eq_ok.mpr ⟨v.id :: R₁, hread, hread⟩

theorem stillPasses_of_step {type : Ty} {e e' : Expr} (h : (steps type T).Any e e')
    (he : e.Everywhere Expr.Plain) (htype : type.isWildcardOrCapture = false) :
    StillPasses e e' := by
  have hvalue : KeepsPassingValue e e' := by
    refine congruence_of_step assertedIfNeeded_within keepsPassing_congruence ?_ h he
    intro e e₁ e' hkeeps hdefault
    exact ⟨stillPasses_of_defaulted hkeeps.passes hdefault,
      everywhere_plain_defaulted hdefault hkeeps.plain htype⟩
  exact hvalue.passes

/-! ## Units -/

theorem checkField_again {type : Ty} (htype : type.isWildcardOrCapture = false) {f f' : FieldDecl}
    (h : f.Related (steps type T) f') (hf : ∀ e ∈ f.initializer.toList, e.Everywhere Expr.Plain)
    (hok : checkField f = .ok ()) : checkField f' = .ok () := by
  rw [checkField_eq_ok] at hok ⊢
  obtain ⟨R, hR⟩ := hok
  have hinitializer : Option.Rel StillPasses f.initializer f'.initializer :=
    optionRel_imp_of_mem h.initializer fun e he _ hstep =>
      stillPasses_of_step (.inl ⟨f.ref, hstep⟩) (hf e he) htype
  obtain ⟨R', hR', _⟩ := follows_relational.option hinitializer [] R [] hR fun _ hid => hid
  rw [h.span]
  exact ⟨R', hR'⟩

/-- Methods that were accepted are accepted again, with the same parameters in scope. -/
theorem checkMethod_again {type : Ty} (htype : type.isWildcardOrCapture = false) {d d' : MethodDecl}
    (h : d.Related (steps type T) d')
    (hd : ∀ s ∈ d.statements, ∀ e ∈ s.expressions, e.Everywhere Expr.Plain)
    (hok : checkMethod d = .ok ()) : checkMethod d' = .ok () := by
  rw [checkMethod_eq_ok] at hok ⊢
  intro b' hb'
  rw [h.parameters]
  unfold MethodDecl.statements at hd
  have hbody := h.body
  rw [Option.mem_def.mp hb'] at hbody
  generalize d.body = body at hbody hok hd
  cases hbody with
  | @some b _ hb =>
    obtain ⟨R, hR⟩ := hok b rfl
    -- Statements keep their form, and their expressions keep passing.
    have hstatements : Follows (checkStmts b.statements) (checkStmts b'.statements) := by
      refine follows_relational.stmts (forall₂_imp_of_mem hb.statements fun s hs s' hss' => ?_)
      refine follows_relational.stmt_of_related hss' fun t ht e he e' hstep => ?_
      refine stillPasses_of_step (.inr ⟨d.ref, hstep⟩) (hd t ?_ e he) htype
      exact List.mem_flatMap.mpr ⟨b, by simp, List.mem_flatMap.mpr ⟨s, hs, ht⟩⟩
    obtain ⟨R', hR', _⟩ := hstatements _ R _ hR fun _ hid => hid
    exact ⟨R', hR'⟩

/-- What the pass makes of an accepted unit without wildcards is accepted. -/
theorem checkShape_again {type : Ty} (htype : type.isWildcardOrCapture = false)
    {u u' : CompilationUnit} (h : u.Related (steps type T) u') (hu : u.Everywhere Expr.Plain)
    (hok : u.checkShape = .ok ()) : u'.checkShape = .ok () := by
  rw [CompilationUnit.checkShape, forM_eq_ok] at hok ⊢
  intro d' hd'
  obtain ⟨d, hd, hdd'⟩ := exists_of_mem_forall₂ h.types hd'
  obtain ⟨hfields, hmethods⟩ := checkType_eq_ok.mp (hok d hd)
  refine checkType_eq_ok.mpr ⟨fun f' hf' => ?_, fun m' hm' => ?_⟩
  · obtain ⟨f, hf, hff'⟩ := exists_of_mem_forall₂ hdd'.fields hf'
    refine checkField_again htype hff' (fun e he => hu e ?_) (hfields f hf)
    refine List.mem_flatMap.mpr ⟨d, hd, List.mem_append_left _ ?_⟩
    exact List.mem_flatMap.mpr ⟨f, hf, he⟩
  · obtain ⟨m, hm, hmm'⟩ := exists_of_mem_forall₂ hdd'.methods hm'
    refine checkMethod_again htype hmm' (fun s hs e he => hu e ?_) (hmethods m hm)
    refine List.mem_flatMap.mpr ⟨d, hd, List.mem_append_right _ ?_⟩
    exact List.mem_flatMap.mpr ⟨m, hm, List.mem_flatMap.mpr ⟨s, hs, he⟩⟩

end

end NullSafety

end Lowering
