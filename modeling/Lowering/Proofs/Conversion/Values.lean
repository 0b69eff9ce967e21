import Lowering.Proofs.Conversion.Relation

/-!
# Relations that look at adjusted values only

`Converted` says for every site which hook is asked. Most properties of the result
do not depend on that: they hold whatever values are adjusted, as long as an
adjusted value is related to the one before. `ValueCongruence` is the induction
for such properties. `Inherited` is the still simpler case of a property of single
nodes that the result has at every depth because the input has it.
-/

namespace Lowering

namespace Conversion

/-! ## Adjusted values -/

/-- What the adjustment puts in the place of a value is related to it by `W`. -/
structure Adjustment.Within (A : Adjustment) (W : Expr → Expr → Prop) : Prop where
  same (e : Expr) : W e e
  slot {inferred declared : Ty} {e e' : Expr} : A.slot inferred declared e e' → W e e'
  nonNull {inferred declared : Ty} {e e' : Expr} : A.nonNull inferred declared e e' → W e e'

namespace Adjustment.Within

variable {A : Adjustment} {W : Expr → Expr → Prop}

/-- Sites differ in the hook that they ask and in when they ask it. In each case the value stays or
is adjusted, so `W` relates what stands there before and after. -/
theorem of_required (h : A.Within W) {e e' : Expr} (hvalue : A.RequiredValue e e') : W e e' :=
  h.nonNull hvalue

/-- Slots of primitive type ask the other hook for boxed values. -/
theorem of_slot (h : A.Within W) {inferred declared : Ty} {e e' : Expr}
    (hvalue : A.SlotValue inferred declared e e') : W e e' := by
  unfold SlotValue at hvalue
  split at hvalue
  · exact h.nonNull hvalue
  · exact h.slot hvalue

/-- Primitive operands stay as they are. -/
theorem of_operand (h : A.Within W) {e e' : Expr} (hvalue : A.OperandValue e e') : W e e' := by
  unfold OperandValue at hvalue
  split at hvalue
  · subst hvalue
    exact h.same _
  · exact h.of_required hvalue

theorem of_operandIf (h : A.Within W) {unboxed : Bool} {e e' : Expr}
    (hvalue : A.OperandIf unboxed e e') : W e e' := by
  unfold OperandIf at hvalue
  split at hvalue
  · exact h.of_operand hvalue
  · subst hvalue
    exact h.same _

theorem of_cast (h : A.Within W) {type : Ty} {e e' : Expr} (hvalue : A.CastValue type e e') :
    W e e' := by
  unfold CastValue at hvalue
  split at hvalue
  · exact h.of_slot hvalue
  · subst hvalue
    exact h.same _

theorem of_added (h : A.Within W) {target e e' : Expr} (hvalue : A.AddedValue target e e') :
    W e e' := by
  unfold AddedValue at hvalue
  split at hvalue
  · exact h.of_operand hvalue
  · exact h.of_slot hvalue

/-- Receivers of static members stay, all others are required. -/
theorem of_receiver (h : A.Within W) {isStatic : Bool} {q q' : Option Expr}
    (hvalue : A.ReceiverValue isStatic q q') : Option.Rel W q q' := by
  cases hvalue with
  | absent => exact .none
  | ignored _ => exact .some (h.same _)
  | required _ he => exact .some (h.of_required he)

/-- Arguments beyond the known parameters stay. -/
theorem of_arguments (h : A.Within W) {is ds : List Ty} {es es' : List Expr}
    (hvalues : A.ArgumentValues is ds es es') : List.Forall₂ W es es' := by
  induction hvalues with
  | cons he _ ih => exact .cons (h.of_slot he) ih
  -- One of the three lists has ended; the arguments that remain are not touched.
  | rest _ => exact List.forall₂_same.mpr fun e _ => h.same e

theorem of_initializers (h : A.Within W) {fs fs' : List (Fragment Expr)}
    (hvalues : List.Forall₂ A.InitializerValue fs fs') :
    List.Forall₂ (Fragment.Rel W) fs fs' := by
  refine hvalues.imp fun f f' hf => ?_
  cases hf with
  | absent => exact .mk .none
  | value he => exact .mk (.some (h.of_slot he))

end Adjustment.Within

/-! ## Induction -/

/-- A congruence that does not ask at which sites values are adjusted. `P` relates
an expression to what the traversal makes of it, `Q` also to that after an
adjustment. -/
structure ValueCongruence (A : Adjustment) (W : Expr → Expr → Prop) (T : VariableId → Prop)
    (H : Expr → Prop) (P Q : Expr → Expr → Prop) : Prop where
  wrap {e e₁ e₂ : Expr} : P e e₁ → W e₁ e₂ → Q e e₂
  leaf {e : Expr} : e.isLeaf = true → H e → P e e
  fieldAccess {q q' : Option Expr} {f : FieldRef} : H (.fieldAccess q f) →
    Option.Rel Q q q' → P (.fieldAccess q f) (.fieldAccess q' f)
  call {q q' : Option Expr} {target : MethodRef} {as as' : List Expr} : H (.call q target as) →
    Option.Rel Q q q' → List.Forall₂ Q as as' → P (.call q target as) (.call q' target as')
  newInstance {target : MethodRef} {as as' : List Expr} : H (.newInstance target as) →
    List.Forall₂ Q as as' → P (.newInstance target as) (.newInstance target as')
  binary {op : BinaryOp} {l l' r r' : Expr} {type : Ty} : H (.binary op l r type) →
    op.isAssignment = false → Q l l' → Q r r' → P (.binary op l r type) (.binary op l' r' type)
  -- Targets are never adjusted, so `P` is known of them.
  assign {l l' r r' : Expr} {type : Ty} : H (.binary .assign l r type) → P l l' → Q r r' →
    P (.binary .assign l r type) (.binary .assign l' r' type)
  compound {op : BinaryOp} {l l₁ r r' e : Expr} {type : Ty} : H (.binary op l r type) →
    op = .plusAssign ∨ op = .minusAssign → Converted A T l l₁ → P l l₁ → Q r r' →
    Guarded A T (fun target => .binary op target r' type) l₁ e → P (.binary op l r type) e
  unary {op : UnaryOp} {fixity : Fixity} {x x' : Expr} {type : Ty} :
    H (.unary op fixity x type) → op.hasSideEffect = false → Q x x' →
    P (.unary op fixity x type) (.unary op fixity x' type)
  step {op : UnaryOp} {fixity : Fixity} {x x₁ e : Expr} {type : Ty} :
    H (.unary op fixity x type) → op.hasSideEffect = true → Converted A T x x₁ → P x x₁ →
    Guarded A T (fun target => .unary op fixity target type) x₁ e →
    P (.unary op fixity x type) e
  cast {type : Ty} {x x' : Expr} : H (.cast type x) → Q x x' → P (.cast type x) (.cast type x')
  conditional {type : Ty} {c c' a a' b b' : Expr} : H (.conditional type c a b) → Q c c' →
    Q a a' → Q b b' → P (.conditional type c a b) (.conditional type c' a' b')
  notNull {x x' : Expr} : H (.notNull x) → P x x' → P (.notNull x) (.notNull x')
  multi {es es' : List Expr} : (Expr.multi es).Everywhere H →
    List.Forall₂ (Converted A T) es es' → List.Forall₂ P es es' →
    P (.multi es) (.multi (dropRepeated (flatten es')))
  declare {fs fs' : List (Fragment Expr)} : H (.declare fs) →
    List.Forall₂ (Fragment.Rel Q) fs fs' → P (.declare fs) (.declare fs')

namespace ValueCongruence

variable {A : Adjustment} {W : Expr → Expr → Prop} {T : VariableId → Prop} {H : Expr → Prop}
  {P Q : Expr → Expr → Prop}

/-- Relating parts and adjusting them afterwards composes, for each way in which nodes hold their
parts. -/
theorem wrap_option (hP : ValueCongruence A W T H P Q) {q q₁ q₂ : Option Expr}
    (h : Option.Rel P q q₁) (hvalue : Option.Rel W q₁ q₂) : Option.Rel Q q q₂ :=
  optionRel_comp_of_mem h hvalue fun _ _ _ _ => hP.wrap

theorem wrap_list (hP : ValueCongruence A W T H P Q) {es es₁ es₂ : List Expr}
    (h : List.Forall₂ P es es₁) (hvalues : List.Forall₂ W es₁ es₂) : List.Forall₂ Q es es₂ :=
  forall₂_comp_of_mem h hvalues fun _ _ _ _ => hP.wrap

theorem wrap_fragments (hP : ValueCongruence A W T H P Q) {fs fs₁ fs₂ : List (Fragment Expr)}
    (h : List.Forall₂ (Fragment.Rel P) fs fs₁) (hvalues : List.Forall₂ (Fragment.Rel W) fs₁ fs₂) :
    List.Forall₂ (Fragment.Rel Q) fs fs₂ := by
  refine forall₂_comp_of_mem h hvalues fun f _ f₁ f₂ hf hf₁ => ?_
  cases hf with
  | mk hi =>
    cases hf₁ with
    | mk hi₁ => exact .mk (hP.wrap_option hi hi₁)

/-- A value congruence is a congruence: what each rule says about the site only matters as a pair of
related values. -/
theorem congruence (hP : ValueCongruence A W T H P Q) (hA : A.Within W) : Congruence A T H P where
  leaf := hP.leaf
  fieldAccess hH hq hq₂ := hP.fieldAccess hH (hP.wrap_option hq (hA.of_receiver hq₂))
  call hH hq has hq₂ has₂ := hP.call hH (hP.wrap_option hq (hA.of_receiver hq₂))
    (hP.wrap_list has (hA.of_arguments has₂))
  newInstance hH has has₂ := hP.newInstance hH (hP.wrap_list has (hA.of_arguments has₂))
  binary hH hop hl hr hl₂ hr₂ := hP.binary hH hop (hP.wrap hl (hA.of_operandIf hl₂))
    (hP.wrap hr (hA.of_operandIf hr₂))
  assign hH hl hr hr₂ := hP.assign hH hl (hP.wrap hr (hA.of_slot hr₂))
  compound hH hop hconverted hl hr hr₂ hguarded :=
    hP.compound hH hop hconverted hl (hP.wrap hr (hA.of_added hr₂)) hguarded
  unary hH hop hx hx₂ := hP.unary hH hop (hP.wrap hx (hA.of_operand hx₂))
  step hH hop hconverted hx hguarded := hP.step hH hop hconverted hx hguarded
  cast hH hx hx₂ := hP.cast hH (hP.wrap hx (hA.of_cast hx₂))
  conditional hH hc ha hb hc₂ ha₂ hb₂ := hP.conditional hH (hP.wrap hc (hA.of_slot hc₂))
    (hP.wrap ha (hA.of_operandIf ha₂)) (hP.wrap hb (hA.of_operandIf hb₂))
  notNull hH hx := hP.notNull hH hx
  multi := hP.multi
  declare hH hfs hfs₂ := hP.declare hH (hP.wrap_fragments hfs (hA.of_initializers hfs₂))

end ValueCongruence

end Conversion

open Conversion

/-! ## Properties of single nodes -/

/-- Nodes of one kind that differ in their parts at most. -/
inductive Expr.SameNode : Expr → Expr → Prop where
  | fieldAccess {q q' : Option Expr} {f : FieldRef} :
      SameNode (.fieldAccess q f) (.fieldAccess q' f)
  | call {q q' : Option Expr} {target : MethodRef} {as as' : List Expr} :
      SameNode (.call q target as) (.call q' target as')
  | newInstance {target : MethodRef} {as as' : List Expr} :
      SameNode (.newInstance target as) (.newInstance target as')
  | binary {op : BinaryOp} {l l' r r' : Expr} {type : Ty} :
      SameNode (.binary op l r type) (.binary op l' r' type)
  | unary {op : UnaryOp} {fixity : Fixity} {x x' : Expr} {type : Ty} :
      SameNode (.unary op fixity x type) (.unary op fixity x' type)
  | cast {type : Ty} {x x' : Expr} : SameNode (.cast type x) (.cast type x')
  | conditional {type : Ty} {c c' a a' b b' : Expr} :
      SameNode (.conditional type c a b) (.conditional type c' a' b')
  | notNull {x x' : Expr} : SameNode (.notNull x) (.notNull x')
  | declare {fs fs' : List (Fragment Expr)} : SameNode (.declare fs) (.declare fs')

namespace Conversion

/-- A property of nodes that everything new in the result has, if all of the input
has it. -/
structure Inherited (W : Expr → Expr → Prop) (T : VariableId → Prop) (N : Expr → Prop) :
    Prop where
  rebuilt {e e' : Expr} : e.SameNode e' → N e → (∀ c ∈ e'.children, N c) → N e'
  adjusted {e e' : Expr} : W e e' → e.Everywhere N → e'.Everywhere N
  sequence {es : List Expr} : (∀ e ∈ es, N e) → N (.multi es)
  temporary {v : Variable} {q : Expr} : T v.id → v.type = q.type → N q → N (.varRef v)
  binding {v : Variable} {q : Expr} : T v.id → N q → N (.declareOne v (some q))

namespace Inherited

variable {A : Adjustment} {W : Expr → Expr → Prop} {T : VariableId → Prop} {N : Expr → Prop}

/-- A node that is rebuilt from parts with the property has it at every depth. -/
theorem everywhere_rebuilt (h : Inherited W T N) {e e' : Expr} (hsame : e.SameNode e') (he : N e)
    (hchildren : ∀ c ∈ e'.children, c.Everywhere N) : e'.Everywhere N :=
  Expr.everywhere_iff.mpr ⟨h.rebuilt hsame he fun c hc => (hchildren c hc).here, hchildren⟩

/-- A sequence has the property at every depth if its members have. -/
theorem everywhere_multi (h : Inherited W T N) {es : List Expr} (hes : ∀ e ∈ es, e.Everywhere N) :
    (Expr.multi es).Everywhere N :=
  Expr.everywhere_iff.mpr ⟨h.sequence fun e he => (hes e he).here, hes⟩

/-- The declaration of a temporary, and a field of it in the place of the field of
its value. -/
theorem everywhere_bound (h : Inherited W T N) {q : Expr} {f : FieldRef} {v : Variable}
    (htarget : (Expr.fieldAccess (some q) f).Everywhere N) (hv : T v.id) (htype : v.type = q.type) :
    (Expr.declareOne v (some q)).Everywhere N ∧
      (Expr.fieldAccess (some (.varRef v)) f).Everywhere N := by
  have hq : q.Everywhere N := htarget.child (by simp [Expr.children])
  -- A reference has no parts, so the property of the node is all there is.
  have hvar : (Expr.varRef v).Everywhere N :=
    Expr.everywhere_iff.mpr ⟨h.temporary hv htype hq.here, by simp [Expr.children]⟩
  constructor
  · refine Expr.everywhere_iff.mpr ⟨h.binding hv hq.here, fun c hc => ?_⟩
    obtain rfl : c = q := by simpa [Expr.children, Expr.declareOne] using hc
    exact hq
  · refine h.everywhere_rebuilt .fieldAccess htarget.here fun c hc => ?_
    obtain rfl : c = .varRef v := by simpa [Expr.children] using hc
    exact hvar

/-- An update with its checks has the property at every depth, if the update of
any such target has. -/
theorem everywhere_guarded (h : Inherited W T N) (hA : A.Within W) {update : Expr → Expr}
    {target e : Expr} (hguarded : Guarded A T update target e) (htarget : target.Everywhere N)
    (hupdate : ∀ t, t.Everywhere N → (update t).Everywhere N) : e.Everywhere N := by
  cases hguarded with
  | unboxed _ | unchanged _ _ _ => exact hupdate _ htarget
  | checked _ hcheck _ =>
    refine h.everywhere_multi fun c hc => ?_
    simp only [List.mem_cons, List.not_mem_nil, or_false] at hc
    rcases hc with rfl | rfl
    -- The check is an adjusted read of the target.
    · exact h.adjusted (hA.of_required hcheck) htarget
    · exact hupdate _ htarget
  -- The temporary is new, and the target with it in the place of the receiver.
  | bound _ _ hv htype _ _ =>
    obtain ⟨hdeclare, hbound⟩ := h.everywhere_bound htarget hv htype
    refine h.everywhere_multi fun c hc => ?_
    simp only [List.mem_cons, List.not_mem_nil, or_false] at hc
    rcases hc with rfl | rfl
    · exact hdeclare
    · exact hupdate _ hbound
  | boundChecked _ _ hv htype hcheck _ =>
    obtain ⟨hdeclare, hbound⟩ := h.everywhere_bound htarget hv htype
    refine h.everywhere_multi fun c hc => ?_
    simp only [List.mem_cons, List.not_mem_nil, or_false] at hc
    rcases hc with rfl | rfl | rfl
    · exact hdeclare
    · exact h.adjusted (hA.of_required hcheck) hbound
    · exact hupdate _ hbound

/-- The traversal keeps up an inherited property at every depth. -/
theorem congruence (h : Inherited W T N) (hA : A.Within W) :
    ValueCongruence A W T N (fun _ e' => e'.Everywhere N) (fun _ e' => e'.Everywhere N) := by
  -- The relation ignores the input, so it says of a list of results that all have the property.
  have hlist : ∀ {es es' : List Expr}, List.Forall₂ (fun _ e' => e'.Everywhere N) es es' →
      ∀ e ∈ es', e.Everywhere N := by
    intro es es' hes e he
    obtain ⟨_, _, he'⟩ := exists_of_mem_forall₂ hes he
    exact he'
  constructor
  case wrap => exact fun he hvalue => h.adjusted hvalue he
  case leaf =>
    intro e hleaf he
    refine Expr.everywhere_iff.mpr ⟨he, ?_⟩
    rw [Expr.children_of_isLeaf hleaf]
    simp
  case fieldAccess =>
    exact fun he hq => h.everywhere_rebuilt .fieldAccess he (hlist (forall₂_toList hq))
  case call =>
    intro q q' target as as' he hq has
    exact h.everywhere_rebuilt .call he (hlist (List.rel_append (forall₂_toList hq) has))
  case newInstance => exact fun he has => h.everywhere_rebuilt .newInstance he (hlist has)
  case binary =>
    exact fun he _ hl hr =>
      h.everywhere_rebuilt .binary he (by simpa [Expr.children] using ⟨hl, hr⟩)
  case assign =>
    exact fun he hl hr => h.everywhere_rebuilt .binary he (by simpa [Expr.children] using ⟨hl, hr⟩)
  -- The rebuilt update has the new target, whichever this is, in the place of the old one.
  case compound =>
    intro _ _ _ _ _ _ _ he _ _ hl hr hguarded
    refine h.everywhere_guarded hA hguarded hl fun t ht => ?_
    exact h.everywhere_rebuilt .binary he (by simpa [Expr.children] using ⟨ht, hr⟩)
  case unary =>
    exact fun he _ hx => h.everywhere_rebuilt .unary he (by simpa [Expr.children] using hx)
  case step =>
    intro _ _ _ _ _ _ he _ _ hx hguarded
    refine h.everywhere_guarded hA hguarded hx fun t ht => ?_
    exact h.everywhere_rebuilt .unary he (by simpa [Expr.children] using ht)
  case cast => exact fun he hx => h.everywhere_rebuilt .cast he (by simpa [Expr.children] using hx)
  case conditional =>
    intro _ _ _ _ _ _ _ he hc ha hb
    exact h.everywhere_rebuilt .conditional he (by simpa [Expr.children] using ⟨hc, ha, hb⟩)
  case notNull =>
    exact fun he hx => h.everywhere_rebuilt .notNull he (by simpa [Expr.children] using hx)
  -- Flattening only moves members, and leaving out repeated checks only loses some.
  case multi =>
    intro _ es' _ _ hes
    exact h.everywhere_multi fun c hc =>
      everywhere_flatten (hlist hes) c (mem_of_mem_dropRepeated hc)
  -- Initializers are the parts of a declaration.
  case declare =>
    intro _ fs' he hfs
    refine h.everywhere_rebuilt .declare he fun c hc => ?_
    obtain ⟨f', hf', hc⟩ := List.mem_filterMap.mp hc
    obtain ⟨f, _, hff'⟩ := exists_of_mem_forall₂ hfs hf'
    cases hff' with
    | mk hi => exact hlist (forall₂_toList hi) c (Option.mem_toList.mpr hc)

end Inherited

end Conversion

end Lowering
