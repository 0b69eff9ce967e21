import Lowering.Proofs.Conversion.Typing
import Lowering.Proofs.NullSafety.Safe
import Lowering.Proofs.Tree.Idempotence
import Lowering.Proofs.Tree.Sameness

/-!
# When the result of the pass is null-safe

At every site the first traversal puts a value that cannot be null, so nearly all of null
safety is read off the sites. One receiver has no site of its own: an update of a boxed
field whose receiver has effects binds the receiver to a temporary, and from then on only
the type of the temporary says that it is not null. A receiver that is asserted has a type
without null, unless it is of the null type, which no assertion changes. So the result is
null-safe exactly if no update binds a receiver that is left with the null type.

Apart from receivers of the null type itself, such receivers are sequences of type `void`
that end in empty ones: the traversal splices these away, and what comes before decides on
the type (`Expr.splicedType`).

Main statements:

- `NullSafety.pass_nullSafe`: the pass succeeds, and its result is null-safe at every depth
  exactly if the unit has no such update.
- `NullSafety.nullSafe_fails_after_empty`: a unit without receivers of the null type that has
  one.
-/

namespace Lowering

open Conversion

/-! ## Conditions on the input -/

namespace Expr

/-- A member of a value of the null type. -/
def hasNullReceiver : Expr → Bool
  | fieldAccess (some qualifier) _ => qualifier.type.isNullType
  | call (some qualifier) _ _ => qualifier.type.isNullType
  | _ => false

/-- An instance field whose receiver is left with the null type once the sequences in it are
spliced. -/
def splicesToNull : Expr → Bool
  | fieldAccess (some qualifier) target =>
    !target.isStatic && qualifier.splicedType.isNullType
  | _ => false

/-- An update that binds its receiver to a temporary of the null type. -/
def bindsNull (e : Expr) : Bool :=
  e.bindsReceiver && e.updated?.any splicesToNull

/-- A field of a receiver of type `void` in which some sequence ends in an empty one. -/
def hasHollowReceiver : Expr → Bool
  | fieldAccess (some qualifier) _ =>
    qualifier.type == .prim .void && qualifier.subexpressions.any endsInEmpty
  | _ => false

end Expr

theorem Ty.isNullType_iff {t : Ty} : t.isNullType = true ↔ t = .nullType := by
  cases t <;> simp [Ty.isNullType]

/-- If no receiver is of the null type, only a hollow one can be left with it. -/
theorem Expr.splicesToNull_eq_false {e : Expr} (hnull : e.hasNullReceiver = false)
    (hhollow : e.hasHollowReceiver = false) : e.splicesToNull = false := by
  cases e with
  | fieldAccess q f =>
    cases q with
    | none => rfl
    | some q =>
      -- Values keep their types, and a sequence of type `void` does if it is not hollow.
      have hkept : q.splicedType = q.type := by
        by_cases hvoid : q.type = .prim .void
        · refine splicedType_of_endsInEmpty fun x hx => ?_
          simp only [hasHollowReceiver, hvoid, beq_self_eq_true, Bool.true_and,
            List.any_eq_false, Bool.not_eq_true] at hhollow
          exact hhollow x hx
        · exact splicedType_of_value hvoid
      have hnot : q.type.isNullType = false := hnull
      simp [splicesToNull, hkept, hnot]
  | _ => rfl

/-- In terms of receivers alone: no update binds null if no receiver is of the null type or hollow.
Unlike `bindsNull` both conditions can be seen at the field itself. -/
theorem CompilationUnit.binds_no_null {u : CompilationUnit}
    (hnull : u.Everywhere fun e => e.hasNullReceiver = false)
    (hhollow : u.Everywhere fun e => e.hasHollowReceiver = false) :
    u.Everywhere fun e => e.bindsNull = false := by
  intro e he x hx
  cases hupdated : x.updated? with
  | none => simp [Expr.bindsNull, hupdated]
  | some target =>
    have htarget : target ∈ x.children := Expr.mem_children_of_updated hupdated
    have hspliced : target.splicesToNull = false := Expr.splicesToNull_eq_false
      ((Expr.Everywhere.part (hnull e he) hx).child htarget).here
      ((Expr.Everywhere.part (hhollow e he) hx).child htarget).here
    simp [Expr.bindsNull, hupdated, hspliced]

namespace NullSafety

section

variable {Γ : VariableId → Ty} {T : VariableId → Prop}

/-! ## Receivers that are bound -/

/-- Assertions change a type only in that they exclude null, and the null type has nothing
else. -/
theorem Wrapped.type_eq_null_iff {e e' : Expr} (h : Wrapped e e') :
    e'.type = .nullType ↔ e.type = .nullType := by
  cases h with
  | same => exact Iff.rfl
  | asserted =>
    show e.type.toNonNullable = .nullType ↔ e.type = .nullType
    cases e.type <;> simp [Ty.toNonNullable]

/-- An assertion asks its operand whether it is idempotent. -/
theorem Wrapped.isIdempotent {e e' : Expr} (h : Wrapped e e') :
    e'.isIdempotent = e.isIdempotent := by
  cases h <;> rfl

/-- The traversal neither adds effects to an expression without effects nor takes all of them
away. -/
theorem isIdempotent_congruence (T : VariableId → Prop) :
    WrapCongruence T (fun _ => True) (fun e e' => e'.isIdempotent = e.isIdempotent)
      fun e e' => e'.isIdempotent = e.isIdempotent := by
  constructor
  case wrap => exact fun he hwrapped => hwrapped.isIdempotent.trans he
  case leaf => exact fun _ _ => rfl
  case fieldAccess =>
    intro q q' f _ hq
    cases hq with
    | none => rfl
    | some hq => exact hq
  case call => exact fun _ _ _ => rfl
  case newInstance => exact fun _ _ => rfl
  case binary =>
    intro op l l' r r' type _ _ hl hr
    simp only [Expr.isIdempotent, hl, hr]
  case assign => exact fun _ _ _ => rfl
  -- An update has effects, and so has every sequence that it may become.
  case compound =>
    intro op l l₁ r r' e type _ hop _ _ _ hguarded
    have hassign : op.isAssignment = true := by rcases hop with rfl | rfl <;> rfl
    have hresult : e.isIdempotent = false :=
      hguarded.root (R := fun x => x.isIdempotent = false)
        (fun _ => by simp [Expr.isIdempotent, hassign]) fun _ _ => rfl
    simp [hresult, Expr.isIdempotent, hassign]
  case unary =>
    intro op fixity x x' type _ _ hx
    simp only [Expr.isIdempotent, hx]
  case step =>
    intro op fixity x x₁ e type _ hop _ _ hguarded
    have hresult : e.isIdempotent = false :=
      hguarded.root (R := fun x => x.isIdempotent = false)
        (fun _ => by simp [Expr.isIdempotent, hop]) fun _ _ => rfl
    simp [hresult, Expr.isIdempotent, hop]
  case cast => exact fun _ hx => hx
  case conditional =>
    intro type c c' a a' b b' _ hc ha hb
    simp only [Expr.isIdempotent, hc, ha, hb]
  case notNull => exact fun _ hx => hx
  -- Sequences never count as idempotent, whatever is left of them.
  case multi => exact fun _ _ _ => rfl
  case declare => exact fun _ _ => rfl

/-- A field comes from a field, whose receiver has been transformed and perhaps asserted. -/
theorem exists_receiver_of_converted {l q₂ : Expr} {f : FieldRef}
    (h : Converted assertions T l (.fieldAccess (some q₂) f)) :
    ∃ q q₁, l = .fieldAccess (some q) f ∧ Converted assertions T q q₁ ∧ Wrapped q₁ q₂ := by
  cases h with
  | leaf hleaf => cases hleaf
  | fieldAccess hq hq₂ =>
    have hwrapped := wrapped_of_receiver hq₂
    cases hq with
    | none => cases hwrapped
    | some hq =>
      cases hwrapped with
      | some hwrapped => exact ⟨_, _, rfl, hq, hwrapped⟩
  -- An update becomes no field.
  | compound _ _ _ _ hguarded =>
    exact absurd rfl (hguarded.root (R := (· ≠ .fieldAccess (some q₂) f)) nofun nofun)
  | step _ _ hguarded =>
    exact absurd rfl (hguarded.root (R := (· ≠ .fieldAccess (some q₂) f)) nofun nofun)

/-- A field with a receiver becomes one with this receiver, transformed and perhaps asserted. -/
theorem converted_receiver {q target : Expr} {f : FieldRef}
    (h : Converted assertions T (.fieldAccess (some q) f) target) :
    ∃ q₁ q₂, target = .fieldAccess (some q₂) f ∧ Converted assertions T q q₁ ∧ Wrapped q₁ q₂ := by
  cases h with
  | leaf hleaf => cases hleaf
  | fieldAccess hq hq₂ =>
    have hwrapped := wrapped_of_receiver hq₂
    cases hq with
    | some hq =>
      cases hwrapped with
      | some hwrapped => exact ⟨_, _, rfl, hq, hwrapped⟩

/-- If an update of the target binds a receiver that has to be non-null, then not to a
temporary of the null type. -/
def BindsValue (target : Expr) : Prop :=
  ∀ q f, target = .fieldAccess (some q) f → f.type.unboxed?.isSome = true →
    f.isStatic = false → q.isIdempotent = false → q.type ≠ .nullType

/-- An update that binds no receiver has a transformed target that binds none. -/
theorem bindsValue_of_direct {e target target₁ : Expr} (hupdated : e.updated? = some target)
    (h : Converted assertions T target target₁) (hdirect : e.bindsReceiver = false) :
    BindsValue target₁ := by
  rintro q₂ f rfl hboxed _ heffects
  obtain ⟨q, q₁, rfl, hq, hwrapped⟩ := exists_receiver_of_converted h
  -- Whether the receiver has effects is the same before and after the traversal.
  have hidem : q₂.isIdempotent = q.isIdempotent :=
    hwrapped.isIdempotent.trans ((isIdempotent_congruence T).holds hq fun _ _ => trivial)
  have hrepeatable : q.isIdempotent = true :=
    (Expr.bindsReceiver_eq_false hupdated).mp hdirect hboxed
  rw [hidem, hrepeatable] at heffects
  cases heffects

/-- An update that binds a receiver has a boxed field for its target, and the receiver of the
field has effects. -/
theorem exists_receiver_of_binds {e target : Expr} (hupdated : e.updated? = some target)
    (hbinds : e.bindsReceiver = true) :
    ∃ q f, target = .fieldAccess (some q) f ∧ f.type.unboxed?.isSome = true ∧
      q.isIdempotent = false := by
  simp only [Expr.bindsReceiver, hupdated, Option.any_some, Bool.and_eq_true,
    Bool.not_eq_true'] at hbinds
  obtain ⟨hboxed, heffects⟩ := hbinds
  unfold hasRepeatableReceiver at heffects
  -- Only fields with a receiver can be unrepeatable.
  split at heffects
  · exact ⟨_, _, rfl, hboxed, heffects⟩
  · cases heffects

/-- Whether an update binds a receiver of the null type can be told before the traversal. All that
is asked is known beforehand: whether the receiver has effects, and the type that is left of it. -/
theorem bindsValue_iff {e target target₁ : Expr} (hupdated : e.updated? = some target)
    (h : Converted assertions T target target₁) (htyped : target.Everywhere (Expr.Typed Γ)) :
    BindsValue target₁ ↔ e.bindsNull = false := by
  cases hbinds : e.bindsReceiver with
  | false =>
    refine iff_of_true (bindsValue_of_direct hupdated h hbinds) ?_
    rw [Expr.bindsNull, hbinds]
    rfl
  | true =>
    obtain ⟨q, f, rfl, hboxed, heffects⟩ := exists_receiver_of_binds hupdated hbinds
    obtain ⟨q₁, q₂, rfl, hq, hwrapped⟩ := converted_receiver h
    -- The receiver keeps its effects, and its type is the one that is left.
    have hidem : q₂.isIdempotent = false := by
      rw [hwrapped.isIdempotent, (isIdempotent_congruence T).holds hq fun _ _ => trivial]
      exact heffects
    have htype : q₂.type = .nullType ↔ q.splicedType.isNullType = true := by
      rw [hwrapped.type_eq_null_iff, type_of_converted hq (htyped.child List.mem_cons_self),
        Ty.isNullType_iff]
    have hnull : e.bindsNull = (!f.isStatic && q.splicedType.isNullType) := by
      rw [Expr.bindsNull, hbinds, hupdated]
      rfl
    rw [hnull]
    constructor
    · intro hvalue
      cases hstatic : f.isStatic with
      | true => rfl
      | false =>
        have hne : ¬ q.splicedType.isNullType = true :=
          mt htype.mpr (hvalue q₂ f rfl hboxed hstatic hidem)
        simpa using hne
    -- Static fields have been excluded by `hstatic`, so the type decides.
    · rintro hnone _ _ ⟨⟩ _ hstatic _ hq₂null
      rw [hstatic, htype.mp hq₂null] at hnone
      cases hnone

/-! ## Null-safe updates -/

/-- Leaves have no parts that could be null in a wrong place. -/
theorem everywhere_leaf {e : Expr} (hleaf : e.isLeaf = true) : e.Everywhere Expr.NullSafe := by
  refine Expr.everywhere_iff.mpr ?_
  cases e with
  | nullLiteral | boolLiteral | numberLiteral | stringLiteral | thisRef | varRef =>
    exact ⟨trivial, nofun⟩
  | _ => cases hleaf

/-- An assertion asks nothing of its operand. -/
theorem everywhere_wrapped {e e' : Expr} (hwrapped : Wrapped e e')
    (h : e.Everywhere Expr.NullSafe) : e'.Everywhere Expr.NullSafe := by
  cases hwrapped with
  | same => exact h
  | asserted =>
    refine Expr.everywhere_iff.mpr ⟨trivial, fun c hc => ?_⟩
    obtain rfl := List.mem_singleton.mp hc
    exact h

/-- A target whose receiver is held by a temporary of its type is as safe as the target
itself: a receiver with effects is non-null by its type, unless that is the null type. -/
theorem everywhere_bound {q : Expr} {f : FieldRef} {temporary : Variable}
    (h : (Expr.fieldAccess (some q) f).Everywhere Expr.NullSafe)
    (heffects : q.isIdempotent = false) (htype : temporary.type = q.type)
    (hnull : f.isStatic = false → q.type ≠ .nullType) :
    (Expr.fieldAccess (some (.varRef temporary)) f).Everywhere Expr.NullSafe := by
  refine Expr.everywhere_iff.mpr ⟨?safe, ?child⟩
  case safe =>
    intro hstatic e he
    cases he
    have hq : q.canBeNull = false := h.here hstatic q rfl
    show temporary.type.canBeNull = false
    rw [htype]
    -- Only the kinds of values that are non-null against their type need a look.
    cases q with
    | notNull x => exact Ty.canBeNull_toNonNullable (hnull hstatic)
    | newInstance => rfl
    | thisRef | stringLiteral => cases heffects
    | _ => exact hq
  case child =>
    intro c hc
    obtain rfl := List.mem_singleton.mp hc
    exact everywhere_leaf rfl

/-- The declaration of a temporary with a value of its type is safe: a slot that takes no null has a
type without null, and so has the value. -/
theorem everywhere_declareOne {e : Expr} {temporary : Variable} (h : e.Everywhere Expr.NullSafe)
    (htype : temporary.type = e.type) :
    (Expr.declareOne temporary (some e)).Everywhere Expr.NullSafe := by
  refine Expr.everywhere_iff.mpr ⟨?_, ?_⟩
  · intro f hf e' he' hslot
    obtain rfl := List.mem_singleton.mp hf
    cases he'
    have hnull : temporary.type.canBeNull = false := hslot.1.elim id id
    -- The slot has the type of the value, so a value that can be null contradicts it.
    by_contra hcan
    have htrue := Expr.canBeNull_type (Bool.not_eq_false _ ▸ hcan)
    rw [htype, htrue] at hnull
    cases hnull
  · intro c hc
    obtain rfl := List.mem_singleton.mp hc
    exact h

/-- A sequence asks nothing of its members. -/
theorem everywhere_multi {es : List Expr} (h : ∀ e ∈ es, e.Everywhere Expr.NullSafe) :
    (Expr.multi es).Everywhere Expr.NullSafe :=
  Expr.everywhere_iff.mpr ⟨trivial, h⟩

/-- An update with its checks is safe when the update of any such target is, and nothing of
the null type is bound. -/
theorem everywhere_guarded {update : Expr → Expr} {target e : Expr}
    (hguarded : Guarded assertions T update target e) (h : target.Everywhere Expr.NullSafe)
    (hbinds : BindsValue target)
    (hupdate : ∀ t, t.Everywhere Expr.NullSafe → t.type = target.type →
      targetDeclaredType t = targetDeclaredType target → (update t).Everywhere Expr.NullSafe) :
    e.Everywhere Expr.NullSafe := by
  cases hguarded with
  | unboxed _ | unchanged _ _ _ => exact hupdate _ h rfl rfl
  | checked _ hcheck _ =>
    refine everywhere_multi fun e he => ?_
    simp only [List.mem_cons, List.not_mem_nil, or_false] at he
    rcases he with rfl | rfl
    · exact everywhere_wrapped (wrapped_of_required hcheck) h
    · exact hupdate _ h rfl rfl
  -- The temporary stands in for the receiver, and is as safe if its type tells so.
  | bound hboxed heffects _ htype _ _ =>
    have hq := everywhere_declareOne (h.child List.mem_cons_self) htype
    have ht := everywhere_bound h heffects htype fun hstatic =>
      hbinds _ _ rfl hboxed hstatic heffects
    refine everywhere_multi fun e he => ?_
    simp only [List.mem_cons, List.not_mem_nil, or_false] at he
    rcases he with rfl | rfl
    · exact hq
    · exact hupdate _ ht rfl rfl
  | boundChecked hboxed heffects _ htype hcheck _ =>
    have hq := everywhere_declareOne (h.child List.mem_cons_self) htype
    have ht := everywhere_bound h heffects htype fun hstatic =>
      hbinds _ _ rfl hboxed hstatic heffects
    refine everywhere_multi fun e he => ?_
    simp only [List.mem_cons, List.not_mem_nil, or_false] at he
    rcases he with rfl | rfl | rfl
    · exact hq
    -- The check is an assertion, which asks nothing.
    · exact everywhere_wrapped (wrapped_of_required hcheck) ht
    · exact hupdate _ ht rfl rfl

/-! ## All kinds of expressions -/

/-- What the proof needs of every node of the input: an update binds no receiver, or one that
is not left with the null type. -/
def Admissible (Γ : VariableId → Ty) (e : Expr) : Prop :=
  e.bindsReceiver = false ∨ e.Everywhere (Expr.Typed Γ) ∧ e.bindsNull = false

/-- Admissible updates bind values only. The two alternatives are for the two uses: units that a run
leaves unchanged bind nothing, and coherent units are typed. -/
theorem Admissible.bindsValue {e target target₁ : Expr} (he : Admissible Γ e)
    (hupdated : e.updated? = some target) (htarget : target ∈ e.children)
    (h : Converted assertions T target target₁) : BindsValue target₁ := by
  rcases he with hdirect | ⟨htyped, hnull⟩
  · exact bindsValue_of_direct hupdated h hdirect
  · exact (bindsValue_iff hupdated h (htyped.child htarget)).mpr hnull

/-- All members of a list are safe if those are that they are made of. -/
theorem everywhere_of_wrapped {es es₁ es₂ : List Expr}
    (h : List.Forall₂ (fun _ e' => e'.Everywhere Expr.NullSafe) es es₁)
    (hwrapped : List.Forall₂ Wrapped es₁ es₂) : ∀ e ∈ es₂, e.Everywhere Expr.NullSafe := by
  intro e he
  obtain ⟨e₁, he₁, hwrap⟩ := exists_of_mem_forall₂ hwrapped he
  obtain ⟨_, _, hsafe⟩ := exists_of_mem_forall₂ h he₁
  exact everywhere_wrapped hwrap hsafe

/-- Assertions neither box nor unbox. -/
theorem Wrapped.isPrimitive {e e' : Expr} (h : Wrapped e e') :
    e'.type.isPrimitive = e.type.isPrimitive := by
  cases h with
  | same => rfl
  | asserted => exact Ty.isPrimitive_toNonNullable _

/-- The operands of an operation that does not write are unboxed where null is not
allowed. -/
theorem operandsSafe {op : BinaryOp} {l₁ l₂ r₁ r₂ : Expr} {type : Ty}
    (hop : op.isAssignment = false)
    (hl : assertions.OperandIf (unboxesBeside op type r₁) l₁ l₂)
    (hr : assertions.OperandIf (unboxesBeside op type l₁) r₁ r₂) :
    Expr.OperandsSafe op l₂ r₂ type := by
  -- What decided on the adjustment was the other side as it was before its own.
  have hlp := (wrapped_of_operandIf hl).isPrimitive
  have hrp := (wrapped_of_operandIf hr).isPrimitive
  cases op with
  | assign | plusAssign | minusAssign => cases hop
  -- The rule asks the type of the other side before its adjustment, null safety asks after it.
  | equals | notEquals =>
    refine ⟨fun hprim => canBeNull_of_operandIf hl ?_, fun hprim => canBeNull_of_operandIf hr ?_⟩
    · exact hrp.symm.trans hprim
    · exact hlp.symm.trans hprim
  | plus =>
    intro hprim
    exact ⟨canBeNull_of_operandIf hl hprim, canBeNull_of_operandIf hr hprim⟩
  | _ => exact ⟨canBeNull_of_operandIf hl rfl, canBeNull_of_operandIf hr rfl⟩

/-- An operation is safe if its operands are and stand where they may. -/
theorem everywhere_binary {op : BinaryOp} {l r : Expr} {type : Ty}
    (hl : l.Everywhere Expr.NullSafe) (hr : r.Everywhere Expr.NullSafe)
    (hsafe : Expr.OperandsSafe op l r type) :
    (Expr.binary op l r type).Everywhere Expr.NullSafe := by
  refine Expr.everywhere_iff.mpr ⟨hsafe, fun c hc => ?_⟩
  simp only [Expr.children, List.mem_cons, List.not_mem_nil, or_false] at hc
  rcases hc with rfl | rfl
  · exact hl
  · exact hr

/-- The right side of `+=` or `-=` is safe beside every target that agrees with
the transformed one in its types. -/
theorem operandsSafe_compound {op : BinaryOp} {l t r₁ r₂ : Expr} {type : Ty}
    (hop : op = .plusAssign ∨ op = .minusAssign) (hr : assertions.AddedValue l r₁ r₂)
    (htype : t.type = l.type) (hdeclared : targetDeclaredType t = targetDeclaredType l) :
    Expr.OperandsSafe op t r₂ type := by
  have hsafe : if t.type.unboxed?.isSome then r₂.canBeNull = false
      else TakesNoNull t.type (targetDeclaredType t) → r₂.canBeNull = false := by
    -- The slot is that of the target in the input of the site.
    rw [htype, hdeclared]
    unfold Adjustment.AddedValue at hr
    split
    · rw [if_pos ‹_›] at hr
      exact canBeNull_of_operand hr
    · rw [if_neg ‹_›] at hr
      exact canBeNull_of_slot hr
  rcases hop with rfl | rfl <;> exact hsafe

/-- Every initializer is a value of the slot that its variable is. -/
theorem everywhere_declare {fs fs₁ fs₂ : List (Fragment Expr)}
    (hfs : List.Forall₂ (Fragment.Rel fun _ e' => e'.Everywhere Expr.NullSafe) fs fs₁)
    (hfs₂ : List.Forall₂ assertions.InitializerValue fs₁ fs₂) :
    (Expr.declare fs₂).Everywhere Expr.NullSafe := by
  refine Expr.everywhere_iff.mpr ⟨?safe, ?children⟩
  case safe =>
    intro f₂ hf₂ e he hslot
    obtain ⟨f₁, _, hvalue⟩ := exists_of_mem_forall₂ hfs₂ hf₂
    cases hvalue with
    | absent => cases he
    | value hvalue =>
      cases he
      exact canBeNull_of_slot hvalue hslot
  case children =>
    intro e he
    obtain ⟨f₂, hf₂, he⟩ := List.mem_filterMap.mp he
    obtain ⟨f₁, hf₁, hvalue⟩ := exists_of_mem_forall₂ hfs₂ hf₂
    obtain ⟨f, _, hrelated⟩ := exists_of_mem_forall₂ hfs hf₁
    -- The initializer is adjusted after it has been transformed, and an adjustment keeps it safe.
    cases hvalue with
    | absent => cases he
    | value hvalue =>
      cases he
      cases hrelated with
      | mk hi =>
        cases hi with
        | some hi => exact everywhere_wrapped (wrapped_of_slot hvalue) hi

/-- The traversal makes safe nodes of admissible ones. In each case the site says that the part
cannot be null, and the induction that the part is safe in itself. -/
theorem nullSafe_congruence (Γ : VariableId → Ty) (T : VariableId → Prop) :
    Congruence assertions T (Admissible Γ) fun _ e' => e'.Everywhere Expr.NullSafe where
  leaf hleaf _ := everywhere_leaf hleaf
  fieldAccess _ hq hq₂ := Expr.everywhere_iff.mpr ⟨canBeNull_of_receiver hq₂,
    everywhere_of_wrapped (forall₂_toList hq) (forall₂_toList (wrapped_of_receiver hq₂))⟩
  call _ hq has hq₂ has₂ := by
    refine Expr.everywhere_iff.mpr ⟨⟨canBeNull_of_receiver hq₂, argumentsSafe has₂⟩, fun c hc => ?_⟩
    rcases List.mem_append.mp hc with hc | hc
    · exact everywhere_of_wrapped (forall₂_toList hq)
        (forall₂_toList (wrapped_of_receiver hq₂)) c hc
    · exact everywhere_of_wrapped has (wrapped_of_arguments has₂) c hc
  newInstance _ has has₂ := Expr.everywhere_iff.mpr ⟨argumentsSafe has₂,
    everywhere_of_wrapped has (wrapped_of_arguments has₂)⟩
  binary _ hop hl hr hl₂ hr₂ :=
    everywhere_binary (everywhere_wrapped (wrapped_of_operandIf hl₂) hl)
      (everywhere_wrapped (wrapped_of_operandIf hr₂) hr) (operandsSafe hop hl₂ hr₂)
  assign _ hl hr hr₂ :=
    everywhere_binary hl (everywhere_wrapped (wrapped_of_slot hr₂) hr) (canBeNull_of_slot hr₂)
  -- Updates are the only nodes that make use of the condition on the input.
  compound {op l _ r _ r₂ _ type} he hop hconverted hl hr hr₂ hguarded := by
    have hbinds := he.bindsValue ((isUpdate_compound hop r type).updated l) List.mem_cons_self
      hconverted
    refine everywhere_guarded hguarded hl hbinds fun t ht htype hdeclared => ?_
    exact everywhere_binary ht (everywhere_wrapped (wrapped_of_added hr₂) hr)
      (operandsSafe_compound hop hr₂ htype hdeclared)
  unary _ _ hx hx₂ := by
    refine Expr.everywhere_iff.mpr ⟨fun _ => canBeNull_of_operand hx₂, fun c hc => ?_⟩
    obtain rfl := List.mem_singleton.mp hc
    exact everywhere_wrapped (wrapped_of_operand hx₂) hx
  step {op fixity x _ _ type} he hop hconverted hx hguarded := by
    have hbinds := he.bindsValue ((isUpdate_step hop fixity type).updated x) List.mem_cons_self
      hconverted
    refine everywhere_guarded hguarded hx hbinds fun t ht _ _ => ?_
    refine Expr.everywhere_iff.mpr ⟨fun hpure => ?_, fun c hc => ?_⟩
    -- A step asks nothing of its target, which has its check.
    · rw [hop] at hpure
      cases hpure
    · obtain rfl := List.mem_singleton.mp hc
      exact ht
  cast {type _ _ _} _ hx hx₂ := by
    refine Expr.everywhere_iff.mpr ⟨fun hprim => ?_, fun c hc => ?_⟩
    · unfold Adjustment.CastValue at hx₂
      rw [if_pos hprim] at hx₂
      cases type with
      | prim p => exact canBeNull_of_primitive_slot hx₂
      | _ => cases hprim
    · obtain rfl := List.mem_singleton.mp hc
      exact everywhere_wrapped (wrapped_of_cast hx₂) hx
  conditional _ hc ha hb hc₂ ha₂ hb₂ := by
    refine Expr.everywhere_iff.mpr ⟨⟨canBeNull_of_primitive_slot hc₂, fun hprim =>
      ⟨canBeNull_of_operandIf ha₂ hprim, canBeNull_of_operandIf hb₂ hprim⟩⟩, fun x hx => ?_⟩
    simp only [Expr.children, List.mem_cons, List.not_mem_nil, or_false] at hx
    rcases hx with rfl | rfl | rfl
    · exact everywhere_wrapped (wrapped_of_slot hc₂) hc
    · exact everywhere_wrapped (wrapped_of_operandIf ha₂) ha
    · exact everywhere_wrapped (wrapped_of_operandIf hb₂) hb
  notNull _ hx := everywhere_wrapped (.asserted _) hx
  -- Members that are left out need not be safe.
  multi _ _ hes := by
    refine everywhere_multi fun e he => everywhere_flatten ?_ e (mem_of_mem_dropRepeated he)
    intro e he
    obtain ⟨_, _, hsafe⟩ := exists_of_mem_forall₂ hes he
    exact hsafe
  declare _ hfs hfs₂ := everywhere_declare hfs hfs₂

/-! ## Assert messages -/

/-- A value that is not known to be non-null is a reference. -/
theorem not_primitive_of_unknown {e : Expr} (h : e.isKnownNonNull = false) :
    e.type.isPrimitive = false := by
  by_contra hprim
  have hprim' : e.type.isPrimitive = true := by simpa using hprim
  have hnull := Expr.canBeNull_of_primitive hprim'
  cases ht : e.type <;> simp_all [Expr.isKnownNonNull, Ty.isPrimitive, Ty.isNonNullWildcard]

/-- The choice between a value and the default; its parts are safe because
neither the value nor `null` is primitive. -/
theorem everywhere_nullChoice {type : Ty} {e : Expr} (h : e.Everywhere Expr.NullSafe)
    (hprim : e.type.isPrimitive = false) (htype : type.isPrimitive = false) :
    (nullChoice type e messageDefault).Everywhere Expr.NullSafe := by
  have hequals : e.equalsNull.Everywhere Expr.NullSafe := by
    refine Expr.everywhere_iff.mpr ⟨⟨?_, ?_⟩, fun c hc => ?_⟩
    · intro hnull
      cases hnull
    · rw [hprim]
      intro hprim
      cases hprim
    · simp only [Expr.equalsNull, Expr.operation, Expr.children, List.mem_cons, List.not_mem_nil,
        or_false] at hc
      rcases hc with rfl | rfl
      · exact h
      · exact everywhere_leaf rfl
  -- The branches may be null, since the choice is of a reference type.
  refine Expr.everywhere_iff.mpr ⟨⟨rfl, ?_⟩, fun c hc => ?_⟩
  · rw [htype]
    intro hprim
    cases hprim
  · simp only [nullChoice, Expr.children, List.mem_cons, List.not_mem_nil, or_false] at hc
    rcases hc with rfl | rfl | rfl
    · exact hequals
    · exact everywhere_leaf rfl
    · exact h

/-- A message with its default is safe and no longer null: it was known to be non-null, or
the choice has the type of the default. -/
theorem everywhere_defaulted {type : Ty} {e e' : Expr} (h : Defaulted type T e e')
    (he : e.Everywhere Expr.NullSafe) (hprim : type.isPrimitive = false)
    (hnull : type.canBeNull = false) : e'.Everywhere Expr.NullSafe ∧ e'.canBeNull = false := by
  cases h with
  | known hknown =>
    simp only [Expr.isKnownNonNull, Bool.and_eq_true, Bool.not_eq_true'] at hknown
    exact ⟨he, hknown.1⟩
  | null _ => exact ⟨everywhere_leaf rfl, rfl⟩
  | choice hunknown _ =>
    refine ⟨everywhere_multi fun c hc => ?_, hnull⟩
    obtain rfl := List.mem_singleton.mp hc
    exact everywhere_nullChoice he (not_primitive_of_unknown hunknown) hprim
  | @bound temporary hunknown _ _ htype =>
    refine ⟨everywhere_multi fun c hc => ?_, hnull⟩
    simp only [List.mem_cons, List.not_mem_nil, or_false] at hc
    rcases hc with rfl | rfl
    · exact everywhere_declareOne he htype
    -- The temporary has the type of the message.
    · refine everywhere_nullChoice (everywhere_leaf rfl) ?_ hprim
      show temporary.type.isPrimitive = false
      rw [htype]
      exact not_primitive_of_unknown hunknown

/-! ## Units -/

/-- Every expression of an admissible unit is made safe, in whatever role it stands. -/
theorem everywhere_of_step {type : Ty} (hprim : type.isPrimitive = false)
    (hnull : type.canBeNull = false) (e e' : Expr) (he : e.Everywhere (Admissible Γ))
    (h : (steps type T).Any e e') : e'.Everywhere Expr.NullSafe := by
  obtain ⟨e₁, hconverted, hwrapped | hdefault⟩ := converted_of_step h
  · exact everywhere_wrapped hwrapped ((nullSafe_congruence Γ T).holds hconverted he)
  · exact (everywhere_defaulted hdefault ((nullSafe_congruence Γ T).holds hconverted he)
      hprim hnull).1

/-- What the pass makes of an admissible unit is null-safe: the parts of expressions by the
induction above, and what stands in a statement or a field because of its role there. -/
theorem safe_of_related {type : Ty} (hprim : type.isPrimitive = false)
    (hnull : type.canBeNull = false) {u u' : CompilationUnit}
    (h : CompilationUnit.Related (steps type T) u u') (hu : u.Everywhere (Admissible Γ)) :
    u'.NullSafe where
  expressions := h.everywhere (everywhere_of_step hprim hnull) hu
  statements d' hd' s' hs' := by
    obtain ⟨d, hd, hrelated⟩ := exists_of_mem_forall₂ h.methods hd'
    obtain ⟨s, hs, hss'⟩ := exists_of_mem_forall₂ hrelated.statements hs'
    rw [hrelated.ref]
    -- One case for each kind of statement, by the role that its expressions have.
    cases hss' with
    | expression _ | block _ => trivial
    | returnValue hv =>
      intro e' he' hslot
      cases hv with
      | none => cases he'
      | some hv =>
        cases he'
        obtain ⟨_, _, hvalue⟩ := hv
        exact canBeNull_of_slot hvalue hslot
    | conditional hc _ _ | whileLoop hc _ =>
      obtain ⟨_, _, hvalue⟩ := hc
      exact canBeNull_of_primitive_slot hvalue
    | forLoop _ hc _ _ =>
      intro e' he'
      cases hc with
      | none => cases he'
      | some hc =>
        cases he'
        obtain ⟨_, _, hvalue⟩ := hc
        exact canBeNull_of_primitive_slot hvalue
    | @assertion c _ m _ span hc hm =>
      obtain ⟨_, _, hvalue⟩ := hc
      refine ⟨canBeNull_of_primitive_slot hvalue, fun e' he' => ?_⟩
      cases hm with
      | none => cases he'
      | @some e _ hm =>
        cases he'
        obtain ⟨e₁, hconverted, hdefault⟩ := hm
        -- The only role that depends on what the transformed expression is like.
        have hmem : e ∈ u.expressions :=
          CompilationUnit.mem_expressions_of_statement hd hs (by simp [Stmt.expressions])
        exact (everywhere_defaulted hdefault
          ((nullSafe_congruence Γ T).holds hconverted (hu e hmem)) hprim hnull).2
    | throwValue hv =>
      obtain ⟨_, _, hvalue⟩ := hv
      exact canBeNull_of_required hvalue
  fields f' hf' e' he' hslot := by
    obtain ⟨f, _, hrelated⟩ := exists_of_mem_forall₂ h.fields hf'
    rw [hrelated.ref] at hslot
    obtain ⟨_, _, _, _, hvalue⟩ :=
      exists_of_mem_forall₂ (forall₂_toList hrelated.initializer) (Option.mem_toList.mpr he')
    exact canBeNull_of_slot hvalue hslot

/-! ## Necessity -/

/-- The target of an update is safe. Of the null safety of a result, this is what leads back to
its input. -/
def UpdatesSafely (e : Expr) : Prop :=
  ∀ target, e.updated? = some target → target.NullSafe

theorem updatesSafely_of_updated_none {e : Expr} (h : e.updated? = none) : UpdatesSafely e := by
  intro target hupdated
  rw [h] at hupdated
  cases hupdated

/-- Targets are parts, so a safe tree updates safely. -/
theorem everywhere_updatesSafely {e : Expr} (h : e.Everywhere Expr.NullSafe) :
    e.Everywhere UpdatesSafely := by
  intro x hx target hupdated
  exact ((h.part hx).child (Expr.mem_children_of_updated hupdated)).here

/-- An expression without effects has no update in it. -/
theorem updatesSafely_of_isIdempotent {e : Expr} (h : e.isIdempotent = true) :
    e.Everywhere UpdatesSafely := by
  refine ((Expr.isIdempotent_iff_everywhere e).mp h).imp fun x hx target hupdated => ?_
  unfold Expr.updated? at hupdated
  split at hupdated <;> first | cases hupdated; done | cases hx

theorem bindsNull_of_updated_none {e : Expr} (h : e.updated? = none) : e.bindsNull = false := by
  simp [Expr.bindsNull, h]

/-- An update with its checks shows that a receiver which was bound was not of the null type:
the type of the temporary tells. -/
theorem bindsValue_of_guarded {update : Expr → Expr} {others : List Expr} {target e : Expr}
    (hupdate : IsUpdate update others) (hguarded : Guarded assertions T update target e)
    (h : e.Everywhere UpdatesSafely) : BindsValue target := by
  -- The temporary of a receiver of the null type could be null.
  have hbound : ∀ {q : Expr} {f : FieldRef} {temporary : Variable}, temporary.type = q.type →
      (update (.fieldAccess (some (.varRef temporary)) f)).Everywhere UpdatesSafely →
      BindsValue (.fieldAccess (some q) f) := by
    rintro q f temporary htype hsafe _ _ ⟨⟩ _ hstatic _ hnull
    have htemporary : temporary.type.canBeNull = false :=
      hsafe.here _ (hupdate.updated _) hstatic _ rfl
    rw [htype, hnull] at htemporary
    cases htemporary
  cases hguarded with
  | unboxed hnone =>
    rintro q f rfl hboxed _ _
    have hunboxed : f.type.unboxed? = none := hnone
    rw [hunboxed] at hboxed
    cases hboxed
  | unchanged hrepeatable _ _ | checked hrepeatable _ _ =>
    rintro q f rfl _ _ heffects
    rw [hasRepeatableReceiver, heffects] at hrepeatable
    cases hrepeatable
  | bound _ _ _ htype _ _ => exact hbound htype (h.child (by simp [Expr.children]))
  | boundChecked _ _ _ htype _ _ => exact hbound htype (h.child (by simp [Expr.children]))

/-- The parts of an update stand in what the update becomes. -/
theorem parts_of_guarded {update : Expr → Expr} {others : List Expr} {target e : Expr}
    (hupdate : IsUpdate update others) (hguarded : Guarded assertions T update target e)
    (h : e.Everywhere UpdatesSafely) :
    target.Everywhere UpdatesSafely ∧ ∀ x ∈ others, x.Everywhere UpdatesSafely := by
  have hothers : ∀ {t : Expr}, (update t).Everywhere UpdatesSafely →
      ∀ x ∈ others, x.Everywhere UpdatesSafely := fun ht x hx => by
    refine ht.child ?_
    rw [hupdate.children]
    exact List.mem_cons_of_mem _ hx
  have htarget : ∀ {t : Expr}, (update t).Everywhere UpdatesSafely →
      t.Everywhere UpdatesSafely := fun {t} ht => by
    refine ht.child ?_
    rw [hupdate.children]
    exact List.mem_cons_self
  -- A receiver that was bound is the initializer of its temporary.
  have hfield : ∀ {q : Expr} {f : FieldRef} {temporary : Variable},
      (Expr.declareOne temporary (some q)).Everywhere UpdatesSafely →
      (Expr.fieldAccess (some q) f).Everywhere UpdatesSafely := fun {q _ _} hdeclare => by
    refine Expr.everywhere_iff.mpr ⟨updatesSafely_of_updated_none rfl, fun c hc => ?_⟩
    obtain rfl := List.mem_singleton.mp hc
    exact hdeclare.child List.mem_cons_self
  cases hguarded with
  | unboxed _ | unchanged _ _ _ => exact ⟨htarget h, hothers h⟩
  | checked _ _ _ =>
    have hlast := h.child (List.mem_cons_of_mem _ List.mem_cons_self)
    exact ⟨htarget hlast, hothers hlast⟩
  | bound _ _ _ _ _ _ =>
    exact ⟨hfield (h.child List.mem_cons_self),
      hothers (h.child (List.mem_cons_of_mem _ List.mem_cons_self))⟩
  | boundChecked _ _ _ _ _ _ =>
    exact ⟨hfield (h.child List.mem_cons_self),
      hothers (h.child (List.mem_cons_of_mem _ (List.mem_cons_of_mem _ List.mem_cons_self)))⟩

/-- Whatever updates safely in the result has bound nothing of the null type in the input. -/
def ShowsValues (e e' : Expr) : Prop :=
  e'.Everywhere UpdatesSafely → e.Everywhere fun x => x.bindsNull = false

/-- A node that is no update shows what its parts show. -/
theorem ShowsValues.node {e e' : Expr} (hupdated : e.updated? = none)
    (hchildren : List.Forall₂ ShowsValues e.children e'.children) : ShowsValues e e' := by
  refine fun h => Expr.everywhere_iff.mpr ⟨bindsNull_of_updated_none hupdated, fun c hc => ?_⟩
  obtain ⟨c', hc', hshows⟩ := exists_of_mem_forall₂ hchildren.flip hc
  exact hshows (h.child hc')

/-- A spliced sequence without its repeated checks shows what its members show: the checks that
are missing have no effects. -/
theorem ShowsValues.multi {es es' : List Expr} (h : List.Forall₂ ShowsValues es es') :
    ShowsValues (.multi es) (.multi (dropRepeated (flatten es'))) := by
  refine fun hsafe => Expr.everywhere_iff.mpr ⟨rfl, fun c hc => ?_⟩
  obtain ⟨c', hc', hshows⟩ := exists_of_mem_forall₂ h.flip hc
  have hmembers : ∀ x ∈ c'.members, x.Everywhere UpdatesSafely := fun x hx => by
    have hflat : x ∈ flatten es' := by
      rw [flatten_eq_flatMap]
      exact List.mem_flatMap.mpr ⟨c', hc', hx⟩
    rcases mem_dropRepeated_or_isIdempotent hflat with hkept | hidem
    · exact hsafe.child hkept
    · exact updatesSafely_of_isIdempotent hidem
  apply hshows
  -- A sequence was spliced in member by member, anything else is its own only member.
  cases c' with
  | multi cs => exact Expr.everywhere_iff.mpr ⟨updatesSafely_of_updated_none rfl, hmembers⟩
  | _ => exact hmembers _ List.mem_cons_self

/-- An update shows that it binds nothing of the null type. -/
theorem ShowsValues.update {update update' : Expr → Expr} {others others' : List Expr}
    {target target₁ e : Expr} (hupdate : IsUpdate update others)
    (hupdate' : IsUpdate update' others') (htyped : target.Everywhere (Expr.Typed Γ))
    (hconverted : Converted assertions T target target₁) (htarget : ShowsValues target target₁)
    (hothers : List.Forall₂ ShowsValues others others')
    (hguarded : Guarded assertions T update' target₁ e) : ShowsValues (update target) e := by
  intro h
  obtain ⟨htargetSafe, hothersSafe⟩ := parts_of_guarded hupdate' hguarded h
  refine Expr.everywhere_iff.mpr ⟨?_, fun c hc => ?_⟩
  -- The temporary tells the type of the receiver.
  · exact (bindsValue_iff (hupdate.updated target) hconverted htyped).mp
      (bindsValue_of_guarded hupdate' hguarded h)
  · rw [hupdate.children] at hc
    rcases List.mem_cons.mp hc with rfl | hc
    · exact htarget htargetSafe
    · obtain ⟨c', hc', hshows⟩ := exists_of_mem_forall₂ hothers.flip hc
      exact hshows (hothersSafe c' hc')

/-- The induction for the other direction: what the result shows of updates, from the parts of a
node to the node. Each part of the input is found again in the result, transformed. -/
theorem showsValues_congruence (Γ : VariableId → Ty) (T : VariableId → Prop) :
    WrapCongruence T (fun e => e.Everywhere (Expr.Typed Γ)) ShowsValues ShowsValues := by
  constructor
  case wrap =>
    intro e e₁ e₂ he hwrapped h
    cases hwrapped with
    | same => exact he h
    | asserted => exact he (h.child List.mem_cons_self)
  case leaf =>
    intro e hleaf _
    refine .node ?_ ?_
    · cases e <;> first | rfl | cases hleaf
    · rw [Expr.children_of_isLeaf hleaf]
      exact .nil
  case fieldAccess => exact fun _ hq => .node rfl (forall₂_toList hq)
  case call => exact fun _ hq has => .node rfl (List.rel_append (forall₂_toList hq) has)
  case newInstance => exact fun _ has => .node rfl has
  case binary =>
    intro op l l' r r' type _ hop hl hr
    refine .node ?_ (.cons hl (.cons hr .nil))
    cases op <;> first | rfl | cases hop
  case assign => exact fun _ hl hr => .node rfl (.cons hl (.cons hr .nil))
  case compound =>
    intro op l l₁ r r' e type htyped hop hconverted hl hr hguarded
    exact .update (isUpdate_compound hop r type) (isUpdate_compound hop r' type)
      (htyped.child List.mem_cons_self) hconverted hl (.cons hr .nil) hguarded
  case unary =>
    intro op fixity x x' type _ hop hx
    refine .node ?_ (.cons hx .nil)
    cases op <;> first | rfl | cases hop
  case step =>
    intro op fixity x x₁ e type htyped hop hconverted hx hguarded
    exact .update (isUpdate_step hop fixity type) (isUpdate_step hop fixity type)
      (htyped.child List.mem_cons_self) hconverted hx .nil hguarded
  case cast => exact fun _ hx => .node rfl (.cons hx .nil)
  case conditional => exact fun _ hc ha hb => .node rfl (.cons hc (.cons ha (.cons hb .nil)))
  case notNull => exact fun _ hx => .node rfl (.cons hx .nil)
  case multi => exact fun _ _ hes => .multi hes
  case declare =>
    intro fs fs' _ hfs
    refine .node rfl ?_
    show List.Forall₂ ShowsValues (fs.filterMap _) (fs'.filterMap _)
    rw [List.filterMap_eq_flatMap_toList, List.filterMap_eq_flatMap_toList]
    refine List.rel_flatMap hfs fun f f' hf => ?_
    cases hf with
    | mk hi => exact forall₂_toList hi

/-- A message with its default still has all of the message in it, unless that was `null`. -/
theorem ShowsValues.defaulted {type : Ty} {e e₁ e' : Expr} (he : ShowsValues e e₁)
    (h : Defaulted type T e₁ e') : ShowsValues e e' := by
  intro hsafe
  apply he
  cases h with
  | known _ => exact hsafe
  | null hnull =>
    cases e₁ with
    | nullLiteral type => exact updatesSafely_of_isIdempotent rfl
    | _ => cases hnull
  | choice _ hidem => exact updatesSafely_of_isIdempotent hidem
  -- The message is the initializer of its temporary.
  | bound _ _ _ _ => exact (hsafe.child List.mem_cons_self).child List.mem_cons_self

/-- If the result updates safely, the input binds nothing of the null type. Each expression of the
input has a result, and this shows it. -/
theorem values_of_related {type : Ty} {u u' : CompilationUnit}
    (h : CompilationUnit.Related (steps type T) u u') (htyped : u.Everywhere (Expr.Typed Γ))
    (hsafe : u'.Everywhere Expr.NullSafe) : u.Everywhere fun e => e.bindsNull = false := by
  intro e he
  obtain ⟨e', he', hstep⟩ := exists_of_mem_forall₂ h.expressions.flip he
  have hshows : ShowsValues e e' := (showsValues_congruence Γ T).of_step
    (fun h hdefault => h.defaulted hdefault) hstep fun x hx => (htyped e he).part hx
  exact hshows (everywhere_updatesSafely (hsafe e' he'))

/-- Whether the result of a typed unit is null-safe can be told from the unit. -/
theorem nullSafe_iff_of_related {u u' : CompilationUnit}
    (h : CompilationUnit.Related (steps Known.object.toNonNullable T) u u')
    (htyped : u.Everywhere (Expr.Typed Γ)) :
    u'.NullSafe ↔ u.Everywhere fun e => e.bindsNull = false := by
  refine ⟨fun hsafe => values_of_related h htyped hsafe.expressions, fun hvalues => ?_⟩
  refine safe_of_related (Γ := Γ) rfl rfl h fun e he x hx => ?_
  exact .inr ⟨(htyped e he).part hx, hvalues e he x hx⟩

end

/-! ## The pass -/

/-- The pass succeeds. Its result is null-safe at every depth exactly if no update of the unit
binds a receiver that is left with the null type. -/
theorem pass_nullSafe (u : CompilationUnit) (context : PassContext) (hcoherent : u.Coherent) :
    ∃ u' context', pass.apply u context = (.ok u', context') ∧
      (u'.NullSafe ↔ u.Everywhere fun e => e.bindsNull = false) := by
  obtain ⟨Γ, htyped⟩ := hcoherent.typed
  obtain ⟨context', happly⟩ := pass_apply u context
  have hrelated := run_related Known.object.toNonNullable context.problems context.supply u
  exact ⟨_, context', happly, nullSafe_iff_of_related hrelated htyped⟩

/-- The unit updates a field of what a call returns, so that a receiver is bound, and its result is
null-safe. -/
theorem nullableHolder_nullSafe :
    nullableHolder.Coherent ∧ (nullableHolder.Everywhere fun e => e.hasNullReceiver = false) ∧
      (nullableHolder.Everywhere fun e => e.hasHollowReceiver = false) ∧
      ∃ u' context', pass.apply nullableHolder
        { unitName := "Holder.java", supply := { origin := 1 } } = (.ok u', context') ∧
        u'.NullSafe := by
  have hnull : nullableHolder.Everywhere fun e => e.hasNullReceiver = false := by decide
  have hhollow : nullableHolder.Everywhere fun e => e.hasHollowReceiver = false := by decide
  refine ⟨by decide, hnull, hhollow, ?_⟩
  obtain ⟨u', context', happly, hsafe⟩ := pass_nullSafe nullableHolder _ (by decide)
  exact ⟨u', context', happly, hsafe.mpr (CompilationUnit.binds_no_null hnull hhollow)⟩

/-! ## A sequence that ends in an empty one -/

/-- `(null, ()).count++`: as a whole the receiver is of type `void`, but once the
empty sequence is spliced in, the null type is left. -/
def emptyEnd : CompilationUnit :=
  unitOf [] [.expression (countUp (.multi [.null, .multi []])) {}]

/-- The result of the pass is not null-safe, although no receiver of the unit is of the null type:
the temporary gets this type once the empty sequence is gone. -/
theorem nullSafe_fails_after_empty :
    emptyEnd.Coherent ∧ (emptyEnd.Everywhere fun e => e.isNaNLiteral = false) ∧
      (emptyEnd.Everywhere fun e => e.hasNullReceiver = false) ∧
      ∃ u' context', pass.apply emptyEnd
        { unitName := "Holder.java", supply := { origin := 1 } } = (.ok u', context') ∧
        ¬ u'.NullSafe := by
  refine ⟨by decide, by decide, by decide, _, _, rfl, fun h => ?_⟩
  -- The check of `tmp.count`, where `tmp` is of the null type.
  have hcheck := (h.expressions _ List.mem_cons_self).child
    (List.mem_cons_of_mem _ List.mem_cons_self)
  have hreceiver := (hcheck.child List.mem_cons_self).here rfl _ rfl
  cases hreceiver

end NullSafety

end Lowering
