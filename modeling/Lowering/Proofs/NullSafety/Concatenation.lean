import Lowering.Proofs.NullSafety.Relation
import Lowering.Proofs.Tree.Effects

/-!
# Concatenation of texts

`t + r` on texts reads neither side as a number, so nothing is asserted of `r`. The
compound form `t += r` also writes `t`, and the traversal takes it for an assignment of
`r` to `t`: where the slot of `t` takes no null, `r` is asserted to be non-null, although
a text that is concatenated with null is not null. The statements are about both traversals
of the pass, from every state in which they may reach the operation.

Main statement: `NullSafety.concatenation_operands`.
-/

namespace Lowering

open Conversion

theorem Ty.exists_of_isNamed {t : Ty} {name : String} (h : t.isNamed name = true) :
    ∃ kind arguments nullable, t = .ref name kind arguments nullable := by
  cases t with
  | ref name' kind arguments nullable =>
    obtain rfl : name' = name := by simpa [Ty.isNamed] using h
    exact ⟨kind, arguments, nullable, rfl⟩
  | _ => cases h

namespace NullSafety

/-! ## Runs over the parts -/

section

variable {σ : Type} {h : Handler (StateM σ)}

/-- A run over an operation goes over the left side, then over the right side, and then
to the hook. -/
theorem expr_binary_run {op : BinaryOp} {l l' r r' : Expr} {type : Ty} {c c₁ c₂ : Cursor}
    {s s₁ s₂ : σ} (hl : (conversion h).expr l c s = ((l', c₁), s₁))
    (hr : (conversion h).expr r c₁ s₁ = ((r', c₂), s₂)) :
    (conversion h).expr (.binary op l r type) c s = binaryOperation h op l' r' type c₂ s₂ := by
  -- The cursor and the state of each run are handed on to the next.
  have hbind : ∀ (x : StateT Cursor (StateM σ) Expr) (f : Expr → StateT Cursor (StateM σ) Expr)
      (c : Cursor) (s : σ), (x >>= f) c s = f (x c s).1.1 (x c s).1.2 (x c s).2 :=
    fun _ _ _ _ => rfl
  rw [Transform.expr, hbind, hl, hbind, hr]
  rfl

/-- `+=` on a target that is not unboxed assigns the right side to the target. -/
theorem plusAssign_of_unboxed {l r : Expr} {type : Ty} (hnone : l.type.unboxed? = none)
    (c : Cursor) (s : σ) :
    (binaryOperation h .plusAssign l r type c s).1.1 =
      .binary .plusAssign l (slotValue h l.type (targetDeclaredType l) r c s).1.1 type := by
  have hreference : ¬ l.type.unboxed?.isSome = true := by
    rw [hnone]
    exact Bool.false_ne_true
  rw [binaryOperation_compound (.inl rfl), if_neg hreference]
  simp only [guardedUpdate_of_unboxed h hnone]
  rfl

end

/-- The target of an update keeps its type, inferred and declared. -/
theorem target_of_converted {T : VariableId → Prop} {t t' : Expr}
    (h : Converted assertions T t t') (htarget : t.written.isSome = true) :
    t'.type = t.type ∧ targetDeclaredType t' = targetDeclaredType t := by
  cases h with
  | leaf _ => exact ⟨rfl, rfl⟩
  | fieldAccess _ _ => exact ⟨rfl, rfl⟩
  -- Everything else denotes no place, and an update might well become a sequence.
  | _ => cases htarget

/-- A value in a slot of a reference type. -/
theorem slotValue_of_reference {inferred declared : Ty} (hreference : inferred.isPrimitive = false)
    (e : Expr) (c : Cursor) (s : Tally) :
    (slotValue asserting inferred declared e c s).1.1 =
      if excludesNull inferred declared then e.asserted else e := by
  have hholds : (cursorLogic c.site.enclosingMethod fun _ => True).Holds
      (slotValue asserting inferred declared e) (assertions.SlotValue inferred declared e) :=
    slotValue_holds asserting_answers inferred declared e
  have hslot := (hholds c s rfl).2.2 fun _ _ => trivial
  unfold Adjustment.SlotValue at hslot
  -- A slot of a reference type asks its own hook, whatever the value is.
  rw [hreference] at hslot
  exact hslot

/-- Asserting changes an expression unless its value is known to be non-null. -/
theorem asserted_eq_self_iff (e : Expr) : e.asserted = e ↔ e.isKnownNonNull = true := by
  unfold Expr.asserted
  split
  · rename_i hknown
    exact ⟨fun _ => hknown, fun _ => rfl⟩
  · rename_i hunknown
    refine ⟨fun hsame => ?_, fun hknown => absurd hknown hunknown⟩
    -- An expression is larger than its operand.
    have hsize := congrArg sizeOf hsame
    simp at hsize

/-- Apart from the boxed `void`, a slot takes null if both of its types do. -/
theorem excludesNull_iff {inferred : Ty} (declared : Ty) (hvoid : inferred.isBoxedVoid = false) :
    excludesNull inferred declared = true ↔
      ¬ (inferred.canBeNull = true ∧ declared.canBeNull = true) := by
  unfold excludesNull
  rw [hvoid]
  cases inferred.canBeNull <;> cases declared.canBeNull <;> simp

/-! ## Concatenation -/

/-- Let `t` be a variable or a field of a string type, and let a run turn `t` and `r` into
`t'` and `r'`. In `t + r` the pass makes the right side `r'`. In `t += r` it makes it `r'` or
the assertion of `r'`, and it is `r'` exactly if `t` may be null by its inferred and its
declared type, or `r'` is known to be non-null. -/
theorem concatenation_operands (t r : Expr) (htarget : t.written.isSome = true)
    (hstring : t.type.isNamed Known.stringName = true) {c c₁ c₂ : Cursor} {s s₁ s₂ : Tally}
    {t' r' : Expr} (ht : (conversion asserting).expr t c s = ((t', c₁), s₁))
    (hr : (conversion asserting).expr r c₁ s₁ = ((r', c₂), s₂)) (objectType : Ty) (d : Defaults) :
    runExpr objectType c s d (.operation .plus t r) = .binary .plus t' r' t.type ∧
      ∃ right, runExpr objectType c s d (.operation .plusAssign t r) =
          .binary .plusAssign t' right t.type ∧
        (right = r' ∨ right = .notNull r') ∧
        (right = r' ↔ t.type.canBeNull = true ∧ (targetDeclaredType t).canBeNull = true ∨
          r'.isKnownNonNull = true) := by
  obtain ⟨kind, arguments, nullable, htype⟩ := Ty.exists_of_isNamed hstring
  have hconverted := (expr_converted asserting_answers t c s).2 (fun _ => True) fun _ _ => trivial
  rw [ht] at hconverted
  obtain ⟨htype', hdeclared'⟩ := target_of_converted hconverted htarget
  have hreference : t.type.isPrimitive = false := by rw [htype]; rfl
  -- Both operations are as the first traversal leaves them.
  rw [runExpr_eq, runExpr_eq]
  constructor
  · show ((conversion asserting).expr (.binary .plus t r t.type) c s).1.1 = _
    rw [expr_binary_run ht hr]
    simp only [binaryOperation, hreference]
    rfl
  have hvoid : t.type.isBoxedVoid = false := by rw [htype]; rfl
  have hslot := excludesNull_iff (targetDeclaredType t) hvoid
  have hresult : ((conversion asserting).expr (.operation .plusAssign t r) c s).1.1 =
      .binary .plusAssign t'
        (if excludesNull t.type (targetDeclaredType t) then r'.asserted else r') t.type := by
    have hnone : t'.type.unboxed? = none := by rw [htype', htype]; rfl
    show ((conversion asserting).expr (.binary .plusAssign t r t.type) c s).1.1 = _
    rw [expr_binary_run ht hr, plusAssign_of_unboxed hnone, htype', hdeclared',
      slotValue_of_reference hreference]
  -- Only a slot that takes null by both of its types leaves the right side alone.
  by_cases hnullable : t.type.canBeNull = true ∧ (targetDeclaredType t).canBeNull = true
  · have htakes : ¬ excludesNull t.type (targetDeclaredType t) = true := fun h =>
      hslot.mp h hnullable
    rw [if_neg htakes] at hresult
    exact ⟨r', hresult, .inl rfl, fun _ => .inl hnullable, fun _ => rfl⟩
  · rw [if_pos (hslot.mpr hnullable)] at hresult
    refine ⟨r'.asserted, hresult, ?_, ?_⟩
    · unfold Expr.asserted
      split
      · exact .inl rfl
      · exact .inr rfl
    · rw [asserted_eq_self_iff, or_iff_right hnullable]

/-- A field that is specialized to a nullable string type; its declaration excludes
null. -/
def labelField : FieldRef :=
  { enclosing := { qualifiedName := "t.Holder" }, name := "label", type := Known.string
    origins := [{ enclosing := { qualifiedName := "t.Holder" }, name := "label"
                  type := Known.string.toNonNullable }] }

/-- `e.label` -/
def labelOf (e : Expr) : Expr := .fieldAccess (some e) labelField

/-- `e.trim()` -/
def trimmed (e : Expr) : Expr :=
  .call (some e)
    { enclosing := { qualifiedName := "java.lang.String" }, name := "trim"
      returnType := Known.string } []

def owner : Variable := { id := { serial := 0 }, name := "owner", type := .classNamed "t.Holder" }

/-- A nullable text. -/
def part : Variable := { id := { serial := 1 }, name := "part", type := Known.string }

/-- `owner.label += part.trim()` asserts the right side, `owner.label + part.trim()` does
not. -/
theorem label_concatenation :
    runExpr Known.object { supply := { origin := 1 } } {} { supply := { origin := 1 } }
        (.operation .plus (labelOf (.varRef owner)) (trimmed (.varRef part))) =
      .binary .plus (labelOf (.notNull (.varRef owner))) (trimmed (.notNull (.varRef part)))
        Known.string ∧
    runExpr Known.object { supply := { origin := 1 } } {} { supply := { origin := 1 } }
        (.operation .plusAssign (labelOf (.varRef owner)) (trimmed (.varRef part))) =
      .binary .plusAssign (labelOf (.notNull (.varRef owner)))
        (.notNull (trimmed (.notNull (.varRef part)))) Known.string := by
  have hwritten : (labelOf (.varRef owner)).written.isSome = true := rfl
  have hstring : (labelOf (.varRef owner)).type.isNamed Known.stringName = true := by decide
  obtain ⟨hplus, right, hassign, hright, hiff⟩ := concatenation_operands (labelOf (.varRef owner))
    (trimmed (.varRef part)) hwritten hstring (c := { supply := { origin := 1 } }) (s := {}) rfl rfl
    Known.object { supply := { origin := 1 } }
  refine ⟨hplus, ?_⟩
  have hasserted := hright.resolve_left fun hsame => absurd (hiff.mp hsame) (by decide)
  rw [hasserted] at hassign
  exact hassign

/-- A text that is not null. -/
def text : Variable :=
  { id := { serial := 0 }, name := "text", type := Known.string.toNonNullable }

/-- The pass asserts the right side of `text += part` and not that of `text + part`. -/
theorem concatenation_forms_differ :
    ∃ context', pass.apply
        (unitOf [text, part] [.expression (.operation .plusAssign (.varRef text) (.varRef part)) {},
          .expression (.operation .plus (.varRef text) (.varRef part)) {}])
        { unitName := "Holder.java", supply := { origin := 1 } } =
      (.ok (unitOf [text, part]
        [.expression (.operation .plusAssign (.varRef text) (.notNull (.varRef part))) {},
          .expression (.operation .plus (.varRef text) (.varRef part)) {}]), context') :=
  ⟨_, rfl⟩

end NullSafety

end Lowering
