import Lowering.Proofs.Conversion.StaticType
import Lowering.Proofs.NullSafety.Safe

/-!
# Operands of arithmetic

An arithmetic operation reads its operands as numbers, so the pass asserts those that may be
null. It tells a sum from a concatenation of texts by the type of the result: a sum of a
reference type is taken for a concatenation, and its operands are left alone. The result of
an operation has the type of the left operand, so a sum with a boxed number on the left is
taken for a concatenation too.

Main statement: `NullSafety.canBeNull_arithmetic_operands`.
-/

namespace Lowering

open Conversion

/-- `+`, `-`, `*`, `/` and `%`. -/
def BinaryOp.isArithmetic (op : BinaryOp) : Bool :=
  !op.isAssignment && !op.isBooleanValued

/-- A primitive type of numbers, or a wrapper class. -/
def Ty.isArithmetic : Ty → Bool
  | .prim .boolean | .prim .void => false
  | .prim _ => true
  | t => t.unboxed?.isSome

theorem Ty.ne_void_of_isArithmetic {t : Ty} (h : t.isArithmetic = true) : t ≠ .prim .void := by
  rintro rfl
  cases h

/-- An arithmetic operation has the type of its left operand. -/
theorem Expr.operation_of_isArithmetic {op : BinaryOp} (hop : op.isArithmetic = true)
    (l r : Expr) : Expr.operation op l r = .binary op l r l.type := by
  have hvalued : op.isBooleanValued = false := by
    simp only [BinaryOp.isArithmetic, Bool.and_eq_true, Bool.not_eq_true'] at hop
    exact hop.2
  rw [Expr.operation, hvalued]
  rfl

/-- Among the arithmetic operations only a sum of a reference type leaves an operand boxed. -/
theorem Conversion.unboxesBeside_eq_false_iff {op : BinaryOp} (hop : op.isArithmetic = true)
    (type : Ty) (other : Expr) :
    unboxesBeside op type other = false ↔ op = .plus ∧ type.isPrimitive = false := by
  -- Comparisons and assignments are no arithmetic; of the rest only `plus` looks at its type.
  cases op <;> simp_all [BinaryOp.isArithmetic, BinaryOp.isAssignment, BinaryOp.isBooleanValued,
    unboxesBeside]

namespace NullSafety

/-! ## Operands -/

section

variable {T : VariableId → Prop} {op : BinaryOp} {l r e' : Expr} {type : Ty}

/-- What the first traversal makes of an arithmetic operation: both operands are transformed,
and then unboxed unless the operation is a sum of a reference type. -/
theorem arithmetic_of_converted (hop : op.isArithmetic = true)
    (h : Converted assertions T (.binary op l r type) e') :
    ∃ l₁ l₂ r₁ r₂, e' = .binary op l₂ r₂ type ∧
      Converted assertions T l l₁ ∧ Converted assertions T r r₁ ∧
      assertions.OperandIf (unboxesBeside op type r₁) l₁ l₂ ∧
      assertions.OperandIf (unboxesBeside op type l₁) r₁ r₂ := by
  cases h with
  | leaf hleaf => cases hleaf
  | binary _ hl hr hl₂ hr₂ => exact ⟨_, _, _, _, rfl, hl, hr, hl₂, hr₂⟩
  | assign _ _ _ => cases hop
  -- Compound assignments have operators of their own.
  | compound hcompound _ _ _ _ => rcases hcompound with rfl | rfl <;> cases hop

/-- An operand that is not unboxed is not adjusted. -/
theorem eq_of_operandIf {unboxed : Bool} {e : Expr} (h : assertions.OperandIf unboxed e e')
    (hunboxed : unboxed = false) : e' = e := by
  subst hunboxed
  exact h

/-- Neither operand may be null afterwards, except for a sum of a reference type, whose
operands may be null exactly if they could be before. -/
theorem canBeNull_operands_of_converted (hop : op.isArithmetic = true)
    (h : Converted assertions T (.binary op l r type) e')
    (hl : ∀ {l₁}, Converted assertions T l l₁ → l₁.type = l.type)
    (hr : ∀ {r₁}, Converted assertions T r r₁ → r₁.type = r.type) :
    ∃ left right, e' = .binary op left right type ∧
      if op = .plus ∧ type.isPrimitive = false then
        left.canBeNull = l.canBeNull ∧ right.canBeNull = r.canBeNull
      else left.canBeNull = false ∧ right.canBeNull = false := by
  obtain ⟨l₁, l₂, r₁, r₂, rfl, hconvertedL, hconvertedR, hoperandL, hoperandR⟩ :=
    arithmetic_of_converted hop h
  refine ⟨l₂, r₂, rfl, ?_⟩
  split
  · -- Nothing is adjusted, so only the transformation of the operands counts.
    rename_i hboxed
    obtain rfl := eq_of_operandIf hoperandL ((unboxesBeside_eq_false_iff hop type r₁).mpr hboxed)
    obtain rfl := eq_of_operandIf hoperandR ((unboxesBeside_eq_false_iff hop type l₂).mpr hboxed)
    exact ⟨canBeNull_of_converted hconvertedL (hl hconvertedL),
      canBeNull_of_converted hconvertedR (hr hconvertedR)⟩
  · rename_i hunboxed
    have hunboxes : ∀ other, unboxesBeside op type other = true := fun other =>
      Bool.not_eq_false _ ▸ mt (unboxesBeside_eq_false_iff hop type other).mp hunboxed
    exact ⟨canBeNull_of_operandIf hoperandL (hunboxes r₁),
      canBeNull_of_operandIf hoperandR (hunboxes l₁)⟩

end

/-! ## The pass -/

/-- Let both operands be of numeric primitive types or of wrapper classes. Neither operand of
the operation that the pass makes may be null, unless the operation is a sum, the left
operand is boxed, and an operand could be null before. -/
theorem canBeNull_arithmetic_operands (op : BinaryOp) (l r : Expr)
    (hop : op.isArithmetic = true) (hl : l.type.isArithmetic = true)
    (hr : r.type.isArithmetic = true) (hcoherent : (Expr.operation op l r).Coherent)
    (objectType : Ty) (c : Cursor) (s : Tally) (d : Defaults) :
    ∃ left right, runExpr objectType c s d (.operation op l r) = .binary op left right l.type ∧
      (left.canBeNull = false ∧ right.canBeNull = false ↔
        op ≠ .plus ∨ l.type.isPrimitive = true ∨ l.canBeNull = false ∧ r.canBeNull = false) := by
  rw [Expr.operation_of_isArithmetic hop] at hcoherent ⊢
  obtain ⟨Γ, htyped⟩ := hcoherent.typed
  have htypedL := htyped.child (c := l) (by simp [Expr.children])
  have htypedR := htyped.child (c := r) (by simp [Expr.children])
  have hconverted := (expr_converted asserting_answers (.binary op l r l.type) c s).2
    (fun _ => True) fun _ _ => trivial
  -- Numbers are values, so the operands keep their types even if they hold empty sequences.
  obtain ⟨left, right, hresult, hoperands⟩ := canBeNull_operands_of_converted hop hconverted
    (fun h => keepsValueType h htypedL (Ty.ne_void_of_isArithmetic hl))
    (fun h => keepsValueType h htypedR (Ty.ne_void_of_isArithmetic hr))
  refine ⟨left, right, (runExpr_eq ..).trans hresult, ?_⟩
  split at hoperands
  · rename_i hboxed
    rw [hoperands.1, hoperands.2]
    simp [hboxed]
  · rename_i hunboxed
    refine iff_of_true hoperands ?_
    -- A sum that is unboxed has a primitive type, which is that of its left operand.
    by_cases hplus : op = .plus
    · exact .inr (.inl (by simpa [hplus] using hunboxed))
    · exact .inl hplus

/-- A number. -/
def intSize : Variable := { id := { serial := 0 }, name := "size", type := .prim .int }

/-- A boxed number that may be null. -/
def boxedCount : Variable :=
  { id := { serial := 1 }, name := "count", type := .classNamed "java.lang.Integer"
    isParameter := true }

/-- `count * count` -/
def countSquared : Expr := .operation .times (.varRef boxedCount) (.varRef boxedCount)

/-- In `size + count * count` the product may be null by its type, which is that of `count`.
After the pass neither side of the sum may be null. -/
theorem canBeNull_operands_of_primitive_sum :
    countSquared.type.isArithmetic = true ∧ countSquared.canBeNull = true ∧
      (Expr.operation .plus (.varRef intSize) countSquared).Coherent ∧
      ∃ left right, runExpr Known.object { supply := { origin := 1 } } {}
          { supply := { origin := 1 } } (.operation .plus (.varRef intSize) countSquared) =
          .binary .plus left right (.prim .int) ∧
        left.canBeNull = false ∧ right.canBeNull = false := by
  have hcoherent : (Expr.operation .plus (.varRef intSize) countSquared).Coherent := by decide
  refine ⟨by decide, by decide, hcoherent, ?_⟩
  obtain ⟨left, right, hresult, hiff⟩ := canBeNull_arithmetic_operands .plus (.varRef intSize)
    countSquared (by decide) (by decide) (by decide) hcoherent Known.object
    { supply := { origin := 1 } } {} { supply := { origin := 1 } }
  exact ⟨left, right, hresult, hiff.mpr (.inr (.inl rfl))⟩

/-- `count + 1;` -/
def boxedSum : CompilationUnit :=
  unitOf [boxedCount] [.expression (.operation .plus (.varRef boxedCount) (.ofInt 1)) {}]

/-- The pass leaves `count + 1` as it is, with an operand that may be null. -/
theorem boxedSum_unasserted :
    boxedCount.type.isArithmetic = true ∧ (Expr.ofInt 1).type.isArithmetic = true ∧
      (Expr.varRef boxedCount).canBeNull = true ∧
      ∃ context', pass.apply boxedSum { unitName := "Holder.java", supply := { origin := 1 } } =
        (.ok boxedSum, context') :=
  ⟨by decide, by decide, by decide, _, rfl⟩

end NullSafety

end Lowering
