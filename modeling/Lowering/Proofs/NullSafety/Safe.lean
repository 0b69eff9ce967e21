import Lowering.Proofs.NullSafety.Relation

/-!
# Null-safe trees

In a null-safe tree no value that may be null stands where null is not allowed:
as a receiver, as an operand, as a condition, as a thrown value, as an assert
message, or in a slot whose type takes no null.

`Expr.NullSafe` and `Stmt.NullSafe` say it of a single node,
`CompilationUnit.NullSafe` of a unit at every depth. The second half of the
module says what the adjustments of the first traversal establish at each kind of
site.
-/

namespace Lowering

open Conversion

/-! ## Null-safe trees -/

/-- Null must not flow into the slot: its type at the place of use or in its
declaration has no null. The boxed `void` is exempt. -/
def TakesNoNull (inferred declared : Ty) : Prop :=
  (inferred.canBeNull = false ∨ declared.canBeNull = false) ∧ inferred.isBoxedVoid = false

instance (inferred declared : Ty) : Decidable (TakesNoNull inferred declared) :=
  inferInstanceAs (Decidable (_ ∧ _))

namespace Expr

/-- No argument that may be null stands in a slot that takes no null. Arguments
beyond the parameters of the method or of its declaration have no slot. -/
def ArgumentsSafe (target : MethodRef) (arguments : List Expr) : Prop :=
  ∀ a ∈ (target.parameters.zip target.declaration.parameters).zip arguments,
    TakesNoNull a.1.1 a.1.2 → a.2.canBeNull = false

/-- No operand that may be null stands where the operation unboxes it. -/
def OperandsSafe (op : BinaryOp) (left right : Expr) (type : Ty) : Prop :=
  match op with
  | .assign => TakesNoNull left.type (targetDeclaredType left) → right.canBeNull = false
  | .plusAssign | .minusAssign =>
    if left.type.unboxed?.isSome then right.canBeNull = false
    else TakesNoNull left.type (targetDeclaredType left) → right.canBeNull = false
  -- References are compared as they are unless the other side is primitive.
  | .equals | .notEquals =>
    (right.type.isPrimitive = true → left.canBeNull = false) ∧
      (left.type.isPrimitive = true → right.canBeNull = false)
  -- A sum that is a reference is a concatenation, which takes null.
  | .plus => type.isPrimitive = true → left.canBeNull = false ∧ right.canBeNull = false
  | _ => left.canBeNull = false ∧ right.canBeNull = false

/-- The expression puts no part that may be null where null is not allowed. -/
def NullSafe : Expr → Prop
  | fieldAccess qualifier target =>
    target.isStatic = false → ∀ q ∈ qualifier, q.canBeNull = false
  | call qualifier target arguments =>
    (target.isStatic = false → ∀ q ∈ qualifier, q.canBeNull = false) ∧
      ArgumentsSafe target arguments
  | newInstance target arguments => ArgumentsSafe target arguments
  | binary op left right type => OperandsSafe op left right type
  -- `++` and `--` check their target in a member of its own before the step.
  | unary op _ operand _ => op.hasSideEffect = false → operand.canBeNull = false
  | cast type operand => type.isPrimitive = true → operand.canBeNull = false
  | conditional type condition whenTrue whenFalse =>
    condition.canBeNull = false ∧
      (type.isPrimitive = true → whenTrue.canBeNull = false ∧ whenFalse.canBeNull = false)
  | declare fragments =>
    ∀ f ∈ fragments, ∀ e ∈ f.initializer, TakesNoNull f.binder.type f.binder.type →
      e.canBeNull = false
  | _ => True

end Expr

/-- The statement, in the given method, puts no expression that may be null where
null is not allowed. -/
def Stmt.NullSafe (method : MethodRef) : Stmt → Prop
  | returnValue value _ =>
    ∀ e ∈ value, TakesNoNull method.returnType method.declaration.returnType →
      e.canBeNull = false
  | conditional condition _ _ _ => condition.canBeNull = false
  | whileLoop condition _ _ => condition.canBeNull = false
  | forLoop _ condition _ _ _ => ∀ c ∈ condition, c.canBeNull = false
  | assertion condition message _ =>
    condition.canBeNull = false ∧ ∀ e ∈ message, e.canBeNull = false
  | throwValue value _ => value.canBeNull = false
  | _ => True

/-- Every part of the unit is null-safe, at every depth. -/
structure CompilationUnit.NullSafe (u : CompilationUnit) : Prop where
  expressions : u.Everywhere Expr.NullSafe
  statements : ∀ d ∈ u.methods, ∀ s ∈ d.statements, s.NullSafe d.ref
  fields : ∀ f ∈ u.fields, ∀ e ∈ f.initializer,
    TakesNoNull f.ref.type f.ref.declaration.type → e.canBeNull = false

/-! ## Values under assertions -/

/-- Only expressions whose type has null may be null. The converse fails: `this`, texts and created
instances are never null, whatever their type says. -/
theorem Expr.canBeNull_type {e : Expr} (h : e.canBeNull = true) : e.type.canBeNull = true := by
  cases e <;> first | exact h | cases h

theorem Expr.canBeNull_of_primitive {e : Expr} (h : e.type.isPrimitive = true) :
    e.canBeNull = false := by
  by_contra hnull
  have htype := Expr.canBeNull_type (Bool.not_eq_false _ ▸ hnull)
  cases ht : e.type <;> simp_all [Ty.isPrimitive, Ty.canBeNull]

/-- An asserted value is not null. Either it is under an assertion now, or it was known to be
non-null before. -/
theorem Expr.canBeNull_asserted (e : Expr) : e.asserted.canBeNull = false := by
  unfold Expr.asserted
  split
  · rename_i h
    simp only [Expr.isKnownNonNull, Bool.and_eq_true, Bool.not_eq_true'] at h
    exact h.1
  · rfl

theorem Ty.isPrimitive_toNonNullable (t : Ty) : t.toNonNullable.isPrimitive = t.isPrimitive := by
  cases t <;> rfl

/-- Without null a type takes no null, apart from the type of the null literal, which has no such
form. -/
theorem Ty.canBeNull_toNonNullable {t : Ty} (h : t.toNonNullable ≠ .nullType) :
    t.toNonNullable.canBeNull = false := by
  cases t <;> first | rfl | exact absurd rfl h

namespace NullSafety

/-- Each kind of site has a lemma about the value that stands there after the traversal. Required
values are asserted in any case. -/
theorem canBeNull_of_required {e e' : Expr} (h : assertions.RequiredValue e e') :
    e'.canBeNull = false := by
  obtain rfl : e' = e.asserted := h
  exact e.canBeNull_asserted

theorem canBeNull_of_slot {inferred declared : Ty} {e e' : Expr}
    (h : assertions.SlotValue inferred declared e e') (hslot : TakesNoNull inferred declared) :
    e'.canBeNull = false := by
  unfold Adjustment.SlotValue at h
  split at h
  · obtain rfl : e' = e.asserted := h
    exact e.canBeNull_asserted
  · -- The handler asserts in exactly the slots that take no null.
    have hexcludes : excludesNull inferred declared = true := by
      -- One of the two types of the slot has no null, and the handler looks at both.
      obtain ⟨hnull, hvoid⟩ := hslot
      rcases hnull with hnull | hnull <;> simp [excludesNull, hnull, hvoid]
    obtain rfl : e' = if excludesNull inferred declared then e.asserted else e := h
    rw [if_pos hexcludes]
    exact e.canBeNull_asserted

theorem canBeNull_of_primitive_slot {p : Primitive} {e e' : Expr}
    (h : assertions.SlotValue (.prim p) (.prim p) e e') : e'.canBeNull = false :=
  canBeNull_of_slot h ⟨.inl rfl, rfl⟩

theorem canBeNull_of_operand {e e' : Expr} (h : assertions.OperandValue e e') :
    e'.canBeNull = false := by
  unfold Adjustment.OperandValue at h
  split at h
  · subst h
    exact Expr.canBeNull_of_primitive ‹_›
  · exact canBeNull_of_required h

theorem canBeNull_of_operandIf {unboxed : Bool} {e e' : Expr}
    (h : assertions.OperandIf unboxed e e') (hunboxed : unboxed = true) :
    e'.canBeNull = false := by
  subst hunboxed
  exact canBeNull_of_operand h

theorem canBeNull_of_receiver {isStatic : Bool} {q q' : Option Expr}
    (h : assertions.ReceiverValue isStatic q q') (hstatic : isStatic = false) :
    ∀ e ∈ q', e.canBeNull = false := by
  intro e he
  cases h with
  | absent => cases he
  -- Receivers of static members may well be null.
  | ignored htrue => simp [htrue] at hstatic
  | required _ hrequired =>
    cases he
    exact canBeNull_of_required hrequired

/-- Arguments with a slot are adjusted by it, and the others have none. -/
theorem argumentsSafe {target : MethodRef} {as as' : List Expr}
    (h : assertions.ArgumentValues target.parameters target.declaration.parameters as as') :
    Expr.ArgumentsSafe target as' := by
  unfold Expr.ArgumentsSafe
  -- The induction runs over both lists of parameter types along with the arguments.
  generalize target.parameters = is at h ⊢
  generalize target.declaration.parameters = ds at h ⊢
  induction h with
  | cons hvalue _ ih =>
    intro a ha hslot
    rw [List.zip_cons_cons, List.zip_cons_cons] at ha
    rcases List.mem_cons.mp ha with rfl | ha
    · exact canBeNull_of_slot hvalue hslot
    · exact ih a ha hslot
  | rest hrest =>
    -- Nothing is left to be paired with a slot.
    intro a ha
    rcases hrest with rfl | rfl | rfl <;> simp at ha

end NullSafety

end Lowering
