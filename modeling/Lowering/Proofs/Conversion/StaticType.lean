import Lowering.Proofs.Conversion.Calls

/-!
# Static types before and after the traversal

Every run of the traversal keeps the static type of an expression, whatever the handler
answers and whatever state it keeps. An empty sequence can spoil this: it is of type
`void`, and where it comes last it is spliced away, so that the member before it decides on
the type. Without empty sequences every type is kept (`Conversion.type_of_run`). With them,
only expressions of type `void` are at risk: the type of a value is always kept
(`Conversion.keepsValueType`), and with it the answer whether the value may be null
(`Conversion.canBeNull_of_converted`).
-/

namespace Lowering

namespace Conversion

open Lowering.Expr

/-! ## Values that may be null -/

section

variable {A : Adjustment} {T : VariableId → Prop}

/-- The traversal makes no instance creation, `this`, text or assertion of anything else,
nor anything else of them. So whether a value may be null is left to its type. -/
theorem canBeNull_of_converted {e e' : Expr} (h : Converted A T e e') (htype : e'.type = e.type) :
    e'.canBeNull = e.canBeNull := by
  -- Kinds that are judged by their type before and after have one answer, as they have one type.
  have hbyType : e'.canBeNull = e'.type.canBeNull → e.canBeNull = e.type.canBeNull →
      e'.canBeNull = e.canBeNull := by
    intro he' he
    rw [he', he, htype]
  cases h with
  -- An update may have become a sequence, which is judged by its type as well.
  | compound _ _ _ _ hguarded =>
    exact hbyType (hguarded.root (R := fun x => x.canBeNull = x.type.canBeNull)
      (fun _ => rfl) fun _ _ => rfl) rfl
  | step _ _ hguarded =>
    exact hbyType (hguarded.root (R := fun x => x.canBeNull = x.type.canBeNull)
      (fun _ => rfl) fun _ _ => rfl) rfl
  | multi _ => exact hbyType rfl rfl
  | _ => rfl

end

/-! ## Runs -/

variable {σ : Type}

/-- Every run keeps the static type of an expression without empty sequences in which
variables of one identity have one type. The handler may answer with any expressions, those
with empty sequences and variables of other types included, and keep any state. -/
theorem type_of_run (h : Handler (StateM σ)) (e : Expr) (hcoherent : e.Coherent)
    (hsequence : e.Everywhere fun x => x.isEmptySequence = false) (c : Cursor) (s : σ) :
    ((conversion h).expr e c s).1.1.type = e.type := by
  obtain ⟨Γ, htyped⟩ := hcoherent.typed
  have htypable : e.Everywhere (Typable Γ) := by
    refine fun x hx => ⟨htyped x hx, ?_⟩
    rintro rfl
    exact Bool.false_ne_true (hsequence _ hx).symm
  -- The set of temporaries does not matter here, so it is everything.
  have hconverted := (expr_converted (answers_anyAnswer h) e c s).2 (fun _ => True)
    fun _ _ => trivial
  exact keepsType hconverted htypable

def box : Variable := { id := { serial := 0 }, name := "box", type := .classNamed "t.Box" }

/-- `(box.next().count++, box!, box!)` -/
def checkedStep : Expr :=
  .multi [Conversion.countUp (.call (some (.varRef box))
      { enclosing := { qualifiedName := "t.Box" }, name := "next"
        returnType := .classNamed "t.Box" } []),
    .notNull (.varRef box), .notNull (.varRef box)]

/-- The handler makes empty sequences of the receivers and of the check of the step, and
the last member is left out; the type is still that of `box!`. -/
theorem type_of_checkedStep :
    checkedStep.Coherent ∧ (checkedStep.Everywhere fun x => x.isEmptySequence = false) ∧
      ((conversion emptying).expr checkedStep { supply := { origin := 1 } } 0).1.1.type =
        checkedStep.type :=
  ⟨by decide, by decide, type_of_run emptying checkedStep (by decide) (by decide) _ _⟩

end Conversion

end Lowering
