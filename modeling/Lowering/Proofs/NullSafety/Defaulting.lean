import Lowering.Proofs.NullSafety.Meaning

/-!
# Defaults in the place of null

`withDefault` makes one of four expressions: the operand, the default, a choice
that repeats the operand, or a choice over a temporary that holds its value. All
of them mean the same: the operand is evaluated once, and the default is evaluated
after it exactly if its value is null.

For the choice that repeats the operand this holds because an idempotent expression
leaves the state as it is. For the temporary it holds because the default, which
does not mention it, does the same from states that differ in it alone.

Main statement: `NullSafety.eval_withDefault`.
-/

namespace Lowering

open Eval

/-- A comparison with null tells whether the value is null. -/
def World.IdentifiesNull (w : World) : Prop :=
  ∀ type value, w.binary .equals type value .null = some (.bool (decide (value = .null)))

theorem State.AgreesOff.symm {T : VariableId → Prop} {s t : State} (h : s.AgreesOff T t) :
    t.AgreesOff T s :=
  ⟨h.heap.symm, fun id hid => (h.store id hid).symm⟩

namespace Eval

variable {α : Type} {T : VariableId → Prop}

/-- The value of the first computation if it is not null, and otherwise whatever the
second one does afterwards. -/
def unlessNull (x y : Eval Value) : Eval Value := do
  let value ← x
  if value = .null then y else pure value

/-- Both runs fail, or both end normally with the same result and up to `T` the same
state. -/
def SameOutcome (T : VariableId → Prop) : Option (α × State) → Option (α × State) → Prop :=
  Option.Rel fun r r' => r.1 = r'.1 ∧ r.2.AgreesOff T r'.2

theorem SameOutcome.refl (r : Option (α × State)) : SameOutcome T r r := by
  cases r with
  | none => exact .none
  | some r => exact .some ⟨rfl, .refl _⟩

/-- Computations that refine each other have the same outcome. -/
theorem Refines.sameOutcome {x y : Eval α} (h : Refines T x y) (h' : Refines T y x)
    {s t : State} (hst : s.AgreesOff T t) : SameOutcome T (x s) (y t) := by
  cases hy : y t with
  | some r =>
    obtain ⟨s', hx, hagree⟩ := h s t hst r.1 r.2 hy
    rw [hx]
    exact .some ⟨rfl, hagree⟩
  | none =>
    -- If the first run ended normally, so would the second one.
    cases hx : x s with
    | none => exact .none
    | some r =>
      obtain ⟨_, hy', _⟩ := h' t s hst.symm r.1 r.2 hx
      rw [hy] at hy'
      cases hy'

end Eval

namespace NullSafety

variable {w : World} {T : VariableId → Prop}

/-! ## Expressions without temporaries -/

/-- A relation that holds of all initializers relates a declaration to itself. -/
theorem fragments_rel_self {R : Expr → Expr → Prop} {fs : List (Fragment Expr)}
    (h : ∀ e ∈ (Expr.declare fs).children, R e e) :
    List.Forall₂ (Fragment.Rel R) fs fs := by
  refine List.forall₂_same.mpr fun f hf => ?_
  obtain ⟨binder, initializer⟩ := f
  cases initializer with
  | none => exact .mk .none
  | some e => exact .mk (.some (h e (List.mem_filterMap.mpr ⟨_, hf, rfl⟩)))

/-- An expression does the same from states that differ only in variables which it
does not mention. -/
theorem sameMeaning_self {e : Expr} (he : e.Everywhere fun x => ∀ v ∈ x.ownVariables, ¬ T v.id) :
    SameMeaning w T e e := by
  -- Targets are evaluated to places, so the induction is on the whole meaning.
  induction e using Expr.childInduction with
  | step e ih =>
    have hparts : ∀ c ∈ e.children, SameMeaning w T c c := fun c hc => ih c hc (he.child hc)
    have hvalues : ∀ c ∈ e.children, SameValue w T c c := fun c hc => (hparts c hc).value
    cases e with
    | nullLiteral | boolLiteral | numberLiteral | stringLiteral | thisRef | varRef =>
      exact sameMeaning_leaf rfl he.here
    | fieldAccess q f =>
      refine sameMeaning_fieldAccess ?_
      cases q with
      | none => exact .none
      | some q => exact .some (hvalues q List.mem_cons_self)
    | call q m as =>
      refine sameMeaning_call ?_ (List.forall₂_same.mpr fun a ha =>
        hvalues a (List.mem_append_right _ ha))
      cases q with
      | none => exact .none
      | some q => exact .some (hvalues q List.mem_cons_self)
    | newInstance m as => exact sameMeaning_newInstance (List.forall₂_same.mpr hvalues)
    | binary op l r type =>
      have hl := hparts l (by simp [Expr.children])
      have hr := hvalues r (by simp [Expr.children])
      cases op with
      | assign => exact sameMeaning_assign hl hr
      -- The target is not a temporary, as the expression does not mention any.
      | plusAssign | minusAssign =>
        exact .of_value (refines_compound hl.slot hr hl.place) rfl rfl
      | _ => exact .of_value (sameValue_binary rfl hl.value hr) rfl rfl
    | unary op fixity x type =>
      have hx := hparts x List.mem_cons_self
      cases op with
      | increment | decrement => exact .of_value (refines_step hx.slot hx.place) rfl rfl
      | _ => exact sameMeaning_unary rfl hx.value
    | cast type x => exact sameMeaning_cast (hvalues x List.mem_cons_self)
    | conditional type c a b =>
      exact sameMeaning_conditional (hvalues c (by simp [Expr.children]))
        (hvalues a (by simp [Expr.children])) (hvalues b (by simp [Expr.children]))
    | notNull x => exact sameMeaning_notNull (hvalues x List.mem_cons_self)
    | multi es =>
      exact .of_value (refines_evalAfter (List.forall₂_same.mpr hvalues) .void) rfl rfl
    | declare fs => exact sameMeaning_declare (fragments_rel_self hvalues)

/-! ## The four forms -/

/-- An operand that is never null needs no default. -/
theorem unlessNull_of_ne_null {x y : Eval Value} {s : State}
    (h : ∀ s', x s ≠ some (.null, s')) : unlessNull x y s = x s := by
  rw [unlessNull, bind_apply]
  cases hx : x s with
  | none => rfl
  | some r =>
    have hvalue : r.1 ≠ .null := fun hnull => h r.2 (by rw [hx, ← hnull])
    show (if r.1 = .null then y else pure r.1) r.2 = some r
    rw [if_neg hvalue]
    rfl

/-- Comparing an expression with null evaluates it once and tells whether its value is null. -/
theorem eval_equalsNull (hw : w.IdentifiesNull) (e : Expr) :
    e.equalsNull.eval w = e.eval w >>= fun value => pure (.bool (decide (value = .null))) := by
  have hcompare : ∀ type value, (ofOption (w.binary .equals type value .null) : Eval Value) =
      pure (.bool (decide (value = .null))) := by
    intro type value
    rw [hw]
    rfl
  simp only [Expr.equalsNull, Expr.operation, Expr.null, Expr.eval, pure_bind, hcompare]

/-- The choice evaluates its operand for the comparison and, unless it is null, once
more for the value. -/
theorem eval_nullChoice (hw : w.IdentifiesNull) (type : Ty) (e fallback : Expr) :
    (nullChoice type e fallback).eval w =
      e.eval w >>= fun value => if value = .null then fallback.eval w else e.eval w := by
  -- The comparison gives a boolean, so the choice never fails on it.
  have hchoose : ∀ chosen (x y : Eval Value),
      (ofOption (Value.bool chosen).bool? >>= fun chosen => if chosen then x else y) =
        if chosen then x else y := fun _ _ _ => rfl
  simp only [nullChoice, Expr.eval, eval_equalsNull hw, bind_assoc, pure_bind, hchoose,
    decide_eq_true_eq]

/-- An idempotent operand has the same value in the same state the second time. -/
theorem eval_nullChoice_of_idempotent (hw : w.IdentifiesNull) {type : Ty} {e fallback : Expr}
    (he : e.isIdempotent = true) :
    (nullChoice type e fallback).eval w = unlessNull (e.eval w) (fallback.eval w) := by
  funext s
  rw [eval_nullChoice hw, unlessNull, bind_apply, bind_apply]
  cases heval : e.eval w s with
  | none => rfl
  | some r =>
    obtain ⟨value, s₁⟩ := r
    -- The first evaluation has left the state as it was, and so the second one gives the same.
    obtain rfl := Expr.stable_eval he s value s₁ heval
    by_cases hnull : value = .null
    · simp only [Option.bind_some, if_pos hnull]
    · simp only [Option.bind_some, if_neg hnull, heval]
      rfl

/-- The choice over a temporary that has just been given a value. -/
theorem eval_nullChoice_temporary (hw : w.IdentifiesNull) {type : Ty} {temporary : Variable}
    {fallback : Expr} {s : State} {value : Value} (hs : s.store temporary.id = some value) :
    (nullChoice type (.varRef temporary) fallback).eval w s =
      if value = .null then fallback.eval w s else some (value, s) := by
  have hread : (Expr.varRef temporary).eval w s = some (value, s) := by
    show (s.store temporary.id).map (·, s) = _
    rw [hs, Option.map_some]
  rw [eval_nullChoice hw, bind_apply, hread, Option.bind_some]
  by_cases hnull : value = .null
  · rw [if_pos hnull, if_pos hnull]
  · rw [if_neg hnull, if_neg hnull, hread]

theorem eval_singleton (e : Expr) : (Expr.multi [e]).eval w = e.eval w := by
  simp only [Expr.eval, Expr.evalAfter, bind_pure]

/-- An operand with effects is evaluated into the temporary, which the comparison and
the choice read. -/
theorem sameOutcome_temporary (hw : w.IdentifiesNull) {type : Ty} {e fallback : Expr}
    {temporary : Variable} (hT : T temporary.id)
    (hfresh : fallback.Everywhere fun x => ∀ v ∈ x.ownVariables, ¬ T v.id) (s : State) :
    SameOutcome T
      ((Expr.multi [.declareOne temporary (some e),
        nullChoice type (.varRef temporary) fallback]).eval w s)
      (unlessNull (e.eval w) (fallback.eval w) s) := by
  have hresult : (Expr.multi [.declareOne temporary (some e),
      nullChoice type (.varRef temporary) fallback]).eval w =
      e.eval w >>= fun value => setSlot temporary.id (some value) >>= fun _ =>
        (nullChoice type (.varRef temporary) fallback).eval w := by
    simp only [Expr.declareOne, Expr.eval, Expr.evalAfter, Expr.evalFragments, Expr.evalOption,
      bind_assoc, pure_bind, bind_pure]
  rw [hresult, unlessNull, bind_apply, bind_apply]
  cases e.eval w s with
  | none => exact .none
  | some r =>
    obtain ⟨value, s₁⟩ := r
    -- The comparison starts in the state with the temporary.
    let bound : State :=
      { s₁ with store := fun id => if id = temporary.id then some value else s₁.store id }
    have hbound : bound.AgreesOff T s₁ := by
      refine ⟨rfl, fun id hid => ?_⟩
      have hne : id ≠ temporary.id := fun heq => hid (heq ▸ hT)
      exact if_neg hne
    show SameOutcome T ((nullChoice type (.varRef temporary) fallback).eval w bound)
      ((if value = .null then fallback.eval w else pure value) s₁)
    have hread : bound.store temporary.id = some value := if_pos rfl
    rw [eval_nullChoice_temporary hw hread]
    by_cases hnull : value = .null
    · rw [if_pos hnull, if_pos hnull]
      -- The default starts in a state that differs in the temporary, which it does not mention.
      have hself := (sameMeaning_self (w := w) hfresh).value
      exact hself.sameOutcome hself hbound
    · rw [if_neg hnull, if_neg hnull]
      exact .some ⟨rfl, hbound⟩

/-- Let a comparison with null tell whether a value is null, let an operand that is
known to be non-null never evaluate to null, and let the default not mention the
temporary. The result evaluates the operand, and after it the default if the value is
null; it fails where the operand fails, or where the default is needed and fails.
The state differs at most in the temporary. A default that is known to be non-null
makes the result so, if the choice is of the non-nullable object type. -/
theorem eval_withDefault (w : World) (hw : w.IdentifiesNull) (e fallback : Expr) (type : Ty)
    (supply : Supply) {result : Expr} {supply' : Supply}
    (hrun : withDefault e fallback type supply = (result, supply'))
    (hconsistent : e.isKnownNonNull = true → ∀ s s', e.eval w s ≠ some (.null, s'))
    (hfresh : ∀ v ∈ fallback.allVariables, ¬ supply.Issues supply' v.id) :
    (∀ s, SameOutcome (supply.Issues supply') (result.eval w s)
        (unlessNull (e.eval w) (fallback.eval w) s)) ∧
      (fallback.isKnownNonNull = true → type = Known.object.toNonNullable →
        result.isKnownNonNull = true) := by
  -- The four branches of the function, in its order.
  unfold withDefault at hrun
  split at hrun
  · rename_i hknown
    cases hrun
    refine ⟨fun s => ?_, fun _ _ => hknown⟩
    rw [unlessNull_of_ne_null (hconsistent hknown s)]
    exact .refl _
  split at hrun
  · rename_i hnull
    cases hrun
    refine ⟨fun s => ?_, fun hfallback _ => hfallback⟩
    cases e with
    | nullLiteral _ => exact .refl _
    | _ => cases hnull
  split at hrun
  · rename_i hidempotent
    cases hrun
    refine ⟨fun s => ?_, fun _ htype => ?_⟩
    · rw [eval_singleton, eval_nullChoice_of_idempotent hw hidempotent]
      exact .refl _
    · subst htype
      rfl
  · cases hrun
    -- The supply issues just the one temporary.
    have hother : fallback.Everywhere fun x => ∀ v ∈ x.ownVariables,
        ¬ supply.Issues (supply.fresh defaultedTemporary e.type).2 v.id :=
      fun x hx v hv => hfresh v (Expr.mem_allVariables.mpr ⟨x, hx, hv⟩)
    refine ⟨fun s => ?_, fun _ htype => ?_⟩
    · exact sameOutcome_temporary hw (supply.issues_fresh defaultedTemporary e.type) hother s
    · subst htype
      rfl

/-! ## A run -/

/-- `this.next()` -/
def nextOfThis : Expr :=
  .call (some (.thisOf (.classNamed "t.Box")))
    { enclosing := { qualifiedName := "t.Box" }, name := "next"
      returnType := .classNamed "t.Box" } []

/-- `this.count`, an `int` -/
def countOfThis : Expr :=
  .fieldAccess (some (.thisOf (.classNamed "t.Box")))
    { enclosing := { qualifiedName := "t.Box" }, name := "count", type := .prim .int }

/-- A world in which the first call turns zeros in the heap into ones, and a second
one would turn them into twos. Calls answer null. -/
def countingWorld : World where
  self := .object 0
  unary _ _ _ := none
  binary _ _ v v' := some (.bool (decide (v = v')))
  cast _ v := some v
  call _ _ _ heap := some (.null, fun location =>
    if heap location = .number (.integer 0) then .number (.integer 1) else .number (.integer 2))
  create _ _ _ := none

/-- No variables, and the number in all fields. -/
def countState (n : Int64) : State where
  store _ := none
  heap _ := .number (.integer n)

/-- The call is made once, before the default is read. -/
theorem nextOfThis_withDefault :
    ∃ result supply', withDefault nextOfThis countOfThis Known.object.toNonNullable
        { origin := 1 } = (result, supply') ∧
      SameOutcome (Supply.Issues { origin := 1 } supply')
        (result.eval countingWorld (countState 0)) (some (.number (.integer 1), countState 1)) ∧
      result.isKnownNonNull = true := by
  have hw : countingWorld.IdentifiesNull := fun _ _ => rfl
  have hunknown : nextOfThis.isKnownNonNull = true →
      ∀ s s', nextOfThis.eval countingWorld s ≠ some (.null, s') := fun h => by cases h
  obtain ⟨houtcome, hknown⟩ := eval_withDefault countingWorld hw nextOfThis countOfThis
    Known.object.toNonNullable { origin := 1 } rfl hunknown (by decide)
  exact ⟨_, _, rfl, houtcome (countState 0), hknown rfl rfl⟩

end NullSafety

end Lowering
