import Lowering.Proofs.Evaluation.Reads
import Lowering.Proofs.NullSafety.Relation

/-!
# Asserting keeps the meaning

What the asserting traversal makes of an expression may fail where the
expression does not, but where it ends normally, so does the expression, with
the same value, the same heap and the same variables apart from the temporaries
of the traversal.

The proof is a simulation along the evaluator, one case per kind of expression.
The cases that do more than copy are updates, whose receiver is held by a
temporary and whose target is read once more, and sequences.

Main statement: `NullSafety.eval_of_converted`.
-/

namespace Lowering

open Conversion Eval

namespace NullSafety

/-- What the simulation needs of every node of the input. -/
structure Evaluable (T : VariableId → Prop) (e : Expr) : Prop where
  fresh : ∀ v ∈ e.ownVariables, ¬ T v.id
  integral : e.isIntegral = true
  sequence : e.endsInEmpty = false

/-- Wherever the result ends normally, it has the value of the expression. -/
def SameValue (w : World) (T : VariableId → Prop) (e e' : Expr) : Prop :=
  Refines T (e.eval w) (e'.eval w)

/-- The result has the value of the expression and denotes the same place, which
is no temporary. -/
structure SameMeaning (w : World) (T : VariableId → Prop) (e e' : Expr) : Prop where
  value : SameValue w T e e'
  place : Refines T (e.place w) (e'.place w)
  slot : ∀ id s s', e.place w s = some (.slot id, s') → ¬ T id

section

variable {w : World} {T : VariableId → Prop}

/-! ## Parts -/

/-- Parts are evaluated in the same order on both sides, so refinement passes through the ways in
which nodes hold their parts. -/
theorem refines_evalOption {q q' : Option Expr} (h : Option.Rel (SameValue w T) q q') :
    Refines T (Expr.evalOption w q) (Expr.evalOption w q') := by
  cases h with
  | none => exact .pure _
  | some h => exact Refines.bind h fun _ => .pure _

theorem refines_evalList {es es' : List Expr} (h : List.Forall₂ (SameValue w T) es es') :
    Refines T (Expr.evalList w es) (Expr.evalList w es') := by
  induction h with
  | nil => exact .pure _
  | cons he _ ih => exact Refines.bind he fun _ => ih.bind fun _ => .pure _

/-- Members of a sequence are evaluated for their effects, and the last one for its value. -/
theorem refines_evalAfter {es es' : List Expr} (h : List.Forall₂ (SameValue w T) es es')
    (v : Value) : Refines T (Expr.evalAfter w v es) (Expr.evalAfter w v es') := by
  -- The value so far is replaced by that of each member in turn.
  induction h generalizing v with
  | nil => exact .pure _
  | cons he _ ih => exact Refines.bind he fun v' => ih v'

theorem refines_evalFragments {fs fs' : List (Fragment Expr)}
    (h : List.Forall₂ (Fragment.Rel (SameValue w T)) fs fs') :
    Refines T (Expr.evalFragments w fs) (Expr.evalFragments w fs') := by
  induction h with
  | nil => exact .pure _
  | cons hf _ ih =>
    cases hf with
    | mk hi => exact (refines_evalOption hi).bind fun _ => (Refines.setSlot _ _).bind fun _ => ih

/-- An assertion only adds a failure. -/
theorem SameValue.wrapped {e e₁ e₂ : Expr} (h : SameValue w T e e₁) (hwrapped : Wrapped e₁ e₂) :
    SameValue w T e e₂ := by
  cases hwrapped with
  | same => exact h
  | asserted =>
    refine Refines.of_runs h fun t v t' hrun => ?_
    obtain ⟨v₁, t₁, heval, hcheck⟩ := bind_eq_some.mp hrun
    cases v₁ with
    -- The assertion fails on null, where the expression itself goes on.
    | null => cases hcheck
    | _ =>
      cases hcheck
      exact ⟨_, heval, .refl _⟩

/-! ## Updates -/

/-- Places other than temporaries are read alike, from states that agree apart from temporaries. -/
theorem refines_read {place : Place} (h : ∀ id, place = .slot id → ¬ T id) :
    Refines T (read place) (read place) := by
  cases place with
  | slot id => exact .read_slot (h id rfl)
  | field location => exact .read_field location

theorem refines_write (place : Place) (v : Value) :
    Refines T (write place v) (write place v) := by
  cases place with
  | slot id => exact .setSlot id (some v)
  | field location => exact .write_field location v

/-- What reads the place and goes on alike, with a place that is no temporary. -/
theorem refines_update {y z : Eval Place} {K K' : Place → Value → Eval Value}
    (hslot : ∀ id s s', y s = some (.slot id, s') → ¬ T id)
    (hK : ∀ place old, Refines T (K place old) (K' place old)) (hyz : Refines T y z) :
    Refines T (y >>= fun place => Eval.read place >>= K place)
      (z >>= fun place => Eval.read place >>= K' place) := by
  -- It has to be known which place was found, to exclude temporaries.
  refine hyz.bind_result fun place s s' hplace => ?_
  have hread : Refines T (Eval.read place) (Eval.read place) := by
    refine refines_read fun id hid => hslot id s s' ?_
    rw [← hid, hplace]
  exact hread.bind (hK place)

/-- Compound assignments read the place, evaluate the right side and write. -/
theorem refines_compound {op : BinaryOp} {type : Ty} {y z : Eval Place} {r r' : Eval Value}
    (hslot : ∀ id s s', y s = some (.slot id, s') → ¬ T id) (hr : Refines T r r')
    (hyz : Refines T y z) :
    Refines T (y >>= compound w op type r) (z >>= compound w op type r') :=
  refines_update hslot (fun _ _ => hr.bind fun _ => (Refines.ofOption _).bind fun _ =>
    (refines_write _ _).bind fun _ => .pure _) hyz

theorem refines_step {op : UnaryOp} {fixity : Fixity} {type : Ty} {y z : Eval Place}
    (hslot : ∀ id s s', y s = some (.slot id, s') → ¬ T id) (hyz : Refines T y z) :
    Refines T (y >>= step w op fixity type) (z >>= step w op fixity type) :=
  refines_update hslot (fun _ _ => (Refines.ofOption _).bind fun _ =>
    (refines_write _ _).bind fun _ => .pure _) hyz

/-- A check of a target whose receiver has no effects leaves the state as it is;
other targets have no place. -/
theorem run_of_check {α : Type} {K : Place → Eval α} {target check : Expr} {s : State}
    {r : α × State} (hrepeatable : hasRepeatableReceiver target = true)
    (hcheck : Wrapped target check)
    (h : (check.eval w >>= fun _ => target.place w >>= K) s = some r) :
    (target.place w >>= K) s = some r := by
  obtain ⟨_, s₁, heval, hrest⟩ := bind_eq_some.mp h
  have hidem : target.isIdempotent = true := by
    cases target with
    | varRef v => rfl
    | fieldAccess q f => cases q <;> exact hrepeatable
    -- Nothing else denotes a place, so the run would have failed.
    | _ => cases hrest
  have hstable : Stable (check.eval w) := by
    cases hcheck with
    | same => exact Expr.stable_eval hidem
    | asserted => exact Expr.stable_eval (e := .notNull target) hidem
  obtain rfl := hstable s _ s₁ heval
  exact hrest

theorem place_fieldAccess (q : Expr) (f : FieldRef) :
    (Expr.fieldAccess (some q) f).place w = q.eval w >>= fun v =>
      ofOption (w.locate f (some v)) >>= fun location => pure (.field location) := by
  simp [Expr.place, Expr.evalOption]

/-- The place of a field after its receiver has been bound to a temporary. -/
def boundPlace (w : World) (q : Expr) (f : FieldRef) (temporary : Variable) : Eval Place := do
  let value ← q.eval w
  setSlot temporary.id (some value)
  (Expr.fieldAccess (some (.varRef temporary)) f).place w

/-- Binding the receiver first finds the place that the target denotes. -/
theorem refines_boundPlace {x : Eval Place} {q : Expr} {f : FieldRef} {temporary : Variable}
    (hT : T temporary.id) (h : Refines T x ((Expr.fieldAccess (some q) f).place w)) :
    Refines T x (boundPlace w q f temporary) := by
  refine h.of_runs fun t place t' hrun => ?_
  obtain ⟨value, t₁, hq, hrun⟩ := bind_eq_some.mp hrun
  obtain ⟨_, t₂, hset, hrun⟩ := bind_eq_some.mp hrun
  -- The run is taken apart: the receiver, the binding, the read of the temporary, the location.
  rw [place_fieldAccess] at hrun
  obtain ⟨value', t₃, hread, hrun⟩ := bind_eq_some.mp hrun
  obtain ⟨location, t₄, hlocate, hrun⟩ := bind_eq_some.mp hrun
  cases hset
  -- The temporary holds the value of the receiver.
  obtain ⟨rfl, rfl⟩ : value = value' ∧ _ = t₃ := by
    simpa [Expr.eval, Eval.read] using hread
  obtain ⟨_, hlocated, heq⟩ := Option.map_eq_some_iff.mp hlocate
  cases heq
  cases hrun
  -- The expression itself ends in the state before the binding.
  refine ⟨t₁, ?_, rfl, fun id hid => ?_⟩
  · rw [place_fieldAccess]
    refine bind_eq_some.mpr ⟨value, t₁, hq, bind_eq_some.mpr ⟨location, t₁, ?_, rfl⟩⟩
    simp [ofOption, hlocated]
  · have hne : id ≠ temporary.id := fun heq => hid (heq ▸ hT)
    simp only [if_neg hne]

/-- An update with its checks does what the update does. `K` is what the update
does with the place of its target. -/
theorem refines_guarded {x : Eval Value} {y : Eval Place} {K : Place → Eval Value}
    {update : Expr → Expr} {target e : Expr} (h : Guarded assertions T update target e)
    (hupdate : ∀ t, (update t).eval w = t.place w >>= K)
    (hplace : Refines T y (target.place w))
    (hx : ∀ z, Refines T y z → Refines T x (z >>= K)) : Refines T x (e.eval w) := by
  cases h with
  | unboxed _ | unchanged _ _ _ =>
    rw [hupdate]
    exact hx _ hplace
  | checked hrepeatable hcheck _ =>
    -- A run of the sequence is a run of the update alone, as the check leaves no trace.
    refine (hx _ hplace).of_runs fun t v t' hrun => ?_
    simp only [Expr.eval, Expr.evalAfter, bind_pure, hupdate] at hrun
    exact ⟨t', run_of_check hrepeatable (wrapped_of_required hcheck) hrun, .refl _⟩
  | bound _ _ hT _ _ _ =>
    -- The receiver is evaluated once, into the temporary; the update reads that.
    have hbound := hx _ (refines_boundPlace hT hplace)
    simpa [Expr.declareOne, Expr.eval, Expr.evalAfter, Expr.evalFragments, Expr.evalOption, hupdate,
      boundPlace] using hbound
  | @boundChecked q check f temporary _ _ hT _ hcheck _ =>
    refine (hx _ (refines_boundPlace hT hplace)).of_runs fun t v t' hrun => ?_
    simp only [Expr.declareOne, Expr.eval, Expr.evalAfter, Expr.evalFragments, Expr.evalOption,
      bind_pure, hupdate, bind_assoc, pure_bind] at hrun
    refine ⟨t', ?_, .refl _⟩
    simp only [boundPlace, bind_assoc]
    obtain ⟨value, t₁, hq, hrun⟩ := bind_eq_some.mp hrun
    obtain ⟨_, t₂, hset, hrun⟩ := bind_eq_some.mp hrun
    -- A read through the temporary has no effect, so the check can be left out.
    have hrest := run_of_check rfl (wrapped_of_required hcheck) hrun
    exact bind_eq_some.mpr ⟨value, t₁, hq, bind_eq_some.mpr ⟨(), t₂, hset, hrest⟩⟩

/-! ## All kinds of expressions -/

/-- Expressions that denote no place. -/
theorem SameMeaning.of_value {e e' : Expr} (hvalue : SameValue w T e e')
    (hplace : e.place w = fail) (hplace' : e'.place w = fail) : SameMeaning w T e e' where
  value := hvalue
  place := by
    rw [hplace']
    exact .fail
  slot id s s' h := by
    rw [hplace] at h
    cases h

theorem sameMeaning_leaf {e : Expr} (hleaf : e.isLeaf = true)
    (hfresh : ∀ v ∈ e.ownVariables, ¬ T v.id) : SameMeaning w T e e := by
  cases e with
  | nullLiteral | boolLiteral | numberLiteral | stringLiteral | thisRef =>
    exact .of_value (Refines.pure _) rfl rfl
  | varRef v =>
    have hfresh : ¬ T v.id := hfresh v List.mem_cons_self
    refine ⟨.read_slot hfresh, .pure _, fun id s s' h => ?_⟩
    cases h
    exact hfresh
  | _ => cases hleaf

/-- A field is read and written at the location that its receiver determines. -/
theorem sameMeaning_fieldAccess {q q' : Option Expr} {f : FieldRef}
    (hq : Option.Rel (SameValue w T) q q') :
    SameMeaning w T (.fieldAccess q f) (.fieldAccess q' f) where
  value := (refines_evalOption hq).bind fun _ => (Refines.ofOption _).bind fun _ => .read_field _
  place := (refines_evalOption hq).bind fun _ => (Refines.ofOption _).bind fun _ => .pure _
  slot id s s' h := by
    obtain ⟨_, _, _, h⟩ := bind_eq_some.mp h
    obtain ⟨_, _, _, h⟩ := bind_eq_some.mp h
    cases h

theorem sameValue_binary {op : BinaryOp} {l l' r r' : Expr} {type : Ty}
    (hop : op.isAssignment = false) (hl : SameValue w T l l') (hr : SameValue w T r r') :
    SameValue w T (.binary op l r type) (.binary op l' r' type) := by
  cases op with
  | assign | plusAssign | minusAssign => cases hop
  -- The right side is evaluated only if the left side leaves the result open.
  | conditionalAnd =>
    refine Refines.bind hl fun _ => (Refines.ofOption _).bind fun chosen => ?_
    cases chosen
    · exact .pure _
    · exact hr
  | conditionalOr =>
    refine Refines.bind hl fun _ => (Refines.ofOption _).bind fun chosen => ?_
    cases chosen
    · exact hr
    · exact .pure _
  | _ => exact Refines.bind hl fun _ => Refines.bind hr fun _ => .ofOption _

/-- Calls see receiver, arguments and the heap, and none of these has temporaries in it. -/
theorem sameMeaning_call {q q' : Option Expr} {m : MethodRef} {as as' : List Expr}
    (hq : Option.Rel (SameValue w T) q q') (has : List.Forall₂ (SameValue w T) as as') :
    SameMeaning w T (.call q m as) (.call q' m as') := by
  refine .of_value ?_ rfl rfl
  exact (refines_evalOption hq).bind fun _ => (refines_evalList has).bind fun _ =>
    (Refines.ofOption _).bind fun _ => .onHeap _

theorem sameMeaning_newInstance {m : MethodRef} {as as' : List Expr}
    (has : List.Forall₂ (SameValue w T) as as') :
    SameMeaning w T (.newInstance m as) (.newInstance m as') := by
  refine .of_value ?_ rfl rfl
  exact (refines_evalList has).bind fun _ => .onHeap _

theorem sameMeaning_assign {l l' r r' : Expr} {type : Ty} (hl : SameMeaning w T l l')
    (hr : SameValue w T r r') :
    SameMeaning w T (.binary .assign l r type) (.binary .assign l' r' type) := by
  refine .of_value ?_ rfl rfl
  exact hl.place.bind fun _ => Refines.bind hr fun _ => (refines_write _ _).bind fun _ => .pure _

theorem sameMeaning_unary {op : UnaryOp} {fixity : Fixity} {x x' : Expr} {type : Ty}
    (hop : op.hasSideEffect = false) (hx : SameValue w T x x') :
    SameMeaning w T (.unary op fixity x type) (.unary op fixity x' type) := by
  refine .of_value ?_ rfl rfl
  cases op with
  | increment | decrement => cases hop
  | _ => exact Refines.bind hx fun _ => .ofOption _

theorem sameMeaning_cast {type : Ty} {x x' : Expr} (hx : SameValue w T x x') :
    SameMeaning w T (.cast type x) (.cast type x') :=
  .of_value (Refines.bind hx fun _ => .ofOption _) rfl rfl

/-- Only the branch that is chosen is evaluated, on both sides the same one. -/
theorem sameMeaning_conditional {type : Ty} {c c' a a' b b' : Expr} (hc : SameValue w T c c')
    (ha : SameValue w T a a') (hb : SameValue w T b b') :
    SameMeaning w T (.conditional type c a b) (.conditional type c' a' b') := by
  refine .of_value (Refines.bind hc fun _ => (Refines.ofOption _).bind fun chosen => ?_) rfl rfl
  cases chosen
  · exact hb
  · exact ha

theorem sameMeaning_notNull {x x' : Expr} (hx : SameValue w T x x') :
    SameMeaning w T (.notNull x) (.notNull x') :=
  .of_value (Refines.bind hx fun _ => .ofOption _) rfl rfl

theorem sameMeaning_declare {fs fs' : List (Fragment Expr)}
    (hfs : List.Forall₂ (Fragment.Rel (SameValue w T)) fs fs') :
    SameMeaning w T (.declare fs) (.declare fs') :=
  .of_value ((refines_evalFragments hfs).bind fun _ => .pure _) rfl rfl

/-- The traversal makes no double literals. They are excluded because zeros of either sign compare
as equal, so that a check which is left out as repeated could have another value than the one that
stays. -/
theorem integral_of_converted {e e' : Expr} (h : Converted assertions T e e')
    (he : e.Everywhere fun x => x.isIntegral = true) :
    e'.Everywhere fun x => x.isIntegral = true := by
  refine (everywhere_congruence (fun e hleaf => ?_) fun _ _ => rfl).holds h he
  cases e <;> first | rfl | cases hleaf

/-- Every node has the meaning of its result. The lemmas above are the cases, and updates go through
`refines_guarded`. -/
theorem sameMeaning_congruence :
    WrapCongruence T (Evaluable T) (SameMeaning w T) (SameValue w T) where
  wrap h hwrapped := h.value.wrapped hwrapped
  leaf hleaf he := sameMeaning_leaf hleaf he.fresh
  fieldAccess _ hq := sameMeaning_fieldAccess hq
  call _ hq has := sameMeaning_call hq has
  newInstance _ has := sameMeaning_newInstance has
  binary _ hop hl hr := .of_value (sameValue_binary hop hl hr) rfl rfl
  assign _ hl hr := sameMeaning_assign hl hr
  compound {op l l₁ r r' e type} _ hop _ hl hr hguarded := by
    have hplace := hguarded.root (R := fun e => e.place w = fail) (fun _ => rfl) fun _ _ => rfl
    refine .of_value ?_ rfl hplace
    rcases hop with rfl | rfl
    · exact refines_guarded hguarded (fun _ => rfl) hl.place fun _ => refines_compound hl.slot hr
    · exact refines_guarded hguarded (fun _ => rfl) hl.place fun _ => refines_compound hl.slot hr
  unary _ hop hx := sameMeaning_unary hop hx
  step {op fixity x x₁ e type} _ hop _ hx hguarded := by
    have hplace := hguarded.root (R := fun e => e.place w = fail) (fun _ => rfl) fun _ _ => rfl
    refine .of_value ?_ rfl hplace
    cases op with
    | increment | decrement =>
      exact refines_guarded hguarded (fun _ => rfl) hx.place fun _ => refines_step hx.slot
    | _ => cases hop
  cast _ hx := sameMeaning_cast hx
  conditional _ hc ha hb := sameMeaning_conditional hc ha hb
  notNull _ hx := sameMeaning_notNull hx.value
  multi {es es'} he hconverted hes := by
    refine .of_value ?_ rfl rfl
    have hintegral : ∀ e ∈ flatten es', e.Everywhere fun x => x.isIntegral = true := by
      refine everywhere_flatten fun e' he' => ?_
      obtain ⟨e, hmem, hee'⟩ := exists_of_mem_forall₂ hconverted he'
      exact integral_of_converted hee' ((he.child hmem).imp fun _ h => h.integral)
    -- An empty member at the end would be spliced away, and the value with it.
    have hlast := Converted.getLast?_ne_empty hconverted (he.imp fun _ h => h.sequence)
    -- What is done to the transformed members as a sequence has no bearing on its meaning.
    show Refines T (Expr.evalAfter w .void es) (Expr.evalAfter w .void _)
    rw [Expr.evalAfter_dropRepeated hintegral, Expr.evalAfter_flatten hlast]
    exact refines_evalAfter (hes.imp fun _ _ h => h.value) .void
  declare _ hfs := sameMeaning_declare hfs

end

/-- Let `e` have no sequence that ends in an empty one and no double literals, and
let the temporaries of the traversal not occur in it. Whenever the result of the
traversal ends normally, `e` does so too from the same state, with the same
value, the same heap, and the same store except for the temporaries. -/
theorem eval_of_converted (w : World) (e : Expr) (cursor : Cursor) (tally : Tally)
    {e' : Expr} {cursor' : Cursor} {tally' : Tally}
    (hrun : (conversion asserting).expr e cursor tally = ((e', cursor'), tally'))
    (hsequence : e.Everywhere fun x => x.endsInEmpty = false)
    (hintegral : e.Everywhere fun x => x.isIntegral = true)
    (hfresh : ∀ v ∈ e.allVariables, ¬ cursor.supply.Issues cursor'.supply v.id)
    {s s' : State} {v : Value} (heval : e'.eval w s = some (v, s')) :
    ∃ s₁, e.eval w s = some (v, s₁) ∧ s₁.heap = s'.heap ∧
      ∀ id, ¬ cursor.supply.Issues cursor'.supply id → s₁.store id = s'.store id := by
  have hconverted := (expr_converted asserting_answers e cursor tally).2
  rw [hrun] at hconverted
  have he : e.Everywhere (Evaluable (cursor.supply.Issues cursor'.supply)) := fun x hx =>
    ⟨fun v hv => hfresh v (Expr.mem_allVariables.mpr ⟨x, hx, hv⟩), hintegral x hx, hsequence x hx⟩
  -- Both runs start in the same state, so the states agree to begin with.
  have hmeaning := (sameMeaning_congruence (w := w)).holds (hconverted _ fun _ h => h) he
  obtain ⟨s₁, hs₁, hagree⟩ := hmeaning.value s s (.refl s) v s' heval
  exact ⟨s₁, hs₁, hagree.heap, hagree.store⟩

/-! ## A run -/

/-- `box.next().value++` -/
def stepNext : Expr :=
  .unaryOperation .increment .trailing
    (.fieldAccess
      (some (.call
        (some (.varRef { id := { serial := 0 }, name := "box", type := .classNamed "t.Box" }))
        { enclosing := { qualifiedName := "t.Box" }, name := "next"
          returnType := .classNamed "t.Box" } []))
      { enclosing := { qualifiedName := "t.Box" }, name := "value"
        type := .classNamed "java.lang.Integer" })

/-- A world in which `next` clears the fields and answers box 2. -/
def boxWorld : World where
  self := .object 0
  unary _ _ v :=
    match v with
    | .number (.integer n) => some (.number (.integer (n + 1)))
    | _ => none
  binary _ _ _ _ := none
  cast _ v := some v
  call _ _ _ _ := some (.object 2, fun _ => .number (.integer 0))
  create _ _ _ := none

/-- Variable 0 is box 1. -/
def boxState : State where
  store id := if id.serial = 0 then some (.object 1) else none
  heap _ := .null

/-- The result binds the box to a temporary and checks its field before the step;
it ends normally, and so does the expression. -/
theorem stepNext_meaning :
    ∃ e' cursor' tally', (conversion asserting).expr stepNext { supply := { origin := 1 } } {} =
        ((e', cursor'), tally') ∧
      ∃ s', e'.eval boxWorld boxState = some (.number (.integer 0), s') ∧
        ∃ s₁, stepNext.eval boxWorld boxState = some (.number (.integer 0), s₁) ∧
          s₁.heap = s'.heap ∧
          ∀ id, ¬ Supply.Issues { origin := 1 } cursor'.supply id → s₁.store id = s'.store id :=
  ⟨_, _, _, rfl, _, rfl, eval_of_converted boxWorld stepNext { supply := { origin := 1 } } {} rfl
    (by decide) (by decide) (by decide) rfl⟩

end NullSafety

end Lowering
