import Lowering.Proofs.NullSafety.Recheck
import Lowering.Proofs.NullSafety.Safe
import Lowering.Proofs.NullSafety.Settled
import Lowering.Proofs.Tree.Traces

/-!
# The traversal over a settled unit

On a null-safe and settled unit without wildcards the first traversal of the pass
changes nothing. At every site the value is known to be non-null, so the handler
returns it as it is. Before an update it makes a check, which the sequence around
the update drops as a repetition. No temporary is taken and no diagnostic is
recorded.

Main statement: `NullSafety.unit_quiet`.
-/

namespace Lowering

open Conversion

namespace NullSafety

/-! ## Values that need no assertion -/

section

variable {e : Expr}

/-- A value that is known to be non-null is given back, and nothing is counted or reported. -/
theorem insert_of_known (h : e.isKnownNonNull = true) (site : Site) : insert e site = pure e := by
  funext tally
  simp only [insert, assertNonNull, h, if_true]
  rfl

theorem nonNullValue_of_known (h : e.isKnownNonNull = true) (inferred declared : Ty) :
    nonNullValue asserting inferred declared e = pure e := by
  funext c
  show (do let value ← insert e c.site; pure (value, c)) = (pure (e, c) : StateM Tally _)
  rw [insert_of_known h, pure_bind]

theorem requiredValue_of_known (h : e.isKnownNonNull = true) : requiredValue asserting e = pure e :=
  nonNullValue_of_known h _ _

/-- Each function that adjusts values gives its argument back, if the tree is safe at this site.
Plain types are needed since wildcards are asserted even where they cannot be null. -/
theorem operandValue_of_safe (hplain : e.Plain) (h : e.canBeNull = false) :
    operandValue asserting e = pure e := by
  unfold operandValue
  split
  · rfl
  · exact requiredValue_of_known (hplain.isKnownNonNull h)

theorem slotValue_of_safe {inferred declared : Ty} (hplain : e.Plain)
    (h : TakesNoNull inferred declared → e.canBeNull = false) :
    slotValue asserting inferred declared e = pure e := by
  unfold slotValue
  split
  -- A boxed value flows into a primitive slot, which takes no null.
  · rename_i hunboxed
    have hslot : TakesNoNull inferred declared := by
      cases inferred with
      | prim p => exact ⟨.inl rfl, rfl⟩
      | _ => simp [Ty.isPrimitive] at hunboxed
    exact nonNullValue_of_known (hplain.isKnownNonNull (h hslot)) _ _
  · funext c
    show (do
      let value ← (if excludesNull inferred declared then insert e c.site else pure e)
      pure (value, c)) = (pure (e, c) : StateM Tally _)
    split
    -- The handler asserts in slots that take no null, and there the value is safe.
    · rename_i hexcludes
      have hslot : TakesNoNull inferred declared := by
        simpa [TakesNoNull, excludesNull, and_comm] using hexcludes
      rw [insert_of_known (hplain.isKnownNonNull (h hslot)), pure_bind]
    · rfl

theorem conditionValue_of_safe (hplain : e.Plain) (h : e.canBeNull = false) :
    conditionValue asserting e = pure e :=
  slotValue_of_safe hplain fun _ => h

theorem receiverValue_of_safe {isStatic : Bool} {q : Option Expr} (hplain : ∀ e ∈ q.toList, e.Plain)
    (h : isStatic = false → ∀ e ∈ q, e.canBeNull = false) :
    receiverValue asserting isStatic q = pure q := by
  cases q with
  | none => rfl
  | some e =>
    cases isStatic with
    | true => rfl
    | false =>
      have hknown := (hplain e (by simp)).isKnownNonNull (h rfl e rfl)
      show (do let value ← requiredValue asserting e; pure (some value)) = _
      rw [requiredValue_of_known hknown, pure_bind]

/-- Arguments are safe in the slots that they have. -/
theorem argumentValues_of_safe {is ds : List Ty} {es : List Expr} (hplain : ∀ e ∈ es, e.Plain)
    (h : ∀ a ∈ (is.zip ds).zip es, TakesNoNull a.1.1 a.1.2 → a.2.canBeNull = false) :
    argumentValues asserting is ds es = pure es := by
  fun_induction argumentValues asserting is ds es with
  | case1 i is d ds e es ih =>
    rw [List.zip_cons_cons, List.zip_cons_cons, List.forall_mem_cons] at h
    rw [List.forall_mem_cons] at hplain
    rw [slotValue_of_safe hplain.1 h.1, pure_bind, ih hplain.2 h.2, pure_bind]
  | case2 => rfl

/-- Initializers are safe in the slots of their variables. -/
theorem initializerValues_of_safe {fs : List (Fragment Expr)}
    (hplain : ∀ e ∈ fs.filterMap (·.initializer), e.Plain)
    (h : ∀ f ∈ fs, ∀ e ∈ f.initializer, TakesNoNull f.binder.type f.binder.type →
      e.canBeNull = false) :
    initializerValues asserting fs = pure fs := by
  fun_induction initializerValues asserting fs with
  | case1 => rfl
  | case2 binder fs ih =>
    rw [List.forall_mem_cons] at h
    rw [ih hplain h.2, pure_bind]
  | case3 binder e fs ih =>
    rw [List.forall_mem_cons] at h
    obtain ⟨he, hfs⟩ : e.Plain ∧ ∀ x ∈ fs.filterMap (·.initializer), x.Plain := by
      simpa using hplain
    rw [slotValue_of_safe he (h.1 e rfl), pure_bind, ih hfs h.2, pure_bind]

end

/-! ## Updates that have their check -/

section

variable {update : Expr → Expr} {others : List Expr} {t : Expr} {method : Option MethodRef}

/-- Judges a computation from every cursor inside the given method: the method
and the supply stay as they are, and no diagnostic is recorded. -/
def quietLogic (method : Option MethodRef) :
    TraceLogic (StateT Cursor (StateM Tally)) Unit Empty where
  Holds _ x Q := ∀ (c : Cursor) (s : Tally), c.site.enclosingMethod = method →
    (x c s).1.2.site.enclosingMethod = method ∧ (x c s).1.2.supply = c.supply ∧
      (x c s).2.problems = s.problems ∧ Q (x c s).1.1
  pure hQ := fun c s hm => ⟨hm, rfl, rfl, hQ⟩
  bind {α β g g' x f Q Q'} hx hf := by
    intro c s hm
    obtain ⟨hm₁, hsupply₁, hproblems₁, hQ⟩ := hx c s hm
    obtain ⟨hm₂, hsupply₂, hproblems₂, hQ'⟩ := hf (x c s).1.1 hQ (x c s).1.2 (x c s).2 hm₁
    exact ⟨hm₂, hsupply₂.trans hsupply₁, hproblems₂.trans hproblems₁, hQ'⟩

/-- A read that may be null is checked, without a diagnostic. -/
theorem requiredValue_quiet (hunknown : t.isKnownNonNull = false)
    (hnull : t.isNullLiteral = false) :
    (quietLogic method).Holds (fun _ => []) (requiredValue asserting t) (· = .notNull t) := by
  intro c s hm
  -- Only null literals are reported; all other assertions are counted.
  have hinsert : insert t c.site s = (.notNull t, { s with inserted := s.inserted + 1 }) := by
    simp [insert, assertNonNull, hunknown, hnull]
  have hrun : requiredValue asserting t c s =
      ((.notNull t, c), { s with inserted := s.inserted + 1 }) := by
    show (let (value, s) := insert t c.site s; ((value, c), s)) = _
    rw [hinsert]
  rw [hrun]
  exact ⟨hm, rfl, rfl, rfl⟩

/-- An update gets its pending check, and no temporary. The check is counted again, which is why the
judgement leaves counts out. -/
theorem guardedUpdate_quiet (h : IsUpdate update others) (hplace : t.written.isSome = true)
    (hrepeatable : t.type.unboxed?.isSome = true → hasRepeatableReceiver t = true)
    (hsame : (t == t) = true) :
    (quietLogic method).Holds (fun _ => []) (guardedUpdate asserting t update)
      (· = (update t).guarded) := by
  cases hboxed : t.type.unboxed? with
  | none =>
    rw [guardedUpdate_of_unboxed asserting hboxed,
      Expr.guarded_eq (h.pendingCheck_eq_none (.inl hboxed))]
    exact (quietLogic method).pure rfl
  | some p =>
    have hsome : t.type.unboxed?.isSome = true := by rw [hboxed]; rfl
    rw [guardedUpdate_of_repeatable asserting hsome (hrepeatable hsome)]
    cases hknown : t.isKnownNonNull with
    | true =>
      rw [requiredValue_of_known hknown, pure_bind, if_pos hsame,
        Expr.guarded_eq (h.pendingCheck_eq_none (.inr hknown))]
      exact (quietLogic method).pure rfl
    | false =>
      -- Targets are variables and fields.
      have hnull : t.isNullLiteral = false := by
        cases t with
        | nullLiteral => cases hplace
        | _ => rfl
      refine (quietLogic method).bind (requiredValue_quiet hknown hnull) fun check hcheck => ?_
      subst hcheck
      -- An assertion never equals its operand, so the check is kept.
      have hother : ¬ (Expr.notNull t == t) = true := by
        rw [show (Expr.notNull t == t) = false from t.not_sameAs_operand]
        exact Bool.false_ne_true
      have hguarded : (update t).guarded = .multi [.notNull t, update t] := by
        have hpending : (update t).pendingCheck = some (.notNull t) := by
          simp [Expr.pendingCheck, h.updated, hsome, hknown]
        unfold Expr.guarded
        rw [hpending]
      rw [if_neg hother, hguarded]
      exact (quietLogic method).pure rfl

end

/-! ## Expressions -/

/-- What holds of every node of a result of the pass. -/
structure Ready (e : Expr) : Prop where
  safe : e.NullSafe
  tidy : e.Tidy
  plain : e.Plain
  number : e.isNaNLiteral = false

/-- What the traversal makes of the expression: a check is put before an update
that needs it, and nothing else happens. -/
def Reguarded (e e' : Expr) : Prop := e' = e.guarded

section

variable {method : Option MethodRef}

/-- Without a pending check an expression comes back as it was. -/
theorem Reguarded.eq {e e' : Expr} (h : Reguarded e e') (hpending : e.pendingCheck = none) :
    e' = e := by
  rw [h, Expr.guarded_eq hpending]

/-- The same for the ways in which nodes hold their parts. -/
theorem eq_of_reguarded_list {es es' : List Expr} (h : List.Forall₂ Reguarded es es')
    (hpending : ∀ e ∈ es, e.pendingCheck = none) : es' = es := by
  have heq : List.Forall₂ Eq es es' :=
    forall₂_imp_of_mem h fun e he e' hee' => (hee'.eq (hpending e he)).symm
  exact (eq_of_forall₂ heq).symm

theorem eq_of_reguarded_option {q q' : Option Expr} (h : Option.Rel Reguarded q q')
    (hpending : ∀ e ∈ q.toList, e.pendingCheck = none) : q' = q := by
  have heq : Option.Rel Eq q q' :=
    optionRel_imp_of_mem h fun e he e' hee' => (hee'.eq (hpending e he)).symm
  exact (eq_of_optionRel heq).symm

theorem eq_of_reguarded_fragments {fs fs' : List (Fragment Expr)}
    (h : List.Forall₂ (Fragment.Rel Reguarded) fs fs')
    (hpending : ∀ e ∈ fs.filterMap (·.initializer), e.pendingCheck = none) : fs' = fs := by
  have heq : List.Forall₂ (Fragment.Rel Eq) fs fs' := by
    refine forall₂_imp_of_mem h fun f hf f' hff' => ?_
    cases hff' with
    | mk hi =>
      refine .mk (optionRel_imp_of_mem hi fun e he e' hee' => (hee'.eq (hpending e ?_)).symm)
      exact List.mem_filterMap.mpr ⟨_, hf, Option.mem_toList.mp he⟩
  exact (eq_of_fragments heq).symm

/-- Parts of other nodes than sequences have their checks inside them already. -/
theorem Ready.pending {e c : Expr} (h : e.Everywhere Ready) (hflat : ∀ es, e ≠ .multi es)
    (hc : c ∈ e.children) : c.pendingCheck = none :=
  h.here.tidy.parts hflat c hc

theorem Ready.plain_child {e c : Expr} (h : e.Everywhere Ready) (hc : c ∈ e.children) : c.Plain :=
  (h.child hc).here.plain

theorem Ready.same {e : Expr} (h : e.Everywhere Ready) : (e == e) = true :=
  e.sameAs_self (h.imp fun _ hx => hx.number)

/-- Operations that do not write. -/
theorem binaryOperation_of_safe {op : BinaryOp} {l r : Expr} {type : Ty}
    (hop : op.isAssignment = false) (hl : l.Plain) (hr : r.Plain)
    (h : Expr.OperandsSafe op l r type) :
    binaryOperation asserting op l r type = pure (.binary op l r type) := by
  have hboth : l.canBeNull = false ∧ r.canBeNull = false →
      (do
        let left ← operandValue asserting l
        let right ← operandValue asserting r
        pure (Expr.binary op left right type)) = pure (Expr.binary op l r type) := by
    intro ⟨hnull, hnull'⟩
    rw [operandValue_of_safe hl hnull, pure_bind, operandValue_of_safe hr hnull', pure_bind]
  -- An operand is unboxed only beside a primitive one, and then it is safe.
  have hequality : op = .equals ∨ op = .notEquals →
      (r.type.isPrimitive = true → l.canBeNull = false) ∧
        (l.type.isPrimitive = true → r.canBeNull = false) →
      binaryOperation asserting op l r type = pure (.binary op l r type) := by
    intro hop ⟨hnull, hnull'⟩
    rw [binaryOperation_equality hop]
    split
    · rfl
    · split
      · rw [operandValue_of_safe hr (hnull' ‹_›), pure_bind]
      · have hprim : r.type.isPrimitive = true := by simp_all
        rw [operandValue_of_safe hl (hnull hprim), pure_bind]
  cases op with
  | assign | plusAssign | minusAssign => cases hop
  | equals => exact hequality (.inl rfl) h
  | notEquals => exact hequality (.inr rfl) h
  | plus =>
    simp only [binaryOperation]
    split
    · exact hboth (h ‹_›)
    · rfl
  | _ => exact hboth h

/-- `+=` and `-=`: the right side needs nothing, and the target at most its check. -/
theorem compound_quiet {op : BinaryOp} (hop : op = .plusAssign ∨ op = .minusAssign) {l r : Expr}
    {type : Ty} (he : (Expr.binary op l r type).Everywhere Ready) :
    (quietLogic method).Holds (fun _ => []) (binaryOperation asserting op l r type)
      (Reguarded (.binary op l r type)) := by
  have hr : r.Plain := Ready.plain_child he (by simp [Expr.children])
  have hsafe : if l.type.unboxed?.isSome then r.canBeNull = false
      else TakesNoNull l.type (targetDeclaredType l) → r.canBeNull = false := by
    rcases hop with rfl | rfl <;> exact he.here.safe
  -- The right side comes back, whether it is unboxed or assigned.
  have hrun : binaryOperation asserting op l r type =
      guardedUpdate asserting l fun target => .binary op target r type := by
    rw [binaryOperation_compound hop]
    split
    · rw [if_pos ‹_›] at hsafe
      rw [operandValue_of_safe hr hsafe, pure_bind]
    · rw [if_neg ‹_›] at hsafe
      rw [slotValue_of_safe hr hsafe, pure_bind]
  obtain ⟨hplace, hrepeatable⟩ := he.here.tidy.target l (by rcases hop with rfl | rfl <;> rfl)
  have hsame : (l == l) = true := Ready.same (he.child (by simp [Expr.children]))
  rw [hrun]
  exact guardedUpdate_quiet (isUpdate_compound hop r type) hplace hrepeatable hsame

theorem step_quiet {op : UnaryOp} (hop : op.hasSideEffect = true) {fixity : Fixity} {x : Expr}
    {type : Ty} (he : (Expr.unary op fixity x type).Everywhere Ready) :
    (quietLogic method).Holds (fun _ => []) (unaryOperation asserting op fixity x type)
      (Reguarded (.unary op fixity x type)) := by
  have hupdate := isUpdate_step hop fixity type
  obtain ⟨hplace, hrepeatable⟩ := he.here.tidy.target x (hupdate.updated x)
  have hsame : (x == x) = true := Ready.same (he.child List.mem_cons_self)
  have hquiet : (quietLogic method).Holds _ (guardedUpdate asserting x _) _ :=
    guardedUpdate_quiet hupdate hplace hrepeatable hsame
  cases op with
  | increment | decrement => exact hquiet
  | plus | minus | not => cases hop

/-- Every expression hook puts the pending check before its node and does nothing else. Parts of a
node have no pending checks, so it is given back the parts of the input; only sequences have members
with such checks, and drop them again. -/
theorem conversion_quiet : Transform.TracesExpr (quietLogic method) (conversion asserting) Ready
    Reguarded fun _ _ => [] := by
  constructor
  case nullLiteral => exact fun _ => (quietLogic method).pure rfl
  case boolLiteral => exact fun _ _ => (quietLogic method).pure rfl
  case numberLiteral => exact fun _ _ => (quietLogic method).pure rfl
  case stringLiteral => exact fun _ _ => (quietLogic method).pure rfl
  case thisRef => exact fun _ => (quietLogic method).pure rfl
  case varRef => exact fun _ => (quietLogic method).pure rfl
  case fieldAccess =>
    intro q q' f he hq
    obtain rfl := eq_of_reguarded_option hq fun c hc => Ready.pending he nofun hc
    show (quietLogic method).Holds _ (receiverValue asserting f.isStatic q' >>= fun q =>
      pure (Expr.fieldAccess q f)) _
    rw [receiverValue_of_safe (fun c hc => Ready.plain_child he hc) he.here.safe, pure_bind]
    exact (quietLogic method).pure rfl
  case call =>
    intro q q' target as as' he hq has
    obtain rfl := eq_of_reguarded_option hq fun c hc =>
      Ready.pending he nofun (List.mem_append_left _ hc)
    obtain rfl := eq_of_reguarded_list has fun c hc =>
      Ready.pending he nofun (List.mem_append_right _ hc)
    show (quietLogic method).Holds _ (receiverValue asserting target.isStatic q' >>= fun q =>
      argumentsOf asserting target as' >>= fun as => pure (Expr.call q target as)) _
    rw [receiverValue_of_safe (fun c hc => Ready.plain_child he (List.mem_append_left _ hc))
      he.here.safe.1, pure_bind, argumentsOf, argumentValues_of_safe
      (fun c hc => Ready.plain_child he (List.mem_append_right _ hc)) he.here.safe.2, pure_bind]
    exact (quietLogic method).pure rfl
  case newInstance =>
    intro target as as' he has
    obtain rfl := eq_of_reguarded_list has fun c hc => Ready.pending he nofun hc
    show (quietLogic method).Holds _ (argumentsOf asserting target as' >>= fun as =>
      pure (Expr.newInstance target as)) _
    have hplain : ∀ e ∈ as', e.Plain := fun c hc => Ready.plain_child he hc
    rw [argumentsOf, argumentValues_of_safe hplain he.here.safe, pure_bind]
    exact (quietLogic method).pure rfl
  case binary =>
    intro op l l' r r' type he hl hr
    have hlp : l.Plain := Ready.plain_child he (by simp [Expr.children])
    have hrp : r.Plain := Ready.plain_child he (by simp [Expr.children])
    obtain rfl := hl.eq (Ready.pending he nofun (by simp [Expr.children]))
    obtain rfl := hr.eq (Ready.pending he nofun (by simp [Expr.children]))
    show (quietLogic method).Holds _ (binaryOperation asserting op l' r' type) _
    have hsafe : Expr.OperandsSafe op l' r' type := he.here.safe
    cases op with
    | assign =>
      show (quietLogic method).Holds _
        (slotValue asserting l'.type (targetDeclaredType l') r' >>= fun right =>
          pure (Expr.binary .assign l' right type)) _
      rw [slotValue_of_safe hrp hsafe, pure_bind]
      exact (quietLogic method).pure rfl
    | plusAssign => exact compound_quiet (.inl rfl) he
    | minusAssign => exact compound_quiet (.inr rfl) he
    | _ =>
      rw [binaryOperation_of_safe rfl hlp hrp hsafe]
      exact (quietLogic method).pure rfl
  case unary =>
    intro op fixity x x' type he hx
    have hxp : x.Plain := Ready.plain_child he List.mem_cons_self
    obtain rfl := hx.eq (Ready.pending he nofun List.mem_cons_self)
    cases op with
    | increment | decrement => exact step_quiet rfl he
    | plus | minus | not =>
      show (quietLogic method).Holds _ (operandValue asserting x' >>= fun operand =>
        pure (Expr.unary _ fixity operand type)) _
      rw [operandValue_of_safe hxp (he.here.safe rfl), pure_bind]
      exact (quietLogic method).pure rfl
  case cast =>
    intro type x x' he hx
    obtain rfl := hx.eq (Ready.pending he nofun List.mem_cons_self)
    show (quietLogic method).Holds _ (if type.isPrimitive then do
      let operand ← slotValue asserting type type x'
      pure (Expr.cast type operand) else pure (Expr.cast type x')) _
    split
    · rw [slotValue_of_safe (Ready.plain_child he List.mem_cons_self) fun _ => he.here.safe ‹_›,
        pure_bind]
      exact (quietLogic method).pure rfl
    · exact (quietLogic method).pure rfl
  case conditional =>
    intro type c c' a a' b b' he hc ha hb
    obtain ⟨hcp, hap, hbp⟩ : c.Plain ∧ a.Plain ∧ b.Plain := by
      refine ⟨Ready.plain_child he ?_, Ready.plain_child he ?_, Ready.plain_child he ?_⟩ <;>
        simp [Expr.children]
    obtain rfl := hc.eq (Ready.pending he nofun (by simp [Expr.children]))
    obtain rfl := ha.eq (Ready.pending he nofun (by simp [Expr.children]))
    obtain rfl := hb.eq (Ready.pending he nofun (by simp [Expr.children]))
    show (quietLogic method).Holds _ (conditionalOperation asserting type c' a' b') _
    unfold conditionalOperation
    rw [conditionValue_of_safe hcp he.here.safe.1, pure_bind]
    split
    · obtain ⟨hnull, hnull'⟩ := he.here.safe.2 ‹_›
      rw [operandValue_of_safe hap hnull, pure_bind, operandValue_of_safe hbp hnull', pure_bind]
      exact (quietLogic method).pure rfl
    · exact (quietLogic method).pure rfl
  case notNull =>
    intro x x' he hx
    obtain rfl := hx.eq (Ready.pending he nofun List.mem_cons_self)
    exact (quietLogic method).pure rfl
  -- Each member comes with its check, and all of these repeat checks that are there.
  case multi =>
    intro es es' he hes
    obtain ⟨hprepared, hrepeated⟩ := he.here.tidy.sequence es rfl
    obtain rfl : es' = es.map Expr.guarded := by
      refine (eq_of_forall₂ (List.forall₂_map_left_iff.mpr ?_)).symm
      exact hes.imp fun _ _ h => h.symm
    refine (quietLogic method).pure ?_
    show Expr.multi _ = Expr.multi _
    rw [dropRepeated_flatten_guarded hprepared hrepeated]
  case declare =>
    intro fs fs' he hfs
    obtain rfl := eq_of_reguarded_fragments hfs fun c hc => Ready.pending he nofun hc
    show (quietLogic method).Holds _ (initializerValues asserting fs' >>= fun fs =>
      pure (Expr.declare fs)) _
    rw [initializerValues_of_safe (fun c hc => Ready.plain_child he hc) he.here.safe, pure_bind]
    exact (quietLogic method).pure rfl

end

/-! ## Statements -/

/-- What holds of every statement of a result of the pass, in the given method. -/
structure ReadyStmt (method : MethodRef) (s : Stmt) : Prop where
  safe : s.NullSafe method
  expressions : ∀ e ∈ s.expressions, e.Everywhere Ready ∧ e.pendingCheck = none

section

variable {method : MethodRef}

/-- Expressions in statements have no pending checks, so they come back as they were. -/
theorem expr_quiet {method : Option MethodRef} {e : Expr} (he : e.Everywhere Ready)
    (hpending : e.pendingCheck = none) :
    (quietLogic method).Holds (StmtEvents.silent.expr e) ((conversion asserting).expr e)
      (Eq e) := by
  intro c s hm
  obtain ⟨hmethod, hsupply, hproblems, hresult⟩ :=
    Transform.expr_traces conversion_quiet e he c s hm
  exact ⟨hmethod, hsupply, hproblems, (hresult.eq hpending).symm⟩

/-- Every statement hook gives back its statement, without a temporary and without a diagnostic. -/
theorem stmt_quiet : Transform.TracesStmt (quietLogic (some method)) (conversion asserting)
    (ReadyStmt method) Eq Eq .silent := by
  constructor
  case bracketed =>
    intro s inner g Q hinner c tally hm
    obtain ⟨hmethod, hsupply, hproblems, hQ⟩ := hinner (c.enterStatement s) tally hm
    -- Leaving a statement restores a span and touches nothing else.
    have hexit : ∀ c : Cursor, c.exitStatement.site.enclosingMethod = c.site.enclosingMethod ∧
        c.exitStatement.supply = c.supply := by
      intro c
      unfold Cursor.exitStatement
      split <;> exact ⟨rfl, rfl⟩
    exact ⟨(hexit _).1.trans hmethod, (hexit _).2.trans hsupply, hproblems, hQ⟩
  case expr =>
    intro s e hs he
    exact expr_quiet (hs.expressions e he).1 (hs.expressions e he).2
  case expression =>
    rintro e _ span _ rfl
    exact (quietLogic (some method)).pure rfl
  case block =>
    intro ss ss' span _ hss
    obtain rfl := eq_of_forall₂ hss
    exact (quietLogic (some method)).pure rfl
  case returnValue =>
    intro v v' span hs hv
    obtain rfl := eq_of_optionRel hv
    cases v with
    | none => exact fun c tally hm => ⟨hm, rfl, rfl, rfl⟩
    | some e =>
      have hplain : e.Plain := (hs.expressions e (by simp [Stmt.expressions])).1.here.plain
      have hreturn : (quietLogic (some method)).Holds (fun _ => [])
          (slotValue asserting method.returnType method.declaration.returnType e >>= fun e =>
            pure (Stmt.returnValue (some e) span)) (Eq (.returnValue (some e) span)) := by
        rw [slotValue_of_safe hplain (hs.safe e rfl), pure_bind]
        exact (quietLogic (some method)).pure rfl
      -- The cursor is inside the method, so the hook takes the branch of `hreturn`.
      rintro ⟨⟨_, _, enclosing⟩, _, _⟩ tally hm
      obtain rfl : enclosing = some method := hm
      exact hreturn _ tally rfl
  case conditional =>
    rintro c _ a _ b b' span hs rfl rfl hb
    obtain rfl := eq_of_optionRel hb
    have hplain : c.Plain := (hs.expressions c List.mem_cons_self).1.here.plain
    show (quietLogic (some method)).Holds _ (conditionValue asserting c >>= fun c =>
      pure (Stmt.conditional c a b span)) _
    rw [conditionValue_of_safe hplain hs.safe, pure_bind]
    exact (quietLogic (some method)).pure rfl
  case whileLoop =>
    rintro c _ b _ span hs rfl rfl
    have hplain : c.Plain := (hs.expressions c List.mem_cons_self).1.here.plain
    show (quietLogic (some method)).Holds _ (conditionValue asserting c >>= fun c =>
      pure (Stmt.whileLoop c b span)) _
    rw [conditionValue_of_safe hplain hs.safe, pure_bind]
    exact (quietLogic (some method)).pure rfl
  case forLoop =>
    rintro i i' c c' u u' b _ span hs hi hc hu rfl
    obtain rfl := eq_of_forall₂ hi
    obtain rfl := eq_of_optionRel hc
    obtain rfl := eq_of_forall₂ hu
    cases c with
    | none => exact (quietLogic (some method)).pure rfl
    | some c =>
      have hplain : c.Plain := (hs.expressions c (by simp [Stmt.expressions])).1.here.plain
      show (quietLogic (some method)).Holds _ (conditionValue asserting c >>= fun c =>
        pure (Stmt.forLoop i (some c) u b span)) _
      rw [conditionValue_of_safe hplain (hs.safe c rfl), pure_bind]
      exact (quietLogic (some method)).pure rfl
  case assertion =>
    rintro c _ message message' span hs rfl hmessage
    obtain rfl := eq_of_optionRel hmessage
    have hplain : c.Plain := (hs.expressions c List.mem_cons_self).1.here.plain
    show (quietLogic (some method)).Holds _ (conditionValue asserting c >>= fun c =>
      pure (Stmt.assertion c message span)) _
    rw [conditionValue_of_safe hplain hs.safe.1, pure_bind]
    exact (quietLogic (some method)).pure rfl
  case throwValue =>
    rintro v _ span hs rfl
    have hplain : v.Plain := (hs.expressions v List.mem_cons_self).1.here.plain
    show (quietLogic (some method)).Holds _ (requiredValue asserting v >>= fun v =>
      pure (Stmt.throwValue v span)) _
    rw [requiredValue_of_known (hplain.isKnownNonNull hs.safe), pure_bind]
    exact (quietLogic (some method)).pure rfl

end

/-! ## Units -/

/-- What holds of every result of the pass. -/
structure ReadyUnit (u : CompilationUnit) : Prop where
  safe : u.NullSafe
  expressions : ∀ e ∈ u.expressions, e.Everywhere Ready ∧ e.pendingCheck = none

theorem ReadyUnit.statement {u : CompilationUnit} (h : ReadyUnit u) {d : MethodDecl}
    (hd : d ∈ u.methods) {s : Stmt} (hs : s ∈ d.statements) : ReadyStmt d.ref s :=
  ⟨h.safe.statements d hd s hs, fun e he =>
    h.expressions e (CompilationUnit.mem_expressions_of_statement hd hs he)⟩

theorem field_quiet {f : FieldDecl}
    (hf : ∀ e ∈ f.initializer.toList, e.Everywhere Ready ∧ e.pendingCheck = none)
    (hsafe : ∀ e ∈ f.initializer, TakesNoNull f.ref.type f.ref.declaration.type →
      e.canBeNull = false) :
    (quietLogic none).Holds (fun _ => []) ((conversion asserting).field f) (Eq f) := by
  have henter : (quietLogic none).Holds (fun _ => []) ((conversion asserting).enterField f)
      fun _ => True := fun c s hm => ⟨hm, rfl, rfl, trivial⟩
  have hexit : (quietLogic none).Holds (fun _ => []) ((conversion asserting).exitField f)
      fun _ => True := (quietLogic none).pure trivial
  have honField : (conversion asserting).onField f = pure f := by
    obtain ⟨ref, initializer, span⟩ := f
    cases initializer with
    | none => rfl
    | some e =>
      have hplain : e.Plain := (hf e (by simp)).1.here.plain
      show (do
        let value ← slotValue asserting ref.type ref.declaration.type e
        pure ({ ref, initializer := some value, span } : FieldDecl)) = _
      rw [slotValue_of_safe hplain (hsafe e rfl), pure_bind]
  have hinitializer := Transform.optionalExpr_of_forall (L := quietLogic none)
    (t := conversion asserting) fun e he => expr_quiet (hf e he).1 (hf e he).2
  -- The hook of the field is given the new initializer, which is the old one.
  have hrest : ∀ i, Option.Rel Eq f.initializer i → (quietLogic none).Holds (fun _ => [])
      (do
        let f ← (conversion asserting).onField { f with initializer := i }
        (conversion asserting).exitField f
        pure f) (Eq f) := by
    intro i hi
    rw [← eq_of_optionRel hi, honField, pure_bind]
    exact TraceLogic.of_silent ((quietLogic none).bind hexit fun _ _ => (quietLogic none).pure rfl)
  exact TraceLogic.of_silent ((quietLogic none).bind henter fun _ _ =>
    (quietLogic none).bind hinitializer hrest)

theorem method_quiet {d : MethodDecl} (hd : ∀ s ∈ d.statements, ReadyStmt d.ref s) :
    (quietLogic none).Holds (fun _ => []) ((conversion asserting).method d) (Eq d) := by
  have hbody : (quietLogic (some d.ref)).Holds (fun _ => [])
      ((conversion asserting).optionalBlock d.body) (Eq d.body) := by
    refine Transform.optionalBlock_keeps (fun _ => (quietLogic (some d.ref)).pure rfl)
      fun b hb => ?_
    refine TraceLogic.of_silent (Transform.stmts_traces stmt_quiet b.statements fun s hs => hd s ?_)
    rw [Stmt.substatementsList_eq_flatMap] at hs
    exact List.mem_flatMap.mpr ⟨b, Option.mem_toList.mpr hb, hs⟩
  -- On the way out the enclosing method is cleared again.
  intro c s _
  obtain ⟨_, hsupply, hproblems, hresult⟩ := hbody (c.enterMethod d) s rfl
  exact ⟨rfl, hsupply, hproblems, congrArg (fun body => { d with body }) hresult⟩

/-- The first traversal gives back a unit that is null-safe and settled. It takes nothing from the
supply and reports nothing. -/
theorem unit_quiet {u : CompilationUnit} (h : ReadyUnit u) :
    (quietLogic none).Holds (fun _ => []) ((conversion asserting).unit u) (Eq u) := by
  refine Transform.unit_keeps ?_ ?_ ?_ ?_ ?_ ?_
  -- Entering and leaving a type only moves the cursor.
  · exact fun d c s hm => ⟨hm, rfl, rfl, trivial⟩
  · exact fun d c s hm => ⟨hm, rfl, rfl, trivial⟩
  · exact fun _ => (quietLogic none).pure rfl
  · exact fun _ => (quietLogic none).pure rfl
  · intro f hf
    refine field_quiet (fun e he => h.expressions e ?_) (h.safe.fields f hf)
    obtain ⟨d, hd, hf⟩ := List.mem_flatMap.mp hf
    exact List.mem_flatMap.mpr
      ⟨d, hd, List.mem_append_left _ (List.mem_flatMap.mpr ⟨f, hf, he⟩)⟩
  · exact fun d hd => method_quiet fun s hs => h.statement hd hs

end NullSafety

end Lowering
