import Lowering.NullSafety.Pass
import Lowering.Proofs.Conversion.Noting
import Lowering.Proofs.Conversion.Runs
import Lowering.Proofs.Conversion.Typing

/-!
# Which hooks the conversion traversal calls

A handler may answer with any expression and keep any state, and what it answers
becomes part of the tree that the traversal goes on with. Yet the calls are always
those that `CompilationUnit.hookCalls` lists, because an answer never changes the
type of a node above it.

Main statement: `Conversion.calls_eq_of_handlers`.
-/

namespace Lowering

open Demand

namespace Conversion

variable {σ : Type}

/-! ## The logic of calls -/

/-- Judges a computation from every cursor at the place `k`: the calls `g k` are
added to the notes, and the place stays, with whatever else `i` says of the cursor. -/
def callLogic {ι κ : Type} (At : ι → κ → Cursor → Prop) :
    TraceLogic (StateT Cursor (StateM (List HookCall × σ))) κ HookCall where
  Holds g x Q := ∀ (i : ι) (k : κ) (c : Cursor) (calls : List HookCall) (s : σ), At i k c →
    (x c (calls, s)).2.1 = calls ++ g k ∧ At i k (x c (calls, s)).1.2 ∧ Q (x c (calls, s)).1.1
  pure hQ := fun _ _ _ calls _ hc => ⟨(List.append_nil calls).symm, hc, hQ⟩
  bind {α β g g' x f Q Q'} hx hf := by
    intro i k c calls s hc
    obtain ⟨hcalls, hc₁, hQ⟩ := hx i k c calls s hc
    obtain ⟨hcalls', hc₂, hQ'⟩ :=
      hf _ hQ i k _ (x c (calls, s)).2.1 (x c (calls, s)).2.2 hc₁
    refine ⟨hcalls'.trans ?_, hc₂, hQ'⟩
    -- The second computation adds to the notes that the first one left.
    rw [hcalls, List.append_assoc]

/-- Inside a member the place is the site. The spans to return to stay as well. -/
def siteLogic : TraceLogic (StateT Cursor (StateM (List HookCall × σ))) Site HookCall :=
  callLogic fun (spans : List Span) site c => c.site = site ∧ c.outerSpans = spans

section Values

variable {h : Handler (StateM σ)}

/-- The rules for `pure` and `bind`, stated for demands at one place, so that the lists below are
lists of demands and not of calls. -/
theorem siteLogic_pure {α : Type} {a : α} {Q : α → Prop} (hQ : Q a) :
    (siteLogic : TraceLogic (StateT Cursor (StateM (List HookCall × σ))) _ _).Holds
      (callsAt []) (pure a) Q :=
  siteLogic.pure hQ

theorem siteLogic_bind {α β : Type} {ds ds' : List Demand}
    {x : StateT Cursor (StateM (List HookCall × σ)) α}
    {f : α → StateT Cursor (StateM (List HookCall × σ)) β} {Q : α → Prop} {Q' : β → Prop}
    (hx : siteLogic.Holds (callsAt ds) x Q)
    (hf : ∀ a, Q a → siteLogic.Holds (callsAt ds') (f a) Q') :
    siteLogic.Holds (callsAt (ds ++ ds')) (x >>= f) Q' :=
  siteLogic.of_eq (siteLogic.bind hx hf) (callsAt_append ds ds')

/-- Asking a hook notes one call, whatever the hook answers. Which hook it is and what it is told
are read off the types. -/
theorem nonNullValue_calls (inferred declared : Ty) (e : Expr) :
    siteLogic.Holds (callsAt [⟨.nonNull, inferred, declared⟩])
      (nonNullValue h.noting inferred declared e) fun _ => True := by
  rintro _ _ c calls s ⟨rfl, rfl⟩
  exact ⟨rfl, ⟨rfl, rfl⟩, trivial⟩

theorem slotValue_calls (inferred declared : Ty) (e : Expr) :
    siteLogic.Holds (callsAt [ofSlot inferred declared e])
      (slotValue h.noting inferred declared e) fun _ => True := by
  -- The list of demands takes the same branch as the function.
  unfold slotValue ofSlot
  split
  · exact nonNullValue_calls inferred declared e
  · rintro _ _ c calls s ⟨rfl, rfl⟩
    exact ⟨rfl, ⟨rfl, rfl⟩, trivial⟩

theorem requiredValue_calls (e : Expr) :
    siteLogic.Holds (callsAt [ofRequired e]) (requiredValue h.noting e) fun _ => True :=
  nonNullValue_calls e.type e.type e

theorem conditionValue_calls (e : Expr) :
    siteLogic.Holds (callsAt [ofCondition e]) (conditionValue h.noting e) fun _ => True :=
  slotValue_calls _ _ e

/-- Primitive operands are not asked about. -/
theorem operandValue_calls (e : Expr) :
    siteLogic.Holds (callsAt (ofOperand e)) (operandValue h.noting e) fun _ => True := by
  unfold operandValue ofOperand
  split
  · exact siteLogic_pure trivial
  · exact requiredValue_calls e

/-- Receivers of static members are not asked about. -/
theorem receiverValue_calls (isStatic : Bool) (q : Option Expr) :
    siteLogic.Holds (callsAt (ofReceiver isStatic q)) (receiverValue h.noting isStatic q)
      fun _ => True := by
  unfold ofReceiver
  cases q with
  | none =>
    rw [Option.toList_none, List.map_nil, ite_self]
    exact siteLogic_pure trivial
  | some e =>
    cases isStatic with
    | true => exact siteLogic_pure trivial
    | false => exact siteLogic.map (requiredValue_calls e) fun _ _ => trivial

/-- Each argument with a parameter gives one call, in the order of the arguments. An answer for one
argument has no influence on the calls for the next. -/
theorem argumentValues_calls (is ds : List Ty) (es : List Expr) :
    siteLogic.Holds (callsAt (List.zipWith3 ofSlot is ds es)) (argumentValues h.noting is ds es)
      fun _ => True := by
  fun_induction argumentValues h.noting is ds es with
  | case1 i is d ds e es ih =>
    show siteLogic.Holds (callsAt ([ofSlot i d e] ++ List.zipWith3 ofSlot is ds es)) _ _
    exact siteLogic_bind (slotValue_calls i d e) fun _ _ =>
      siteLogic.map ih fun _ _ => trivial
  | case2 is ds es hend =>
    -- One of the three lists has come to its end, so nothing more is demanded.
    have hnil : List.zipWith3 ofSlot is ds es = [] := by
      cases is with
      | nil => rfl
      | cons i is =>
        cases ds with
        | nil => rfl
        | cons d ds =>
          cases es with
          | nil => rfl
          | cons e es => exact (hend i is d ds e es rfl rfl rfl).elim
    rw [hnil]
    exact siteLogic_pure trivial

theorem initializerValues_calls (fs : List (Fragment Expr)) :
    siteLogic.Holds (callsAt (fs.flatMap ofInitializer)) (initializerValues h.noting fs)
      fun _ => True := by
  fun_induction initializerValues h.noting fs with
  | case1 => exact siteLogic_pure trivial
  | case2 binder fs ih => exact siteLogic.map ih fun _ _ => trivial
  | case3 binder e fs ih =>
    exact siteLogic_bind (slotValue_calls binder.type binder.type e) fun _ _ =>
      siteLogic.map ih fun _ _ => trivial

/-- A target with its receiver in a temporary has the type that it had. -/
theorem bindReceiver_calls (target : Expr) :
    (siteLogic : TraceLogic (StateT Cursor (StateM (List HookCall × σ))) _ _).Holds (callsAt [])
      (bindReceiver target) fun r => r.2.type = target.type := by
  unfold bindReceiver
  split
  · split
    · exact siteLogic_pure rfl
    · -- Taking a temporary changes the supply, which is no part of the place.
      rintro _ _ c calls s ⟨rfl, rfl⟩
      exact ⟨(List.append_nil calls).symm, ⟨rfl, rfl⟩, rfl⟩
  · exact siteLogic_pure rfl

/-- An update gives one call if its target is unboxed, and none otherwise. -/
theorem guardedUpdate_calls (target : Expr) (update : Expr → Expr) :
    siteLogic.Holds (callsAt (ofUpdate target)) (guardedUpdate h.noting target update)
      fun _ => True := by
  unfold guardedUpdate ofUpdate
  split
  · exact siteLogic_pure trivial
  · refine siteLogic_bind (bindReceiver_calls target) fun (bindings, target') htype => ?_
    -- The hook is asked about the target with its receiver bound, but told the type only.
    have hrequired : ofRequired target = ofRequired target' := by
      rw [ofRequired, ofRequired, htype]
    rw [hrequired]
    -- Whatever the answer is, no more calls follow.
    refine siteLogic_bind (requiredValue_calls target') fun check _ => ?_
    dsimp only
    generalize bindings ++ (if check == target' then [] else [check]) = first
    split
    · exact siteLogic_pure trivial
    · exact siteLogic_pure trivial

/-! ## Operations -/

/-- Operators that unbox both operands whatever these are. -/
theorem operands_calls (op : BinaryOp) (l r : Expr) (type : Ty) :
    siteLogic.Holds (callsAt (ofOperand l ++ ofOperand r))
      (do
        let left ← operandValue h.noting l
        let right ← operandValue h.noting r
        pure (Expr.binary op left right type)) fun _ => True :=
  siteLogic_bind (operandValue_calls l) fun _ _ =>
    siteLogic.map (operandValue_calls r) fun _ _ => trivial

/-- Compound assignments ask about the added value first, then about a read of the target. -/
theorem compound_calls (op : BinaryOp) (l r : Expr) (type : Ty) :
    siteLogic.Holds
      (callsAt ((if l.type.unboxed?.isSome then ofOperand r else [ofAssigned l r]) ++ ofUpdate l))
      (if l.type.unboxed?.isSome then do
        let right ← operandValue h.noting r
        guardedUpdate h.noting l fun target => Expr.binary op target right type
      else do
        let right ← slotValue h.noting l.type (targetDeclaredType l) r
        guardedUpdate h.noting l fun target => Expr.binary op target right type)
      fun _ => True := by
  split
  · exact siteLogic_bind (operandValue_calls r) fun _ _ => guardedUpdate_calls l _
  · exact siteLogic_bind (slotValue_calls _ _ r) fun _ _ => guardedUpdate_calls l _

/-- Comparison for equality: one operand is unboxed when only the other one is
primitive. -/
theorem equality_calls {op : BinaryOp} (hop : op = .equals ∨ op = .notEquals) (l r : Expr)
    (type : Ty) :
    siteLogic.Holds
      (callsAt ((if r.type.isPrimitive then ofOperand l else []) ++
        (if l.type.isPrimitive then ofOperand r else [])))
      (binaryOperation h.noting op l r type) fun _ => True := by
  rw [binaryOperation_equality hop]
  -- Four cases by which sides are primitive; in two of them nothing is asked.
  by_cases hr : r.type.isPrimitive = true
  · by_cases hl : l.type.isPrimitive = true
    · rw [if_pos hr, if_pos hl, if_pos (hl.trans hr.symm), ofOperand, ofOperand, if_pos hl,
        if_pos hr]
      exact siteLogic_pure trivial
    · rw [if_pos hr, if_neg hl, if_neg fun heq => hl (heq.trans hr), if_neg hl, List.append_nil]
      exact siteLogic.map (operandValue_calls l) fun _ _ => trivial
  · by_cases hl : l.type.isPrimitive = true
    · rw [if_neg hr, if_pos hl, if_neg fun heq => hr (heq.symm.trans hl), if_pos hl,
        List.nil_append]
      exact siteLogic.map (operandValue_calls r) fun _ _ => trivial
    · have hsame : l.type.isPrimitive = r.type.isPrimitive := by simp [hl, hr]
      rw [if_neg hr, if_neg hl, if_pos hsame]
      exact siteLogic_pure trivial

/-- The calls for an operation are those that `ofBinary` lists for its operands. -/
theorem binaryOperation_calls (op : BinaryOp) (l r : Expr) (type : Ty) :
    siteLogic.Holds (callsAt (ofBinary op l r type)) (binaryOperation h.noting op l r type)
      fun _ => True := by
  cases op with
  | assign => exact siteLogic.map (slotValue_calls _ _ r) fun _ _ => trivial
  | plusAssign => exact compound_calls .plusAssign l r type
  | minusAssign => exact compound_calls .minusAssign l r type
  | equals => exact equality_calls (.inl rfl) l r type
  | notEquals => exact equality_calls (.inr rfl) l r type
  | plus =>
    show siteLogic.Holds
      (callsAt ((if type.isPrimitive then ofOperand l else []) ++
        (if type.isPrimitive then ofOperand r else [])))
      (if type.isPrimitive then do
        let left ← operandValue h.noting l
        let right ← operandValue h.noting r
        pure (Expr.binary .plus left right type)
      else pure (Expr.binary .plus l r type)) _
    by_cases hprim : type.isPrimitive = true
    · rw [if_pos hprim, if_pos hprim, if_pos hprim]
      exact operands_calls .plus l r type
    · rw [if_neg hprim, if_neg hprim, if_neg hprim]
      exact siteLogic_pure trivial
  | minus | times | divide | remainder | less | lessEquals | greater | greaterEquals
  | conditionalAnd | conditionalOr => exact operands_calls _ l r type

theorem unaryOperation_calls (op : UnaryOp) (fixity : Fixity) (x : Expr) (type : Ty) :
    siteLogic.Holds (callsAt (Expr.unary op fixity x type).demands)
      (unaryOperation h.noting op fixity x type) fun _ => True := by
  cases op with
  | increment | decrement => exact guardedUpdate_calls x _
  | plus | minus | not => exact siteLogic.map (operandValue_calls x) fun _ _ => trivial

/-- Casts ask about their operand if they unbox it. -/
theorem castOperation_calls (type : Ty) (x : Expr) :
    siteLogic.Holds (callsAt (Expr.cast type x).demands) ((conversion h.noting).onCast type x)
      fun _ => True := by
  show siteLogic.Holds (callsAt (if type.isPrimitive then [ofSlot type type x] else []))
    (if type.isPrimitive then do
      let operand ← slotValue h.noting type type x
      pure (Expr.cast type operand)
    else pure (Expr.cast type x)) _
  by_cases hprim : type.isPrimitive = true
  · rw [if_pos hprim, if_pos hprim]
    exact siteLogic.map (slotValue_calls type type x) fun _ _ => trivial
  · rw [if_neg hprim, if_neg hprim]
    exact siteLogic_pure trivial

/-- Condition first, then both branches, although only one of them is evaluated later. -/
theorem conditionalOperation_calls (type : Ty) (c a b : Expr) :
    siteLogic.Holds (callsAt (Expr.conditional type c a b).demands)
      (conditionalOperation h.noting type c a b) fun _ => True := by
  show siteLogic.Holds (callsAt ([ofCondition c] ++
    if type.isPrimitive then ofOperand a ++ ofOperand b else [])) _ _
  refine siteLogic_bind (conditionValue_calls c) fun _ _ => ?_
  split
  · exact siteLogic_bind (operandValue_calls a) fun _ _ =>
      siteLogic.map (operandValue_calls b) fun _ _ => trivial
  · exact siteLogic_pure trivial

end Values

/-! ## Expressions -/

/-- Hooks that may answer anything. -/
def anyAnswer : Adjustment where
  slot _ _ _ _ := True
  nonNull _ _ _ _ := True

theorem answers_anyAnswer (h : Handler (StateM σ)) : Answers h anyAnswer :=
  ⟨fun _ _ _ _ _ => trivial, fun _ _ _ _ _ => trivial⟩

/-- The second expression is what the traversal makes of the first one, for some
answers of the hooks. -/
abbrev Visited : Expr → Expr → Prop := Converted anyAnswer fun _ => True

section Expressions

variable {h : Handler (StateM σ)} {Γ : VariableId → Ty}

/-- What is known of the calls and what is known of the result go together. -/
theorem siteLogic_and {α : Type} {g : Site → List HookCall}
    {x : StateT Cursor (StateM (List HookCall × σ)) α} {Q : α → Prop}
    (hcalls : siteLogic.Holds g x fun _ => True)
    (hresult : ∀ method, (cursorLogic method fun _ => True).Holds x Q) :
    siteLogic.Holds g x Q := by
  intro spans site c calls s hc
  obtain ⟨hnoted, hplace, -⟩ := hcalls spans site c calls s hc
  exact ⟨hnoted, hplace, (hresult _ c (calls, s) rfl).2.2 fun _ _ => trivial⟩

/-- A hook of the traversal gets parts that the traversal has been through. They
have the types of the parts in the input, so the node demands the same. -/
theorem node_calls {e : Expr} (e' : Expr) {x : StateT Cursor (StateM (List HookCall × σ)) Expr}
    (hcalls : siteLogic.Holds (callsAt e'.demands) x fun _ => True)
    (hdemands : e'.demands = e.demands)
    (hresult : ∀ method, (cursorLogic method fun _ => True).Holds x (Visited e)) :
    siteLogic.Holds (callsAt e.demands) x (Visited e) :=
  siteLogic_and (hdemands ▸ hcalls) hresult

/-- Every expression hook makes the calls that its node demands. It is given parts that the
traversal has been through, and these have the types of the parts in the input. -/
theorem conversion_tracesExpr :
    Transform.TracesExpr siteLogic (conversion h.noting) (Typable Γ) Visited
      fun e => callsAt e.demands := by
  have htracks : ∀ method, Transform.TracksExpr (cursorLogic method fun _ => True)
      (conversion h.noting) Visited :=
    fun _ => conversion_tracksExpr (answers_anyAnswer h.noting)
  -- Parts keep their types on the way.
  have hkeeps : ∀ {e : Expr}, e.Everywhere (Typable Γ) →
      ∀ c ∈ e.children, ∀ c', Visited c c' → c'.type = c.type :=
    fun he c hc c' hcc' => keepsType hcc' (he.child hc)
  constructor
  case nullLiteral => exact fun type => siteLogic.pure (.leaf rfl)
  case boolLiteral => exact fun value type => siteLogic.pure (.leaf rfl)
  case numberLiteral => exact fun value type => siteLogic.pure (.leaf rfl)
  case stringLiteral => exact fun value type => siteLogic.pure (.leaf rfl)
  case thisRef => exact fun type => siteLogic.pure (.leaf rfl)
  case varRef => exact fun v => siteLogic.pure (.leaf rfl)
  case fieldAccess =>
    intro q q' f he hq
    refine node_calls (.fieldAccess q' f) ?_ ?_ fun method =>
      (cursorLogic method _).imp ((htracks method).fieldAccess q q' f) fun _ hR => hR hq
    · exact siteLogic.map (receiverValue_calls f.isStatic q') fun _ _ => trivial
    · exact ofReceiver_congr hq fun c hc c' hcc' => hkeeps he c hc c' hcc'
  case call =>
    intro q q' target as as' he hq has
    refine node_calls (.call q' target as') ?_ ?_ fun method =>
      (cursorLogic method _).imp ((htracks method).call q q' target as as') fun _ hR => hR hq has
    · exact siteLogic_bind (receiverValue_calls target.isStatic q') fun _ _ =>
        siteLogic.map (argumentValues_calls _ _ as') fun _ _ => trivial
    · have hreceiver : ofReceiver target.isStatic q' = ofReceiver target.isStatic q :=
        ofReceiver_congr hq fun c hc c' hcc' =>
          hkeeps he c (List.mem_append_left _ hc) c' hcc'
      have harguments : ofArguments target as' = ofArguments target as :=
        zipWith3_ofSlot_congr has fun c hc c' hcc' =>
          hkeeps he c (List.mem_append_right _ hc) c' hcc'
      rw [Expr.demands, Expr.demands, hreceiver, harguments]
  case newInstance =>
    intro target as as' he has
    refine node_calls (.newInstance target as') ?_ ?_ fun method =>
      (cursorLogic method _).imp ((htracks method).newInstance target as as') fun _ hR => hR has
    · exact siteLogic.map (argumentValues_calls _ _ as') fun _ _ => trivial
    · exact zipWith3_ofSlot_congr has fun c hc c' hcc' => hkeeps he c hc c' hcc'
  -- For assignments the declared type of the target has to stay as well.
  case binary =>
    intro op l l' r r' type he hl hr
    have hl' := hkeeps he l (by simp [Expr.children]) l' hl
    have hr' := hkeeps he r (by simp [Expr.children]) r' hr
    refine node_calls (.binary op l' r' type) (binaryOperation_calls op l' r' type) ?_ fun method =>
      (cursorLogic method _).imp ((htracks method).binary op l l' r r' type) fun _ hR => hR hl hr
    exact ofBinary_congr hl' (targetDeclaredType_of_converted hl hl') hr'
  case unary =>
    intro op fixity x x' type he hx
    have hx' := hkeeps he x (by simp [Expr.children]) x' hx
    refine node_calls (.unary op fixity x' type) (unaryOperation_calls op fixity x' type) ?_
      fun method =>
        (cursorLogic method _).imp ((htracks method).unary op fixity x x' type) fun _ hR => hR hx
    rw [Expr.demands, Expr.demands, ofUpdate_congr hx', ofOperand_congr hx']
  case cast =>
    intro type x x' he hx
    have hx' := hkeeps he x (by simp [Expr.children]) x' hx
    refine node_calls (.cast type x') (castOperation_calls type x') ?_ fun method =>
      (cursorLogic method _).imp ((htracks method).cast type x x') fun _ hR => hR hx
    rw [Expr.demands, Expr.demands, ofSlot_congr hx']
  case conditional =>
    intro type c c' a a' b b' he hc ha hb
    have hc' := hkeeps he c (by simp [Expr.children]) c' hc
    have ha' := hkeeps he a (by simp [Expr.children]) a' ha
    have hb' := hkeeps he b (by simp [Expr.children]) b' hb
    refine node_calls (.conditional type c' a' b') (conditionalOperation_calls type c' a' b') ?_
      fun method => (cursorLogic method _).imp
        ((htracks method).conditional type c c' a a' b b') fun _ hR => hR hc ha hb
    rw [Expr.demands, Expr.demands, ofCondition, ofCondition, ofSlot_congr hc',
      ofOperand_congr ha', ofOperand_congr hb']
  case notNull => exact fun _ hx => siteLogic.pure (.notNull hx)
  -- Sequences demand nothing, but they may change their type; this is where `Typable` is needed
  -- above.
  case multi => exact fun _ hes => siteLogic.pure (.multi hes)
  case declare =>
    intro fs fs' he hfs
    refine node_calls (.declare fs') ?_ ?_ fun method =>
      (cursorLogic method _).imp ((htracks method).declare fs fs') fun _ hR => hR hfs
    · exact siteLogic.map (initializerValues_calls fs') fun _ _ => trivial
    · exact ofInitializers_congr hfs fun c hc c' hcc' => hkeeps he c hc c' hcc'

/-! ## Statements -/

/-- Leaving a statement restores the site around it. -/
theorem exitStatement_site {c c' : Cursor} {s : Stmt} (hsite : c'.site = (c.enterStatement s).site)
    (hspans : c'.outerSpans = (c.enterStatement s).outerSpans) :
    c'.exitStatement.site = c.site ∧ c'.exitStatement.outerSpans = c.outerSpans := by
  -- The statement has pushed the span around it when it was entered.
  have hpop : c'.outerSpans = c.site.span :: c.outerSpans := hspans
  unfold Cursor.exitStatement
  rw [hpop]
  refine ⟨?_, rfl⟩
  show { c'.site with span := c.site.span } = c.site
  rw [hsite]
  rfl

/-- A returned value flows into the return type of the method around it. -/
theorem onReturn_calls (v v' : Option Expr) (span : Span)
    (h' : Option.Rel (fun e e' => e'.type = e.type) v v') :
    siteLogic.Holds (Stmt.callEvents.own (.returnValue v span))
      ((conversion h.noting).onReturn v' span) fun _ => True := by
  rintro _ _ ⟨⟨span', type, method⟩, spans, supply⟩ calls s ⟨rfl, rfl⟩
  cases h' with
  | none => exact ⟨(List.append_nil calls).symm, ⟨rfl, rfl⟩, trivial⟩
  | @some e e' htype =>
    -- The slot is that of the method around the statement, which the cursor knows.
    cases method with
    | none => exact ⟨(List.append_nil calls).symm, ⟨rfl, rfl⟩, trivial⟩
    | some method =>
      have hslot : siteLogic.Holds
          (callsAt [ofSlot method.returnType method.declaration.returnType e])
          (do
            let value ← slotValue h.noting method.returnType method.declaration.returnType e'
            pure (Stmt.returnValue (some value) span)) fun _ => True := by
        rw [← ofSlot_congr htype]
        exact siteLogic.map (slotValue_calls _ _ e') fun _ _ => trivial
      exact hslot spans _ _ calls s ⟨rfl, rfl⟩

/-- Every statement hook makes the calls that its statement demands, with the span of the statement
as the place. Nothing is asked of the resulting statement. -/
theorem conversion_tracesStmt :
    Transform.TracesStmt siteLogic (conversion h.noting)
      (fun s => ∀ e ∈ s.expressions, e.Everywhere (Typable Γ)) Visited (fun _ _ => True)
      Stmt.callEvents := by
  have hkeeps : ∀ {s : Stmt}, (∀ e ∈ s.expressions, e.Everywhere (Typable Γ)) →
      ∀ e ∈ s.expressions, ∀ e', Visited e e' → e'.type = e.type :=
    fun hs e he e' hee' => keepsType hee' (hs e he)
  -- Four kinds of statements have a condition, and all treat it alike.
  have hcondition : ∀ {s : Stmt} {c c' : Expr},
      (∀ e ∈ s.expressions, e.Everywhere (Typable Γ)) → c ∈ s.expressions → Visited c c' →
      siteLogic.Holds (callsAt [ofCondition c]) (conditionValue h.noting c') fun _ => True := by
    intro s c c' hs hc hcc'
    rw [ofCondition, ← ofSlot_congr (hkeeps hs c hc c' hcc')]
    exact conditionValue_calls c'
  constructor
  case bracketed =>
    rintro s inner g Q hinner _ _ c calls st ⟨rfl, rfl⟩
    -- The span of the outer statement lies on the stack until the inner one ends.
    obtain ⟨hnoted, ⟨hsite, hspans⟩, hQ⟩ := hinner _ _ (c.enterStatement s) calls st ⟨rfl, rfl⟩
    exact ⟨hnoted, exitStatement_site hsite hspans, hQ⟩
  case expr => exact fun hs he => Transform.expr_traces conversion_tracesExpr _ (hs _ he)
  case expression => exact fun _ _ => siteLogic.pure trivial
  case block => exact fun _ _ => siteLogic.pure trivial
  case returnValue =>
    intro v v' span hs hv
    exact onReturn_calls v v' span (optionRel_imp_of_mem hv fun e he e' => hkeeps hs e he e')
  case conditional =>
    intro c c' a a' b b' span hs hc _ _
    exact siteLogic.map (hcondition hs List.mem_cons_self hc) fun _ _ => trivial
  case whileLoop =>
    intro c c' b b' span hs hc _
    exact siteLogic.map (hcondition hs List.mem_cons_self hc) fun _ _ => trivial
  case forLoop =>
    intro i i' c c' u u' b b' span hs _ hc _ _
    cases hc with
    | none => exact siteLogic.pure trivial
    | some hc =>
      refine siteLogic.map (hcondition hs ?_ hc) fun _ _ => trivial
      exact List.mem_append_left _ (List.mem_append_right _ (by simp))
  case assertion =>
    intro c c' message message' span hs hc _
    exact siteLogic.map (hcondition hs List.mem_cons_self hc) fun _ _ => trivial
  case throwValue =>
    intro v v' span hs hv
    show siteLogic.Holds (callsAt [ofRequired v]) _ _
    rw [← ofRequired_congr (hkeeps hs v List.mem_cons_self v' hv)]
    exact siteLogic.map (requiredValue_calls v') fun _ _ => trivial

/-! ## Declarations -/

/-- Between the members of a type only the type is known of the place. -/
def memberLogic : TraceLogic (StateT Cursor (StateM (List HookCall × σ))) ClassRef HookCall :=
  callLogic fun (_ : Unit) type c =>
    c.site.enclosingType = some type ∧ c.site.enclosingMethod = none

/-- Between types nothing is known but that no method is open. -/
def unitLogic : TraceLogic (StateT Cursor (StateM (List HookCall × σ))) Unit HookCall :=
  callLogic fun (_ : Unit) _ c => c.site.enclosingMethod = none

theorem onField_calls (f : FieldDecl) {i : Option Expr}
    (hi : Option.Rel (fun e e' => e'.type = e.type) f.initializer i) :
    siteLogic.Holds (callsAt f.demands) ((conversion h.noting).onField { f with initializer := i })
      fun _ => True := by
  unfold FieldDecl.demands
  generalize f.initializer = j at hi
  cases hi with
  | none => exact siteLogic_pure trivial
  | @some e e' htype =>
    rw [Option.toList_some, List.map_singleton, ← ofSlot_congr htype]
    exact siteLogic.map (slotValue_calls _ _ e') fun _ _ => trivial

/-- A field makes the calls for its initializer, at the place of the field and outside of
methods. -/
theorem field_calls {f : FieldDecl} (hf : ∀ e ∈ f.initializer.toList, e.Everywhere (Typable Γ)) :
    memberLogic.Holds f.hookCalls ((conversion h.noting).field f) fun _ => True := by
  -- Inside the field the site is fixed.
  have hinside : siteLogic.Holds
      (fun site => f.initializer.toList.flatMap (·.hookCalls site) ++ callsAt f.demands site)
      (do
        let initializer ← (conversion h.noting).optionalExpr f.initializer
        (conversion h.noting).onField { f with initializer }) fun _ => True := by
    refine siteLogic.bind (Transform.optionalExpr_of_forall fun e he =>
      Transform.expr_traces conversion_tracesExpr e (hf e he)) fun i hi => onField_calls f ?_
    exact optionRel_imp_of_mem hi fun e he e' hee' =>
      keepsType hee' (hf e he)
  -- The span of the field stays behind, which the next member overwrites.
  rintro _ type ⟨⟨span, _, _⟩, spans, supply⟩ calls s ⟨rfl, rfl⟩
  obtain ⟨hnoted, ⟨hsite, _⟩, _⟩ := hinside spans ⟨f.span, some type, none⟩
    ⟨⟨f.span, some type, none⟩, spans, supply⟩ calls s ⟨rfl, rfl⟩
  exact ⟨hnoted, ⟨congrArg Site.enclosingType hsite, congrArg Site.enclosingMethod hsite⟩, trivial⟩

/-- A method makes the calls for its statements. Each of them sets its own span, and all of them
name the method. -/
theorem method_calls {d : MethodDecl}
    (hd : ∀ s ∈ d.statements, ∀ e ∈ s.expressions, e.Everywhere (Typable Γ)) :
    memberLogic.Holds d.hookCalls ((conversion h.noting).method d) fun _ => True := by
  have hinside : siteLogic.Holds
      (fun site => d.body.toList.flatMap fun body =>
        Stmt.traceStmts Stmt.callEvents body.statements site)
      ((conversion h.noting).optionalBlock d.body) fun _ => True := by
    -- Without a body there is nothing to call.
    unfold MethodDecl.statements at hd
    generalize d.body = body at hd
    cases body with
    | none => exact siteLogic.pure trivial
    | some body =>
      have hstatements : siteLogic.Holds (Stmt.traceStmts Stmt.callEvents body.statements)
          ((conversion h.noting).stmts body.statements) _ :=
        Transform.stmts_traces conversion_tracesStmt body.statements fun s hs => hd s (by
          simpa [Stmt.substatementsList_eq_flatMap] using hs)
      have hblock : siteLogic.Holds (Stmt.traceStmts Stmt.callEvents body.statements)
          ((conversion h.noting).block body) fun _ => True :=
        siteLogic.map hstatements fun _ _ => trivial
      refine siteLogic.of_eq (siteLogic.map hblock fun _ _ => trivial) fun site => ?_
      rw [Option.toList_some, List.flatMap_singleton]
  -- On the way in the method is added to the site, on the way out it is removed.
  rintro _ type ⟨⟨span, _, _⟩, spans, supply⟩ calls s ⟨rfl, rfl⟩
  obtain ⟨hnoted, ⟨hsite, _⟩, _⟩ := hinside spans ⟨d.span, some type, some d.ref⟩
    ⟨⟨d.span, some type, some d.ref⟩, spans, supply⟩ calls s ⟨rfl, rfl⟩
  exact ⟨hnoted, ⟨congrArg Site.enclosingType hsite, rfl⟩, trivial⟩

/-- A type makes the calls for its fields and then those for its methods, at places inside the
type. -/
theorem type_calls {d : TypeDecl} (hd : ∀ e ∈ d.expressions, e.Everywhere (Typable Γ)) :
    unitLogic.Holds (fun _ => d.hookCalls) ((conversion h.noting).type d) fun _ => True := by
  have hfields : memberLogic.Holds (fun type => d.fields.flatMap (·.hookCalls type))
      (d.fields.mapM (conversion h.noting).field) _ :=
    memberLogic.mapM fun f hf => field_calls fun e he =>
      hd e (List.mem_append_left _ (List.mem_flatMap.mpr ⟨f, hf, he⟩))
  have hmethods : memberLogic.Holds (fun type => d.methods.flatMap (·.hookCalls type))
      (d.methods.mapM (conversion h.noting).method) _ :=
    memberLogic.mapM fun m hm => method_calls fun s hs e he => hd e
      (List.mem_append_right _ (List.mem_flatMap.mpr ⟨m, hm, List.mem_flatMap.mpr ⟨s, hs, he⟩⟩))
  have hinside : memberLogic.Holds
      (fun type => d.fields.flatMap (·.hookCalls type) ++ d.methods.flatMap (·.hookCalls type))
      (do
        let fields ← d.fields.mapM (conversion h.noting).field
        let methods ← d.methods.mapM (conversion h.noting).method
        (conversion h.noting).onType { d with fields, methods }) fun _ => True :=
    memberLogic.bind hfields fun _ _ => memberLogic.map hmethods fun _ _ => trivial
  -- The type is entered with whatever span came before it.
  intro _ _ c calls s hmethod
  obtain ⟨hnoted, ⟨_, hnone⟩, _⟩ := hinside () d.ref (c.enterType d) calls s ⟨rfl, hmethod⟩
  exact ⟨hnoted, hnone, trivial⟩

theorem unit_calls {u : CompilationUnit} (hu : u.Everywhere (Typable Γ)) :
    unitLogic.Holds (fun _ => u.hookCalls) ((conversion h.noting).unit u) fun _ => True := by
  have htypes : unitLogic.Holds (fun _ => u.types.flatMap TypeDecl.hookCalls)
      (u.types.mapM (conversion h.noting).type) _ :=
    unitLogic.mapM fun d hd => type_calls fun e he => hu e (List.mem_flatMap.mpr ⟨d, hd, he⟩)
  exact unitLogic.map htypes fun _ _ => trivial

end Expressions

end Conversion

/-! ## Units -/

/-- The sequence without members. -/
def Expr.isEmptySequence : Expr → Bool
  | .multi [] => true
  | _ => false

namespace Conversion

/-- Coherent units without empty sequences keep their types, by one assignment for all of their
variables. -/
theorem typable_of_coherent {u : CompilationUnit} (hcoherent : u.Coherent)
    (hsequence : u.Everywhere fun e => e.isEmptySequence = false) :
    ∃ Γ, u.Everywhere (Typable Γ) := by
  obtain ⟨Γ, htyped⟩ := hcoherent.typed
  refine ⟨Γ, fun e he s hs => ⟨htyped e he s hs, ?_⟩⟩
  rintro rfl
  exact Bool.false_ne_true (hsequence e he _ hs).symm

/-- A run with notes is the run without them, and the notes are the listed calls. -/
theorem noting_run {u : CompilationUnit} (hcoherent : u.Coherent)
    (hsequence : u.Everywhere fun e => e.isEmptySequence = false) (h : Handler (StateM σ))
    (supply : Supply) (s : σ) :
    (conversion h.noting).unit u { supply } ([], s) =
      (((conversion h).unit u { supply } s).1, u.hookCalls,
        ((conversion h).unit u { supply } s).2) := by
  obtain ⟨Γ, htypable⟩ := typable_of_coherent hcoherent hsequence
  obtain ⟨hresult, hstate⟩ := noting_unit h u { supply } [] s
  have hnotes : ((conversion h.noting).unit u { supply } ([], s)).2.1 = u.hookCalls :=
    (unit_calls htypable () () { supply } [] s rfl).1
  exact Prod.ext hresult (Prod.ext hnotes hstate)

/-- Any two handlers get the same calls, those that the unit lists. Each call says
in which statement or field, type and method it arises. -/
theorem calls_eq_of_handlers (u : CompilationUnit) (hcoherent : u.Coherent)
    (hsequence : u.Everywhere fun e => e.isEmptySequence = false) {σ₁ σ₂ : Type}
    (h₁ : Handler (StateM σ₁)) (h₂ : Handler (StateM σ₂)) (supply₁ supply₂ : Supply) (s₁ : σ₁)
    (s₂ : σ₂) :
    h₁.calls u supply₁ s₁ = h₂.calls u supply₂ s₂ ∧
      (conversion h₁.noting).unit u { supply := supply₁ } ([], s₁) =
        (((conversion h₁).unit u { supply := supply₁ } s₁).1, u.hookCalls,
          ((conversion h₁).unit u { supply := supply₁ } s₁).2) ∧
      ∀ call ∈ h₁.calls u supply₁ s₁, call.ArisesIn u := by
  have hrun₁ := noting_run hcoherent hsequence h₁ supply₁ s₁
  have hrun₂ := noting_run hcoherent hsequence h₂ supply₂ s₂
  have hcalls₁ : h₁.calls u supply₁ s₁ = u.hookCalls := by rw [Handler.calls, hrun₁]
  have hcalls₂ : h₂.calls u supply₂ s₂ = u.hookCalls := by rw [Handler.calls, hrun₂]
  refine ⟨hcalls₁.trans hcalls₂.symm, hrun₁, fun call hcall => ?_⟩
  rw [hcalls₁] at hcall
  exact CompilationUnit.arisesIn_of_mem_hookCalls hcall

/-- A handler that puts an empty sequence in the place of every value. -/
def emptying : Handler (StateM Nat) where
  onSlot _ _ _ _ := modifyGet fun n => (.multi [], n + 1)
  onNonNull _ _ _ _ := modifyGet fun n => (.multi [], n + 1)

open NullSafety in
/-- Asserting what may be null and emptying every value get the same seven calls, although the
results have little in common. -/
theorem nullableHolder_calls :
    nullableHolder.Coherent ∧ (nullableHolder.Everywhere fun e => e.isEmptySequence = false) ∧
      nullableHolder.hookCalls.length = 7 ∧
      asserting.calls nullableHolder { origin := 1 } {} =
        emptying.calls nullableHolder { origin := 2 } 0 ∧
      (conversion asserting.noting).unit nullableHolder { supply := { origin := 1 } } ([], {}) =
        (((conversion asserting).unit nullableHolder { supply := { origin := 1 } } {}).1,
          nullableHolder.hookCalls,
          ((conversion asserting).unit nullableHolder { supply := { origin := 1 } } {}).2) ∧
      ∀ call ∈ asserting.calls nullableHolder { origin := 1 } {}, call.ArisesIn nullableHolder :=
  ⟨by decide, by decide, by decide,
    calls_eq_of_handlers nullableHolder (by decide) (by decide) asserting emptying _ _ _ _⟩

end Conversion

end Lowering
