import Lowering.Proofs.Conversion.Relation

/-!
# Every run of the conversion traversal satisfies the relation

The state of a run only moves forward: statements and expressions leave the
enclosing method as it is, and the supply of identities never goes back. The
temporaries of a run are the identities that the supply issues between its start
and its end.

Main statements: `Conversion.expr_converted` for expressions and
`Conversion.unit_converted` for units, for every handler whose hooks are state
transformers.
-/

namespace Lowering

/-! ## Identities issued between two states -/

/-- The identity is issued by the first supply before it reaches the second. -/
def Supply.Issues (s s' : Supply) (id : VariableId) : Prop :=
  id.origin = s.origin ∧ s.next ≤ id.serial ∧ id.serial < s'.next

instance (s s' : Supply) (id : VariableId) : Decidable (s.Issues s' id) :=
  inferInstanceAs (Decidable (_ ∧ _ ∧ _))

/-- The supply may yet issue the identity. -/
def Supply.CanIssue (s : Supply) (id : VariableId) : Prop :=
  id.origin = s.origin ∧ s.next ≤ id.serial

instance (s : Supply) (id : VariableId) : Decidable (s.CanIssue id) :=
  inferInstanceAs (Decidable (_ ∧ _))

theorem Supply.Issues.canIssue {s s' : Supply} {id : VariableId} (h : s.Issues s' id) :
    s.CanIssue id :=
  ⟨h.1, h.2.1⟩

/-- The supply is of the same origin and has issued at least as much. -/
structure Supply.Later (s s' : Supply) : Prop where
  origin : s'.origin = s.origin
  next : s.next ≤ s'.next

theorem Supply.Later.refl (s : Supply) : s.Later s := ⟨rfl, Nat.le_refl _⟩

theorem Supply.Later.trans {s s' s'' : Supply} (h : s.Later s') (h' : s'.Later s'') :
    s.Later s'' :=
  ⟨h'.origin.trans h.origin, Nat.le_trans h.next h'.next⟩

/-- Identities that are issued until some state are issued until every later one. -/
theorem Supply.Issues.of_first {s s' s'' : Supply} (h : s'.Later s'') {id : VariableId}
    (hid : s.Issues s' id) : s.Issues s'' id :=
  ⟨hid.1, hid.2.1, Nat.lt_of_lt_of_le hid.2.2 h.next⟩

/-- Identities that are issued from some state on are issued from every earlier one on. -/
theorem Supply.Issues.of_second {s s' s'' : Supply} (h : s.Later s') {id : VariableId}
    (hid : s'.Issues s'' id) : s.Issues s'' id :=
  ⟨hid.1.trans h.origin, Nat.le_trans h.next hid.2.1, hid.2.2⟩

theorem Supply.later_fresh (s : Supply) (name : String) (type : Ty) :
    s.Later (s.fresh name type).2 :=
  ⟨rfl, Nat.le_succ _⟩

theorem Supply.issues_fresh (s : Supply) (name : String) (type : Ty) :
    s.Issues (s.fresh name type).2 (s.fresh name type).1.id :=
  ⟨rfl, Nat.le_refl _, Nat.lt_succ_self _⟩

namespace Conversion

variable {σ : Type}

/-! ## Updates -/

section

variable {m : Type → Type} [Monad m] {t : Expr} {update : Expr → Expr}

/-- An update of a target that is not unboxed is left alone. -/
theorem guardedUpdate_of_unboxed (h : Handler m) (hnone : t.type.unboxed? = none) :
    guardedUpdate h t update = pure (update t) := by
  unfold guardedUpdate
  rw [hnone]
  rfl

/-- A target that may be read twice needs no temporary. -/
theorem bindReceiver_of_repeatable (h : hasRepeatableReceiver t = true) :
    (bindReceiver t : StateT Cursor m (List Expr × Expr)) = pure ([], t) := by
  unfold bindReceiver
  split
  · exact if_pos h
  · rfl

/-- Nothing is bound, so the check alone may stand before the update. -/
theorem guardedUpdate_of_repeatable [LawfulMonad m] (h : Handler m)
    (hboxed : t.type.unboxed?.isSome = true) (hrepeatable : hasRepeatableReceiver t = true) :
    guardedUpdate h t update = (do
      let checked ← requiredValue h t
      if checked == t then pure (update t) else pure (.multi [checked, update t])) := by
  have hsome : ¬ t.type.unboxed?.isNone = true := by
    rw [← Option.not_isSome, hboxed]
    exact Bool.false_ne_true
  unfold guardedUpdate
  rw [if_neg hsome, bindReceiver_of_repeatable hrepeatable, pure_bind]
  -- Nothing was bound, so the sequence has the check as its only other member.
  refine bind_congr fun checked => ?_
  by_cases hsame : checked == t
  · simp [hsame]
  · simp [hsame]

end

/-! ## The logic of cursors -/

/-- Judges a computation from every cursor inside the given method: the method
stays, the supply moves forward, and the result satisfies the postcondition
provided that `T` has all identities issued meanwhile. -/
def cursorLogic (method : Option MethodRef) (T : VariableId → Prop) :
    PostLogic (StateT Cursor (StateM σ)) where
  Holds x Q := ∀ (c : Cursor) (s : σ), c.site.enclosingMethod = method →
    (x c s).1.2.site.enclosingMethod = method ∧ c.supply.Later (x c s).1.2.supply ∧
      ((∀ id, c.supply.Issues (x c s).1.2.supply id → T id) → Q (x c s).1.1)
  pure hQ := fun c s hm => ⟨hm, Supply.Later.refl _, fun _ => hQ⟩
  bind {α β x f Q Q'} hx hf := by
    intro c s hm
    obtain ⟨hm₁, hlater₁, hQ⟩ := hx c s hm
    obtain ⟨hm₂, hlater₂, hQ'⟩ := hf (x c s).1.1 (x c s).1.2 (x c s).2 hm₁
    refine ⟨hm₂, hlater₁.trans hlater₂, fun hT => ?_⟩
    -- What either part issues, the whole computation issues.
    exact hQ' (fun id hid => hT id (hid.of_second hlater₁))
      (hQ fun id hid => hT id (hid.of_first hlater₂))
  imp hx h := fun c s hm =>
    ⟨(hx c s hm).1, (hx c s hm).2.1, fun hT => h _ ((hx c s hm).2.2 hT)⟩

/-- The hooks of a handler answer as the adjustment allows, whatever the site and
the state. -/
structure Answers (h : Handler (StateM σ)) (A : Adjustment) : Prop where
  slot (inferred declared : Ty) (e : Expr) (site : Site) (s : σ) :
    A.slot inferred declared e (h.onSlot inferred declared e site s).1
  nonNull (inferred declared : Ty) (e : Expr) (site : Site) (s : σ) :
    A.nonNull inferred declared e (h.onNonNull inferred declared e site s).1

section

variable {h : Handler (StateM σ)} {A : Adjustment} {method : Option MethodRef}
  {T : VariableId → Prop}

/-- A change of the cursor that keeps the method and the supply. -/
theorem modify_holds {f : Cursor → Cursor}
    (hmethod : ∀ c, (f c).site.enclosingMethod = c.site.enclosingMethod)
    (hsupply : ∀ c, (f c).supply = c.supply) :
    (cursorLogic method T : PostLogic (StateT Cursor (StateM σ))).Holds (modify f)
      fun _ => True := by
  intro c s hm
  refine ⟨(hmethod c).trans hm, ?_, fun _ => trivial⟩
  show c.supply.Later (f c).supply
  rw [hsupply c]
  exact Supply.Later.refl _

/-! ## Values -/

/-- Values are adjusted as the adjustment allows. No cursor is moved on the way, so that only the
answer of the hook is in question. -/
theorem nonNullValue_holds (hA : Answers h A) (inferred declared : Ty) (e : Expr) :
    (cursorLogic method T).Holds (nonNullValue h inferred declared e)
      (A.nonNull inferred declared e) :=
  fun c s hm => ⟨hm, Supply.Later.refl _, fun _ => hA.nonNull inferred declared e c.site s⟩

theorem slotValue_holds (hA : Answers h A) (inferred declared : Ty) (e : Expr) :
    (cursorLogic method T).Holds (slotValue h inferred declared e)
      (A.SlotValue inferred declared e) := by
  -- The function and the rule branch on the same question.
  unfold slotValue Adjustment.SlotValue
  split
  · exact nonNullValue_holds hA inferred declared e
  · exact fun c s hm => ⟨hm, Supply.Later.refl _, fun _ => hA.slot inferred declared e c.site s⟩

theorem requiredValue_holds (hA : Answers h A) (e : Expr) :
    (cursorLogic method T).Holds (requiredValue h e) (A.RequiredValue e) :=
  nonNullValue_holds hA e.type e.type e

theorem conditionValue_holds (hA : Answers h A) (e : Expr) :
    (cursorLogic method T).Holds (conditionValue h e) (A.ConditionValue e) :=
  slotValue_holds hA _ _ e

theorem operandValue_holds (hA : Answers h A) (e : Expr) :
    (cursorLogic method T).Holds (operandValue h e) (A.OperandValue e) := by
  unfold operandValue Adjustment.OperandValue
  split
  · exact (cursorLogic method T).pure rfl
  · exact requiredValue_holds hA e

/-- Receivers follow their rule: absent and static ones stay, all others are required. -/
theorem receiverValue_holds (hA : Answers h A) (isStatic : Bool) (q : Option Expr) :
    (cursorLogic method T).Holds (receiverValue h isStatic q) (A.ReceiverValue isStatic q) := by
  cases q with
  | none => exact (cursorLogic method T).pure .absent
  | some e =>
    cases isStatic with
    | true => exact (cursorLogic method T).pure (.ignored rfl)
    | false =>
      exact (cursorLogic method T).bind (requiredValue_holds hA e) fun _ =>
        (cursorLogic method T).pure fun he => .required rfl he

theorem argumentValues_holds (hA : Answers h A) (is ds : List Ty) (es : List Expr) :
    (cursorLogic method T).Holds (argumentValues h is ds es) (A.ArgumentValues is ds es) := by
  fun_induction argumentValues h is ds es with
  | case1 i is d ds e es ih =>
    exact (cursorLogic method T).bind (slotValue_holds hA i d e) fun _ =>
      (cursorLogic method T).bind ih fun _ =>
        (cursorLogic method T).pure fun hes he => .cons he hes
  | case2 is ds es hend =>
    -- One of the three lists has come to its end.
    refine (cursorLogic method T).pure (.rest ?_)
    cases is with
    | nil => exact .inl rfl
    | cons i is =>
      cases ds with
      | nil => exact .inr (.inl rfl)
      | cons d ds =>
        cases es with
        | nil => exact .inr (.inr rfl)
        | cons e es => exact (hend i is d ds e es rfl rfl rfl).elim

theorem initializerValues_holds (hA : Answers h A) (fs : List (Fragment Expr)) :
    (cursorLogic method T).Holds (initializerValues h fs)
      (List.Forall₂ A.InitializerValue fs) := by
  fun_induction initializerValues h fs with
  | case1 => exact (cursorLogic method T).pure .nil
  | case2 binder fs ih =>
    exact (cursorLogic method T).bind ih fun _ =>
      (cursorLogic method T).pure fun hfs => .cons .absent hfs
  | case3 binder e fs ih =>
    exact (cursorLogic method T).bind (slotValue_holds hA binder.type binder.type e) fun _ =>
      (cursorLogic method T).bind ih fun _ =>
        (cursorLogic method T).pure fun hfs he => .cons (.value he) hfs

/-! ## Updates and operations -/

/-- The target is left alone, or its receiver moves into a temporary from `T`. -/
theorem bindReceiver_holds (target : Expr) :
    (cursorLogic method T : PostLogic (StateT Cursor (StateM σ))).Holds (bindReceiver target)
        fun (bindings, target') =>
      (hasRepeatableReceiver target = true ∧ bindings = [] ∧ target' = target) ∨
      ∃ q f temporary, target = .fieldAccess (some q) f ∧ q.isIdempotent = false ∧
        T temporary.id ∧ temporary.type = q.type ∧
        bindings = [.declareOne temporary (some q)] ∧
        target' = .fieldAccess (some (.varRef temporary)) f := by
  unfold bindReceiver
  split
  · rename_i q f
    split
    · exact (cursorLogic method T).pure (.inl ⟨‹_›, rfl, rfl⟩)
    · rename_i hq
      have hq' : q.isIdempotent = false := by simpa using hq
      -- The temporary is the next identity of the supply.
      intro c s hm
      refine ⟨hm, Supply.later_fresh c.supply receiverTemporary q.type, fun hT => .inr ?_⟩
      refine ⟨q, f, (c.supply.fresh receiverTemporary q.type).1, rfl, hq', ?_, rfl, rfl, rfl⟩
      exact hT _ (Supply.issues_fresh c.supply receiverTemporary q.type)
  · rename_i hother
    refine (cursorLogic method T).pure (.inl ⟨?_, rfl, rfl⟩)
    unfold hasRepeatableReceiver
    split
    · exact (hother _ _ rfl).elim
    · rfl

/-- An update becomes what the rules of `Guarded` say. Temporaries come from `T`, since `T` has all
that the supply issues on the way. -/
theorem guardedUpdate_holds (hA : Answers h A) (target : Expr) (update : Expr → Expr) :
    (cursorLogic method T).Holds (guardedUpdate h target update) (Guarded A T update target) := by
  unfold guardedUpdate
  split
  · rename_i hnone
    exact (cursorLogic method T).pure (.unboxed (Option.isNone_iff_eq_none.mp hnone))
  -- The target is unboxed, so its receiver is bound if need be and a read of it is checked.
  · rename_i hboxed
    have hsome : target.type.unboxed?.isSome = true := by
      simpa [Option.isSome_iff_ne_none] using hboxed
    refine (cursorLogic method T).bind (bindReceiver_holds target) fun (bindings, target') =>
      (cursorLogic method T).bind (requiredValue_holds hA target') fun check => ?_
    -- Whether the check says anything, and whether a receiver was bound, gives the four
    -- remaining rules.
    by_cases hsame : check == target'
    · cases bindings with
      | nil =>
        simp only [hsame, List.nil_append, List.isEmpty_nil, if_true]
        refine (cursorLogic method T).pure fun hcheck hbound => ?_
        -- Without bindings the receiver was repeatable.
        rcases hbound with ⟨hrep, -, rfl⟩ | ⟨_, _, _, _, _, _, _, hnil, _⟩
        · exact .unchanged hrep hcheck hsame
        · cases hnil
      | cons b bs =>
        simp only [hsame, if_true, List.append_nil, List.isEmpty_cons, Bool.false_eq_true, if_false]
        refine (cursorLogic method T).pure fun hcheck hbound => ?_
        rcases hbound with ⟨_, hnil, _⟩ | ⟨q, f, v, rfl, hq, hv, hty, hbs, rfl⟩
        · cases hnil
        · cases hbs
          exact .bound hsome hq hv hty hcheck hsame
    · have hsame' : (check == target') = false := by simpa using hsame
      -- There is a check, so there is a sequence in either case.
      have hcons : (bindings ++ [check]).isEmpty = false := by simp
      simp only [hsame', Bool.false_eq_true, if_false, hcons]
      refine (cursorLogic method T).pure fun hcheck hbound => ?_
      rcases hbound with ⟨hrep, rfl, rfl⟩ | ⟨q, f, v, rfl, hq, hv, hty, rfl, rfl⟩
      · exact .checked hrep hcheck hsame'
      · exact .boundChecked hsome hq hv hty hcheck hsame'

/-- `+=` and `-=` run the same code. -/
theorem binaryOperation_compound {op : BinaryOp} (hop : op = .plusAssign ∨ op = .minusAssign)
    (l r : Expr) (type : Ty) :
    binaryOperation h op l r type =
      if l.type.unboxed?.isSome then do
        let right ← operandValue h r
        guardedUpdate h l fun target => .binary op target right type
      else (do
        let right ← slotValue h l.type (targetDeclaredType l) r
        guardedUpdate h l fun target => .binary op target right type) := by
  rcases hop with rfl | rfl <;> rfl

/-- `+=` and `-=`: the right side is adjusted, then the target is guarded. -/
theorem compound_holds (hA : Answers h A) {op : BinaryOp}
    (hop : op = .plusAssign ∨ op = .minusAssign) (l l₁ r r₁ : Expr) (type : Ty) :
    (cursorLogic method T).Holds (binaryOperation h op l₁ r₁ type) fun e =>
      Converted A T l l₁ → Converted A T r r₁ → Converted A T (.binary op l r type) e := by
  have hguarded : ∀ r₂, (cursorLogic method T).Holds
      (guardedUpdate h l₁ fun target => .binary op target r₂ type) fun e =>
      A.AddedValue l₁ r₁ r₂ → Converted A T l l₁ → Converted A T r r₁ →
        Converted A T (.binary op l r type) e := fun r₂ =>
    (cursorLogic method T).imp (guardedUpdate_holds hA l₁ _)
      fun _ hguard hr₂ hl hr => .compound hop hl hr hr₂ hguard
  rw [binaryOperation_compound hop]
  -- The rule asks whether the target is unboxed, and so does the function.
  simp only [Adjustment.AddedValue] at hguarded
  split
  · rename_i hboxed
    simp only [hboxed, if_true] at hguarded
    exact (cursorLogic method T).bind (operandValue_holds hA r₁) hguarded
  · rename_i hboxed
    simp only [hboxed] at hguarded
    exact (cursorLogic method T).bind (slotValue_holds hA _ _ r₁) hguarded

/-- Operators that unbox both operands whatever these are. -/
theorem operands_holds (hA : Answers h A) (op : BinaryOp) (type : Ty)
    (hop : op.isAssignment = false) (hunbox : ∀ other, unboxesBeside op type other = true)
    (l l₁ r r₁ : Expr) :
    (cursorLogic method T).Holds
      (do
        let left ← operandValue h l₁
        let right ← operandValue h r₁
        pure (.binary op left right type)) fun e =>
      Converted A T l l₁ → Converted A T r r₁ → Converted A T (.binary op l r type) e := by
  refine (cursorLogic method T).bind (operandValue_holds hA l₁) fun l₂ =>
    (cursorLogic method T).bind (operandValue_holds hA r₁) fun r₂ =>
      (cursorLogic method T).pure fun hr₂ hl₂ hl hr => .binary hop hl hr ?_ ?_
  · simpa only [Adjustment.OperandIf, hunbox, if_true] using hl₂
  · simpa only [Adjustment.OperandIf, hunbox, if_true] using hr₂

/-- The two comparisons run the same code, which branches on the types of both operands. -/
theorem binaryOperation_equality {op : BinaryOp} (hop : op = .equals ∨ op = .notEquals)
    (l r : Expr) (type : Ty) :
    binaryOperation h op l r type =
      if l.type.isPrimitive = r.type.isPrimitive then pure (.binary op l r type)
      else if l.type.isPrimitive then do
        let right ← operandValue h r
        pure (.binary op l right type)
      else (do
        let left ← operandValue h l
        pure (.binary op left r type)) := by
  rcases hop with rfl | rfl <;> simp only [binaryOperation] <;>
    cases l.type.isPrimitive <;> cases r.type.isPrimitive <;> rfl

/-- Comparison for equality: one operand is unboxed when only the other one is
primitive. -/
theorem equality_holds (hA : Answers h A) {op : BinaryOp} (hop : op = .equals ∨ op = .notEquals)
    (l l₁ r r₁ : Expr) (type : Ty) :
    (cursorLogic method T).Holds (binaryOperation h op l₁ r₁ type) fun e =>
      Converted A T l l₁ → Converted A T r r₁ → Converted A T (.binary op l r type) e := by
  have hassign : op.isAssignment = false := by rcases hop with rfl | rfl <;> rfl
  have hunbox : ∀ other, unboxesBeside op type other = other.type.isPrimitive := by
    rcases hop with rfl | rfl <;> exact fun _ => rfl
  rw [binaryOperation_equality hop]
  split
  · rename_i hboth
    -- Both sides are primitive or both are references: neither is touched.
    refine (cursorLogic method T).pure fun hl hr => .binary hassign hl hr ?_ ?_
    · rw [Adjustment.OperandIf, hunbox, Adjustment.OperandValue, ← hboth]
      cases l₁.type.isPrimitive <;> simp
    · rw [Adjustment.OperandIf, hunbox, Adjustment.OperandValue, hboth]
      cases r₁.type.isPrimitive <;> simp
  · rename_i hother
    split
    -- The left side is primitive, so the right side is unboxed.
    · rename_i hl₁
      have hr₁ : r₁.type.isPrimitive = false := by simpa [hl₁] using hother
      refine (cursorLogic method T).bind (operandValue_holds hA r₁) fun r₂ =>
        (cursorLogic method T).pure fun hr₂ hl hr => .binary hassign hl hr ?_ ?_
      · simp [Adjustment.OperandIf, hunbox, hr₁]
      · simpa only [Adjustment.OperandIf, hunbox, hl₁, if_true] using hr₂
    -- The other way round.
    · rename_i hl₁
      have hr₁ : r₁.type.isPrimitive = true := by simpa [hl₁] using hother
      refine (cursorLogic method T).bind (operandValue_holds hA l₁) fun l₂ =>
        (cursorLogic method T).pure fun hl₂ hl hr => .binary hassign hl hr ?_ ?_
      · simpa only [Adjustment.OperandIf, hunbox, hr₁, if_true] using hl₂
      · simp [Adjustment.OperandIf, hunbox, hl₁]

/-- Binary operations of already converted operands follow the rules of the relation. Each group of
operators has a lemma above; `plus` is in two of them, by its own type. -/
theorem binaryOperation_holds (hA : Answers h A) (op : BinaryOp) (l l₁ r r₁ : Expr) (type : Ty) :
    (cursorLogic method T).Holds (binaryOperation h op l₁ r₁ type) fun e =>
      Converted A T l l₁ → Converted A T r r₁ → Converted A T (.binary op l r type) e := by
  cases op with
  | assign =>
    exact (cursorLogic method T).bind
      (slotValue_holds hA l₁.type (targetDeclaredType l₁) r₁) fun _ =>
        (cursorLogic method T).pure fun hr₂ hl hr => .assign hl hr hr₂
  | plusAssign => exact compound_holds hA (.inl rfl) l l₁ r r₁ type
  | minusAssign => exact compound_holds hA (.inr rfl) l l₁ r r₁ type
  | equals => exact equality_holds hA (.inl rfl) l l₁ r r₁ type
  | notEquals => exact equality_holds hA (.inr rfl) l l₁ r r₁ type
  | plus =>
    simp only [binaryOperation]
    split
    · rename_i hprim
      exact operands_holds hA .plus type rfl (fun _ => hprim) l l₁ r r₁
    -- A concatenation of texts takes its operands as they are.
    · rename_i hprim
      refine (cursorLogic method T).pure fun hl hr => .binary rfl hl hr ?_ ?_
      · simp [Adjustment.OperandIf, unboxesBeside, hprim]
      · simp [Adjustment.OperandIf, unboxesBeside, hprim]
  | minus | times | divide | remainder | less | lessEquals | greater | greaterEquals
  | conditionalAnd | conditionalOr => exact operands_holds hA _ type rfl (fun _ => rfl) l l₁ r r₁

theorem unaryOperation_holds (hA : Answers h A) (op : UnaryOp) (fixity : Fixity) (x x₁ : Expr)
    (type : Ty) :
    (cursorLogic method T).Holds (unaryOperation h op fixity x₁ type) fun e =>
      Converted A T x x₁ → Converted A T (.unary op fixity x type) e := by
  cases op with
  | increment | decrement =>
    exact (cursorLogic method T).imp (guardedUpdate_holds hA x₁ _)
      fun _ hguard hx => .step rfl hx hguard
  | plus | minus | not =>
    exact (cursorLogic method T).bind (operandValue_holds hA x₁) fun _ =>
      (cursorLogic method T).pure fun hx₂ hx => .unary rfl hx hx₂

/-- A conditional adjusts its condition always and its branches if it has a primitive type
itself. -/
theorem conditionalOperation_holds (hA : Answers h A) (type : Ty) (c c₁ a a₁ b b₁ : Expr) :
    (cursorLogic method T).Holds (conditionalOperation h type c₁ a₁ b₁) fun e =>
      Converted A T c c₁ → Converted A T a a₁ → Converted A T b b₁ →
        Converted A T (.conditional type c a b) e := by
  refine (cursorLogic method T).bind (conditionValue_holds hA c₁) fun c₂ => ?_
  split
  · rename_i hprim
    -- What is known of the three adjusted parts arrives in reverse order.
    refine (cursorLogic method T).bind (operandValue_holds hA a₁) fun a₂ =>
      (cursorLogic method T).bind (operandValue_holds hA b₁) fun b₂ =>
        (cursorLogic method T).pure fun hb₂ ha₂ hc₂ hc ha hb => .conditional hc ha hb hc₂ ?_ ?_
    · simpa only [Adjustment.OperandIf, hprim, if_true] using ha₂
    · simpa only [Adjustment.OperandIf, hprim, if_true] using hb₂
  · rename_i hprim
    refine (cursorLogic method T).pure fun hc₂ hc ha hb => .conditional hc ha hb hc₂ ?_ ?_
    · simp [Adjustment.OperandIf, hprim]
    · simp [Adjustment.OperandIf, hprim]

/-! ## The traversal -/

/-- Every expression hook keeps up the relation. What is adjusted are the new parts; the relation of
the old parts to them comes in as a premise. -/
theorem conversion_tracksExpr (hA : Answers h A) :
    Transform.TracksExpr (cursorLogic method T) (conversion h) (Converted A T) where
  nullLiteral _ := (cursorLogic method T).pure (.leaf rfl)
  boolLiteral _ _ := (cursorLogic method T).pure (.leaf rfl)
  numberLiteral _ _ := (cursorLogic method T).pure (.leaf rfl)
  stringLiteral _ _ := (cursorLogic method T).pure (.leaf rfl)
  thisRef _ := (cursorLogic method T).pure (.leaf rfl)
  varRef _ := (cursorLogic method T).pure (.leaf rfl)
  fieldAccess _ q₁ f :=
    (cursorLogic method T).bind (receiverValue_holds hA f.isStatic q₁) fun _ =>
      (cursorLogic method T).pure fun hq₂ hq => .fieldAccess hq hq₂
  call _ q₁ target _ as₁ :=
    (cursorLogic method T).bind (receiverValue_holds hA target.isStatic q₁) fun _ =>
      (cursorLogic method T).bind (argumentValues_holds hA _ _ as₁) fun _ =>
        (cursorLogic method T).pure fun has₂ hq₂ hq has => .call hq has hq₂ has₂
  newInstance _ _ as₁ :=
    (cursorLogic method T).bind (argumentValues_holds hA _ _ as₁) fun _ =>
      (cursorLogic method T).pure fun has₂ has => .newInstance has has₂
  binary op l l₁ r r₁ type := binaryOperation_holds hA op l l₁ r r₁ type
  unary op fixity x x₁ type := unaryOperation_holds hA op fixity x x₁ type
  cast type x x₁ := by
    show (cursorLogic method T).Holds
      (if type.isPrimitive then do
        let operand ← slotValue h type type x₁
        pure (Expr.cast type operand)
      else pure (Expr.cast type x₁)) _
    split
    · rename_i hprim
      refine (cursorLogic method T).bind (slotValue_holds hA type type x₁) fun _ =>
        (cursorLogic method T).pure fun hx₂ hx => .cast hx ?_
      simpa only [Adjustment.CastValue, hprim, if_true] using hx₂
    · rename_i hprim
      refine (cursorLogic method T).pure fun hx => .cast hx ?_
      simp [Adjustment.CastValue, hprim]
  conditional type c c₁ a a₁ b b₁ := conditionalOperation_holds hA type c c₁ a a₁ b b₁
  notNull _ _ := (cursorLogic method T).pure fun hx => .notNull hx
  multi _ _ := (cursorLogic method T).pure fun hes => .multi hes
  declare _ fs₁ :=
    (cursorLogic method T).bind (initializerValues_holds hA fs₁) fun _ =>
      (cursorLogic method T).pure fun hfs₂ hfs => .declare hfs hfs₂

/-- Every statement hook keeps up the relation, inside a method. The method matters for return
values only, which flow into its return type. -/
theorem conversion_tracksStmt (hA : Answers h A) (method : MethodRef) :
    Transform.TracksStmt (cursorLogic (some method) T) (conversion h) (Converted A T)
      (stmtSteps A T method) where
  enter _ := modify_holds (fun _ => rfl) (fun _ => rfl)
  -- Leaving a statement restores the span of the statement around it, if there is one.
  exit _ := modify_holds
    (fun c => by unfold Cursor.exitStatement; split <;> rfl)
    (fun c => by unfold Cursor.exitStatement; split <;> rfl)
  block _ := (cursorLogic (some method) T).pure rfl
  expression _ _ _ := (cursorLogic (some method) T).pure fun he => .expression he
  returnValue v v₁ span := by
    cases v₁ with
    | none =>
      intro c s hm
      refine ⟨hm, Supply.Later.refl _, fun _ hv => ?_⟩
      cases hv
      exact .returnValue .none
    | some e₁ =>
      have hslot : (cursorLogic (some method) T).Holds
          (do
            let value ← slotValue h method.returnType method.declaration.returnType e₁
            pure (.returnValue (some value) span)) fun s =>
          Option.Rel (Converted A T) v (some e₁) →
            Stmt.Related (stmtSteps A T method) (.returnValue v span) s := by
        refine (cursorLogic (some method) T).bind (slotValue_holds hA _ _ e₁) fun e₂ =>
          (cursorLogic (some method) T).pure fun he₂ hv => ?_
        cases hv with
        | some he => exact .returnValue (.some ⟨e₁, he, he₂⟩)
      -- The cursor is inside the method, so the hook takes the branch of `hslot`.
      intro ⟨⟨_, _, enclosing⟩, _, _⟩ s hm
      obtain rfl : enclosing = some method := hm
      exact hslot _ s rfl
  conditional _ c₁ _ _ _ _ _ :=
    (cursorLogic (some method) T).bind (conditionValue_holds hA c₁) fun _ =>
      (cursorLogic (some method) T).pure fun hc₂ hc ha hb => .conditional ⟨c₁, hc, hc₂⟩ ha hb
  whileLoop _ c₁ _ _ _ :=
    (cursorLogic (some method) T).bind (conditionValue_holds hA c₁) fun _ =>
      (cursorLogic (some method) T).pure fun hc₂ hc hb => .whileLoop ⟨c₁, hc, hc₂⟩ hb
  forLoop i i₁ c c₁ u u₁ b b₁ span := by
    cases c₁ with
    | none =>
      refine (cursorLogic (some method) T).pure fun hi hc hu hb => ?_
      cases hc
      exact .forLoop hi .none hu hb
    | some c₁ =>
      refine (cursorLogic (some method) T).bind (conditionValue_holds hA c₁) fun _ =>
        (cursorLogic (some method) T).pure fun hc₂ hi hc hu hb => ?_
      cases hc with
      | some hc => exact .forLoop hi (.some ⟨c₁, hc, hc₂⟩) hu hb
  assertion _ c₁ _ _ _ :=
    (cursorLogic (some method) T).bind (conditionValue_holds hA c₁) fun _ =>
      (cursorLogic (some method) T).pure fun hc₂ hc hmessage => .assertion ⟨c₁, hc, hc₂⟩ hmessage
  throwValue _ v₁ _ :=
    (cursorLogic (some method) T).bind (requiredValue_holds hA v₁) fun _ =>
      (cursorLogic (some method) T).pure fun hv₂ hv => .throwValue ⟨v₁, hv, hv₂⟩

/-- The initializer of a field flows into the slot of the field. -/
theorem onField_holds (hA : Answers h A) (f : FieldDecl) (i : Option Expr) :
    (cursorLogic method T).Holds ((conversion h).onField { f with initializer := i }) fun f' =>
      Option.Rel (Converted A T) f.initializer i → FieldDecl.Related (unitSteps A T) f f' := by
  cases i with
  | none =>
    refine (cursorLogic method T).pure fun hi => ⟨rfl, rfl, ?_⟩
    -- The field itself still has its old initializer, to which the new one is related.
    generalize f.initializer = j at hi
    cases hi
    exact .none
  | some e₁ =>
    refine (cursorLogic method T).bind (slotValue_holds hA f.ref.type f.ref.declaration.type e₁)
      fun e₂ => (cursorLogic method T).pure fun he₂ hi => ⟨rfl, rfl, ?_⟩
    generalize f.initializer = j at hi
    cases hi with
    | some he => exact .some ⟨e₁, he, he₂⟩

/-- The hooks of declarations keep up the relation. Types and fields leave the cursor outside of
methods, and methods return it there. -/
theorem conversion_tracksUnit (hA : Answers h A) :
    Transform.TracksUnit (cursorLogic none T) (conversion h) (unitSteps A T) where
  enterType _ := modify_holds (fun _ => rfl) (fun _ => rfl)
  exitType _ := modify_holds (fun _ => rfl) (fun _ => rfl)
  field f := by
    have henter : (cursorLogic none T).Holds ((conversion h).enterField f) fun _ => True :=
      modify_holds (fun _ => rfl) (fun _ => rfl)
    have hexit : ∀ f', (cursorLogic none T).Holds ((conversion h).exitField f') fun _ => True :=
      fun _ => (cursorLogic none T).pure trivial
    exact (cursorLogic none T).bind henter fun _ =>
      (cursorLogic none T).bind
        (Transform.optionalExpr_tracks (conversion_tracksExpr hA) f.initializer) fun i =>
        (cursorLogic none T).bind (onField_holds hA f i) fun f' =>
          (cursorLogic none T).bind (hexit f') fun _ =>
            (cursorLogic none T).pure fun _ hf hi _ => hf hi
  method d := by
    -- Inside, the enclosing method is `d`; on the way out it is cleared again.
    intro c s _
    obtain ⟨_, hlater, hbody⟩ := Transform.optionalBlock_tracks (conversion_tracksExpr hA)
      (conversion_tracksStmt hA d.ref) d.body (c.enterMethod d) s rfl
    exact ⟨rfl, hlater, fun hT => ⟨rfl, rfl, rfl, hbody hT⟩⟩
  onType _ := (cursorLogic none T).pure rfl
  onUnit _ := (cursorLogic none T).pure rfl

end

/-- Every run over an expression relates it to its result, with temporaries among
the identities that the supply issues meanwhile. -/
theorem expr_converted {h : Handler (StateM σ)} {A : Adjustment} (hA : Answers h A)
    (e : Expr) (c : Cursor) (s : σ) :
    c.supply.Later ((conversion h).expr e c s).1.2.supply ∧
      ∀ T : VariableId → Prop,
        (∀ id, c.supply.Issues ((conversion h).expr e c s).1.2.supply id → T id) →
        Converted A T e ((conversion h).expr e c s).1.1 :=
  ⟨(Transform.expr_tracks (conversion_tracksExpr (T := fun _ => True) hA) e c s rfl).2.1,
    fun _ hT => (Transform.expr_tracks (conversion_tracksExpr hA) e c s rfl).2.2 hT⟩

/-- Every run over a unit relates it to its result. As for expressions, `T` is any set that has all
identities issued during the run. -/
theorem unit_converted {h : Handler (StateM σ)} {A : Adjustment} (hA : Answers h A)
    (u : CompilationUnit) (c : Cursor) (hc : c.site.enclosingMethod = none) (s : σ) :
    c.supply.Later ((conversion h).unit u c s).1.2.supply ∧
      ∀ T : VariableId → Prop,
        (∀ id, c.supply.Issues ((conversion h).unit u c s).1.2.supply id → T id) →
        CompilationUnit.Related (unitSteps A T) u ((conversion h).unit u c s).1.1 :=
  ⟨(Transform.unit_tracks (conversion_tracksUnit (T := fun _ => True) hA) u c s hc).2.1,
    fun _ hT => (Transform.unit_tracks (conversion_tracksUnit hA) u c s hc).2.2 hT⟩

/-! ## A unit to run on -/

/-- A unit with one method that consists of the given statements. -/
def unitOf (parameters : List Variable) (statements : List Stmt) : CompilationUnit :=
  { name := "Holder.java"
    types := [{
      ref := { qualifiedName := "t.Holder" }
      methods := [{
        ref := { enclosing := { qualifiedName := "t.Holder" }, name := "run" }
        parameters
        body := some { statements } }] }] }

/-- A field of a wrapper type. -/
def counter : FieldRef :=
  { enclosing := { qualifiedName := "t.Holder" }, name := "count"
    type := .classNamed "java.lang.Integer" }

/-- `e.count++` -/
def countUp (e : Expr) : Expr :=
  .unaryOperation .increment .trailing (.fieldAccess (some e) counter)

/-- `holder.self(holder).count++; assert true : holder.self(holder);` with a
nullable `holder`. -/
def nullableHolder : CompilationUnit :=
  let holder : Variable :=
    { id := { serial := 0 }, name := "holder", type := .classNamed "t.Holder", isParameter := true }
  let self : Expr := .call (some (.varRef holder))
    { enclosing := { qualifiedName := "t.Holder" }, name := "self"
      parameters := [(Ty.classNamed "t.Holder").toNonNullable]
      returnType := .classNamed "t.Holder" } [.varRef holder]
  unitOf [holder] [.expression (countUp self) {}, .assertion (.ofBool true) (some self) {}]

end Conversion

end Lowering
