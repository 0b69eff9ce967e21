import Lowering.Proofs.Conversion.Demands
import Lowering.Proofs.Conversion.Runs
import Lowering.Proofs.Tree.Simulation

/-!
# Handlers that note their calls

To see which calls the hooks of a handler get, the handler is given a second state
component in which every call is noted. Nothing else changes: the traversal with
the noting handler gives the same tree, cursor and state as without the notes.

Main statement: `Conversion.noting_unit`.
-/

namespace Lowering

variable {σ : Type}

/-- Runs the hook and adds the call to the notes. -/
def noted {α : Type} (call : HookCall) (x : StateM σ α) : StateM (List HookCall × σ) α :=
  fun (calls, s) => ((x s).1, (calls ++ [call], (x s).2))

/-- A handler with the same hooks that notes which of them is called. -/
def Handler.noting (h : Handler (StateM σ)) : Handler (StateM (List HookCall × σ)) where
  onSlot inferred declared value site :=
    noted ⟨⟨.slot, inferred, declared⟩, site⟩ (h.onSlot inferred declared value site)
  onNonNull inferred declared value site :=
    noted ⟨⟨.nonNull, inferred, declared⟩, site⟩ (h.onNonNull inferred declared value site)

/-- The calls that the hooks get in a run over the unit, from the given state on. -/
def Handler.calls (h : Handler (StateM σ)) (u : CompilationUnit) (supply : Supply) (s : σ) :
    List HookCall :=
  ((conversion h.noting).unit u { supply } ([], s)).2.1

namespace Conversion

/-- The computations do the same apart from the notes that the first one makes. -/
def notesAside :
    Simulation (StateT Cursor (StateM (List HookCall × σ))) (StateT Cursor (StateM σ)) where
  Holds x y := ∀ (c : Cursor) (calls : List HookCall) (s : σ),
    (x c (calls, s)).1 = (y c s).1 ∧ (x c (calls, s)).2.2 = (y c s).2
  pure _ := fun _ _ _ => ⟨rfl, rfl⟩
  bind {α β x y f g} hx hf := by
    intro c calls s
    obtain ⟨hresult, hstate⟩ := hx c calls s
    -- The second computation goes on with the notes of the first, which may be any.
    have hrest := hf (y c s).1.1 (y c s).1.2 (x c (calls, s)).2.1 (y c s).2
    rw [← hresult, ← hstate] at hrest
    show (f (x c (calls, s)).1.1 (x c (calls, s)).1.2 (x c (calls, s)).2).1 =
        (g (y c s).1.1 (y c s).1.2 (y c s).2).1 ∧
      (f (x c (calls, s)).1.1 (x c (calls, s)).1.2 (x c (calls, s)).2).2.2 =
        (g (y c s).1.1 (y c s).1.2 (y c s).2).2
    rw [← hresult, ← hstate]
    exact hrest

section

variable (h : Handler (StateM σ))

/-! ## Values -/

/-- Asking a hook and noting it gives the answer of the hook. All other functions of the traversal
ask hooks through this one and the next. -/
theorem nonNullValue_noting (inferred declared : Ty) (e : Expr) :
    notesAside.Holds (nonNullValue h.noting inferred declared e)
      (nonNullValue h inferred declared e) :=
  fun _ _ _ => ⟨rfl, rfl⟩

/-- Which of the two hooks is asked does not depend on the handler. -/
theorem slotValue_noting (inferred declared : Ty) (e : Expr) :
    notesAside.Holds (slotValue h.noting inferred declared e)
      (slotValue h inferred declared e) := by
  unfold slotValue
  split
  · exact nonNullValue_noting h inferred declared e
  · exact fun _ _ _ => ⟨rfl, rfl⟩

theorem requiredValue_noting (e : Expr) :
    notesAside.Holds (requiredValue h.noting e) (requiredValue h e) :=
  nonNullValue_noting h e.type e.type e

theorem conditionValue_noting (e : Expr) :
    notesAside.Holds (conditionValue h.noting e) (conditionValue h e) :=
  slotValue_noting h _ _ e

theorem operandValue_noting (e : Expr) :
    notesAside.Holds (operandValue h.noting e) (operandValue h e) := by
  unfold operandValue
  split
  · exact notesAside.pure e
  · exact requiredValue_noting h e

theorem receiverValue_noting (isStatic : Bool) (q : Option Expr) :
    notesAside.Holds (receiverValue h.noting isStatic q) (receiverValue h isStatic q) := by
  cases q with
  | none => exact notesAside.pure none
  | some e =>
    cases isStatic with
    | true => exact notesAside.pure (some e)
    | false => exact notesAside.map (requiredValue_noting h e) some

/-- Arguments are adjusted one after the other, as long as there are parameter types for them. -/
theorem argumentValues_noting (is ds : List Ty) (es : List Expr) :
    notesAside.Holds (argumentValues h.noting is ds es) (argumentValues h is ds es) := by
  induction es generalizing is ds with
  | nil =>
    -- Without arguments nothing is asked, whichever parameters there are.
    cases is <;> cases ds <;> exact notesAside.pure []
  | cons e es ih =>
    cases is with
    | nil => exact notesAside.pure (e :: es)
    | cons i is =>
      cases ds with
      | nil => exact notesAside.pure (e :: es)
      | cons d ds =>
        exact notesAside.bind (slotValue_noting h i d e) fun e' =>
          notesAside.map (ih is ds) (e' :: ·)

theorem initializerValues_noting (fs : List (Fragment Expr)) :
    notesAside.Holds (initializerValues h.noting fs) (initializerValues h fs) := by
  induction fs with
  | nil => exact notesAside.pure []
  | cons f fs ih =>
    obtain ⟨binder, i⟩ := f
    cases i with
    | none => exact notesAside.map ih (⟨binder, none⟩ :: ·)
    | some e =>
      exact notesAside.bind (slotValue_noting h binder.type binder.type e) fun e' =>
        notesAside.map ih (⟨binder, some e'⟩ :: ·)

/-! ## Updates and operations -/

/-- Binding a receiver draws from the supply and asks no hook. -/
theorem bindReceiver_noting (target : Expr) :
    (notesAside : Simulation (StateT Cursor (StateM (List HookCall × σ))) _).Holds
      (bindReceiver target) (bindReceiver target) := by
  unfold bindReceiver
  split
  · split
    · exact notesAside.pure _
    · exact fun _ _ _ => ⟨rfl, rfl⟩
  · exact notesAside.pure _

/-- Updates ask for the check of their target once. Whether they become a sequence depends on the
answer, and the answers agree. -/
theorem guardedUpdate_noting (target : Expr) (update : Expr → Expr) :
    notesAside.Holds (guardedUpdate h.noting target update) (guardedUpdate h target update) := by
  unfold guardedUpdate
  split
  · exact notesAside.pure _
  · refine notesAside.bind (bindReceiver_noting target) fun (bindings, target') =>
      notesAside.bind (requiredValue_noting h target') fun check => ?_
    dsimp only
    -- What stands before the update is the same on both sides; only whether there is any is looked
    -- at.
    generalize bindings ++ (if check == target' then [] else [check]) = first
    split
    · exact notesAside.pure _
    · exact notesAside.pure _

/-- Both operands in turn, for operators that unbox either. -/
theorem operands_noting (op : BinaryOp) (l r : Expr) (type : Ty) :
    notesAside.Holds
      (do
        let left ← operandValue h.noting l
        let right ← operandValue h.noting r
        pure (Expr.binary op left right type))
      (do
        let left ← operandValue h l
        let right ← operandValue h r
        pure (Expr.binary op left right type)) :=
  notesAside.bind (operandValue_noting h l) fun l' =>
    notesAside.map (operandValue_noting h r) fun r' => Expr.binary op l' r' type

theorem equality_noting {op : BinaryOp} (hop : op = .equals ∨ op = .notEquals) (l r : Expr)
    (type : Ty) :
    notesAside.Holds (binaryOperation h.noting op l r type) (binaryOperation h op l r type) := by
  rw [binaryOperation_equality hop, binaryOperation_equality hop]
  split
  · exact notesAside.pure _
  · split
    · exact notesAside.map (operandValue_noting h r) fun r' => Expr.binary op l r' type
    · exact notesAside.map (operandValue_noting h l) fun l' => Expr.binary op l' r type

/-- Operators fall into five groups by how they treat their operands. In none of them does the
handler decide which operand is asked about. -/
theorem binaryOperation_noting (op : BinaryOp) (l r : Expr) (type : Ty) :
    notesAside.Holds (binaryOperation h.noting op l r type) (binaryOperation h op l r type) := by
  cases op with
  | assign =>
    exact notesAside.map (slotValue_noting h _ _ r) fun r' => Expr.binary .assign l r' type
  | plusAssign | minusAssign =>
    simp only [binaryOperation]
    split
    · exact notesAside.bind (operandValue_noting h r) fun r' => guardedUpdate_noting h l _
    · exact notesAside.bind (slotValue_noting h _ _ r) fun r' => guardedUpdate_noting h l _
  | equals => exact equality_noting h (.inl rfl) l r type
  | notEquals => exact equality_noting h (.inr rfl) l r type
  | plus =>
    simp only [binaryOperation]
    split
    · exact operands_noting h .plus l r type
    · exact notesAside.pure _
  | minus | times | divide | remainder | less | lessEquals | greater | greaterEquals
  | conditionalAnd | conditionalOr => exact operands_noting h _ l r type

theorem unaryOperation_noting (op : UnaryOp) (fixity : Fixity) (x : Expr) (type : Ty) :
    notesAside.Holds (unaryOperation h.noting op fixity x type)
      (unaryOperation h op fixity x type) := by
  cases op with
  | increment | decrement => exact guardedUpdate_noting h x _
  | plus | minus | not =>
    exact notesAside.map (operandValue_noting h x) fun x' => Expr.unary _ fixity x' type

theorem conditionalOperation_noting (type : Ty) (c a b : Expr) :
    notesAside.Holds (conditionalOperation h.noting type c a b)
      (conditionalOperation h type c a b) := by
  refine notesAside.bind (conditionValue_noting h c) fun c' => ?_
  split
  · exact notesAside.bind (operandValue_noting h a) fun a' =>
      notesAside.map (operandValue_noting h b) fun b' => Expr.conditional type c' a' b'
  · exact notesAside.pure _

/-! ## The traversal -/

theorem modify_noting (f : Cursor → Cursor) :
    (notesAside : Simulation (StateT Cursor (StateM (List HookCall × σ))) _).Holds
      (modify f) (modify f) :=
  fun _ _ _ => ⟨rfl, rfl⟩

/-- The traversals with and without notes run the same hooks in step. Most hooks do nothing; those
that ask the handler are the lemmas above. -/
theorem conversion_noting :
    Transform.Simulated notesAside (conversion h.noting) (conversion h) where
  enterType d := modify_noting (·.enterType d)
  exitType _ := modify_noting (·.exitType)
  enterField f := modify_noting (·.enterField f)
  exitField _ := notesAside.pure ()
  enterMethod d := modify_noting (·.enterMethod d)
  exitMethod _ := modify_noting (·.exitMethod)
  enterStatement s := modify_noting (·.enterStatement s)
  exitStatement _ := modify_noting (·.exitStatement)
  onUnit _ := notesAside.pure _
  onType _ := notesAside.pure _
  onMethod _ := notesAside.pure _
  onBlock _ := notesAside.pure _
  onField f := by
    obtain ⟨ref, i, span⟩ := f
    cases i with
    | none => exact notesAside.pure _
    | some e => exact notesAside.map (slotValue_noting h _ _ e) _
  onExpressionStmt _ _ := notesAside.pure _
  -- A return value is adjusted inside a method only, so the cursor is taken apart first.
  onReturn v span := by
    rintro ⟨⟨_, _, method⟩, _, _⟩ calls s
    cases v with
    | none => exact ⟨rfl, rfl⟩
    | some e =>
      cases method with
      | none => exact ⟨rfl, rfl⟩
      | some method =>
        exact notesAside.map (slotValue_noting h _ _ e)
          (fun e' => Stmt.returnValue (some e') span) _ calls s
  onThrow v span := notesAside.map (requiredValue_noting h v) fun v' => Stmt.throwValue v' span
  onIf c a b span :=
    notesAside.map (conditionValue_noting h c) fun c' => Stmt.conditional c' a b span
  onWhile c b span := notesAside.map (conditionValue_noting h c) fun c' => Stmt.whileLoop c' b span
  onFor i c u b span := by
    cases c with
    | none => exact notesAside.pure _
    | some c =>
      exact notesAside.map (conditionValue_noting h c) fun c' => Stmt.forLoop i (some c') u b span
  onAssert c message span :=
    notesAside.map (conditionValue_noting h c) fun c' => Stmt.assertion c' message span
  onNullLiteral _ := notesAside.pure _
  onBoolLiteral _ _ := notesAside.pure _
  onNumberLiteral _ _ := notesAside.pure _
  onStringLiteral _ _ := notesAside.pure _
  onThis _ := notesAside.pure _
  onVarRef _ := notesAside.pure _
  onFieldAccess q f :=
    notesAside.map (receiverValue_noting h f.isStatic q) fun q' => Expr.fieldAccess q' f
  onCall q target as :=
    notesAside.bind (receiverValue_noting h target.isStatic q) fun q' =>
      notesAside.map (argumentValues_noting h _ _ as) fun as' => Expr.call q' target as'
  onNewInstance target as :=
    notesAside.map (argumentValues_noting h _ _ as) fun as' => Expr.newInstance target as'
  onBinary := binaryOperation_noting h
  onUnary := unaryOperation_noting h
  -- Casts to other types leave their operand alone.
  onCast type x := by
    show notesAside.Holds
      (if type.isPrimitive then do
        let operand ← slotValue h.noting type type x
        pure (Expr.cast type operand)
      else pure (Expr.cast type x))
      (if type.isPrimitive then do
        let operand ← slotValue h type type x
        pure (Expr.cast type operand)
      else pure (Expr.cast type x))
    split
    · exact notesAside.map (slotValue_noting h type type x) fun x' => Expr.cast type x'
    · exact notesAside.pure _
  onConditional := conditionalOperation_noting h
  onNotNull _ := notesAside.pure _
  onMulti _ := notesAside.pure _
  onDeclare fs := notesAside.map (initializerValues_noting h fs) Expr.declare

/-- Notes aside, a noting handler leads to the same result as the handler itself. -/
theorem noting_unit (u : CompilationUnit) (c : Cursor) (calls : List HookCall) (s : σ) :
    ((conversion h.noting).unit u c (calls, s)).1 = ((conversion h).unit u c s).1 ∧
      ((conversion h.noting).unit u c (calls, s)).2.2 = ((conversion h).unit u c s).2 :=
  (conversion_noting h).unit u c calls s

end

end Conversion

end Lowering
