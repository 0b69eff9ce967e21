import Lowering.Proofs.Conversion.Runs
import Lowering.Proofs.Conversion.Values
import Lowering.Proofs.Tree.Equal
import Lowering.Proofs.Tree.Sameness
import Lowering.Proofs.Tree.Traces

/-!
# Handlers that change nothing

If a handler leaves every value as it is, one would expect the traversal to give the
unit back. It does so except for updates of a field of a wrapper type whose receiver
has effects: their receiver is bound to a temporary before the handler is asked, and
it stays bound whatever the answer.

The two directions have proofs of their own. That nothing else changes is a property
of the run, hook by hook. That a bound receiver shows in the result follows from the
relation between a unit and its result, since an update never equals a sequence.

Main statement: `Conversion.unit_unchanged_iff`.
-/

namespace Lowering

open Conversion

namespace Expr

/-- A sequence. -/
def isSequence : Expr → Bool
  | multi _ => true
  | _ => false

end Expr

namespace Conversion

variable {σ : Type}

/-- The value stays. -/
def unchanging : Adjustment where
  slot _ _ e e' := e' = e
  nonNull _ _ e e' := e' = e

/-- Whichever site is asked, an unchanged value is the value. -/
theorem unchanging_within : unchanging.Within fun e e' => e' = e :=
  ⟨fun _ => rfl, id, id⟩

/-! ## Computations with a known result -/

/-- Judges a computation by its result alone. -/
def resultLogic : TraceLogic (StateT Cursor (StateM σ)) Unit Empty where
  Holds _ x Q := ∀ (c : Cursor) (s : σ), Q (x c s).1.1
  pure hQ := fun _ _ => hQ
  bind hx hf := fun c s => hf _ (hx c s) _ _

/-- The computation gives `a`, from every cursor and state. -/
def Gives {α : Type} (x : StateT Cursor (StateM σ) α) (a : α) : Prop :=
  resultLogic.Holds (fun _ => []) x (Eq a)

namespace Gives

variable {α β : Type}

theorem pure (a : α) : Gives (Pure.pure a : StateT Cursor (StateM σ) α) a := fun _ _ => rfl

/-- Computations with known results compose: the second one is known at the result of the first. -/
theorem bind {x : StateT Cursor (StateM σ) α} {f : α → StateT Cursor (StateM σ) β} {a : α} {b : β}
    (hx : Gives x a) (hf : Gives (f a) b) : Gives (x >>= f) b := by
  have hrest : ∀ a', a = a' → resultLogic.Holds (fun _ => []) (f a') (Eq b) := by
    intro a' ha
    rw [← ha]
    exact hf
  exact TraceLogic.of_silent (resultLogic.bind hx hrest)

/-- A last step that only packs the result. -/
theorem map {x : StateT Cursor (StateM σ) α} {a : α} (hx : Gives x a) (f : α → β) :
    Gives (x >>= fun a => Pure.pure (f a)) (f a) :=
  hx.bind (.pure _)

end Gives

/-! ## Values -/

section

variable {h : Handler (StateM σ)} (hsame : Answers h unchanging)

include hsame

/-- Values stay as they are. The handler may count or note what it likes, since only the result is
judged. -/
theorem nonNullValue_gives (inferred declared : Ty) (e : Expr) :
    Gives (nonNullValue h inferred declared e) e :=
  fun c s => (hsame.nonNull inferred declared e c.site s).symm

theorem slotValue_gives (inferred declared : Ty) (e : Expr) :
    Gives (slotValue h inferred declared e) e := by
  unfold slotValue
  split
  · exact nonNullValue_gives hsame inferred declared e
  · exact fun c s => (hsame.slot inferred declared e c.site s).symm

theorem requiredValue_gives (e : Expr) : Gives (requiredValue h e) e :=
  nonNullValue_gives hsame e.type e.type e

theorem conditionValue_gives (e : Expr) : Gives (conditionValue h e) e :=
  slotValue_gives hsame _ _ e

theorem operandValue_gives (e : Expr) : Gives (operandValue h e) e := by
  unfold operandValue
  split
  · exact .pure e
  · exact requiredValue_gives hsame e

theorem receiverValue_gives (isStatic : Bool) (q : Option Expr) :
    Gives (receiverValue h isStatic q) q := by
  cases q with
  | none => exact .pure none
  | some e =>
    cases isStatic with
    | true => exact .pure (some e)
    | false => exact (requiredValue_gives hsame e).map some

/-- Arguments stay, those with and those without a parameter. -/
theorem argumentValues_gives (is ds : List Ty) (es : List Expr) :
    Gives (argumentValues h is ds es) es := by
  fun_induction argumentValues h is ds es with
  | case1 i is d ds e es ih => exact (slotValue_gives hsame i d e).bind (ih.map (e :: ·))
  | case2 is ds es => exact .pure es

theorem initializerValues_gives (fs : List (Fragment Expr)) :
    Gives (initializerValues h fs) fs := by
  fun_induction initializerValues h fs with
  | case1 => exact .pure []
  | case2 binder fs ih => exact ih.map (⟨binder, none⟩ :: ·)
  | case3 binder e fs ih =>
    exact (slotValue_gives hsame binder.type binder.type e).bind (ih.map (⟨binder, some e⟩ :: ·))

/-! ## Operations -/

/-- The read is equal to its check, so nothing has to stand before the update. That reads are equal
to themselves has to be assumed, because of literals that are not a number. -/
theorem guardedUpdate_gives {target : Expr} (update : Expr → Expr)
    (hdirect : target.type.unboxed?.isSome = true → hasRepeatableReceiver target = true)
    (hself : (target == target) = true) :
    Gives (guardedUpdate h target update) (update target) := by
  cases hboxed : target.type.unboxed? with
  | none =>
    rw [guardedUpdate_of_unboxed h hboxed]
    exact .pure _
  | some p =>
    have hsome : target.type.unboxed?.isSome = true := by rw [hboxed]; rfl
    -- The receiver is not bound, by assumption.
    rw [guardedUpdate_of_repeatable h hsome (hdirect hsome)]
    refine (requiredValue_gives hsame target).bind ?_
    rw [if_pos hself]
    exact .pure _

theorem operands_gives (op : BinaryOp) (l r : Expr) (type : Ty) :
    Gives (do
      let left ← operandValue h l
      let right ← operandValue h r
      pure (Expr.binary op left right type)) (.binary op l r type) :=
  (operandValue_gives hsame l).bind ((operandValue_gives hsame r).map _)

/-- Compound assignments stay if their receiver need not be bound. -/
theorem compound_gives {op : BinaryOp} (hop : op = .plusAssign ∨ op = .minusAssign) {l r : Expr}
    (type : Ty) (hdirect : l.type.unboxed?.isSome = true → hasRepeatableReceiver l = true)
    (hself : (l == l) = true) :
    Gives (binaryOperation h op l r type) (.binary op l r type) := by
  have hupdate := guardedUpdate_gives hsame (fun target => .binary op target r type) hdirect hself
  rw [binaryOperation_compound hop]
  split
  · exact (operandValue_gives hsame r).bind hupdate
  · exact (slotValue_gives hsame _ _ r).bind hupdate

theorem binaryOperation_gives {op : BinaryOp} (hop : op.isAssignment = false) (l r : Expr)
    (type : Ty) : Gives (binaryOperation h op l r type) (.binary op l r type) := by
  -- Both comparisons branch on the types of their operands, and stay in each branch.
  have hequality : op = .equals ∨ op = .notEquals →
      Gives (binaryOperation h op l r type) (.binary op l r type) := by
    intro hop
    rw [binaryOperation_equality hop]
    split
    · exact .pure _
    · split
      · exact (operandValue_gives hsame r).map _
      · exact (operandValue_gives hsame l).map _
  cases op with
  | assign | plusAssign | minusAssign => cases hop
  | equals => exact hequality (.inl rfl)
  | notEquals => exact hequality (.inr rfl)
  | plus =>
    simp only [binaryOperation]
    split
    · exact operands_gives hsame .plus l r type
    · exact .pure _
  | _ => exact operands_gives hsame _ l r type

theorem conditionalOperation_gives (type : Ty) (c a b : Expr) :
    Gives (conditionalOperation h type c a b) (.conditional type c a b) := by
  refine (conditionValue_gives hsame c).bind ?_
  split
  · exact (operandValue_gives hsame a).bind ((operandValue_gives hsame b).map _)
  · exact .pure _

end

/-! ## Expressions -/

/-- What a node must be like to stay as it is. -/
structure Steady (e : Expr) : Prop where
  single : e.isSequence = false
  number : e.isNaNLiteral = false
  direct : e.bindsReceiver = false

theorem Steady.same {e : Expr} (he : e.Everywhere Steady) : (e == e) = true :=
  e.sameAs_self (he.imp fun _ hx => hx.number)

section

variable {h : Handler (StateM σ)} (hsame : Answers h unchanging)

include hsame

/-- Every expression hook gives back the node that it would have been given before the traversal.
The parts come back unchanged by induction, hence the relation is equality. -/
theorem conversion_gives :
    Transform.TracesExpr resultLogic (conversion h) Steady Eq fun _ _ => [] := by
  constructor
  case nullLiteral => exact fun _ => Gives.pure _
  case boolLiteral => exact fun _ _ => Gives.pure _
  case numberLiteral => exact fun _ _ => Gives.pure _
  case stringLiteral => exact fun _ _ => Gives.pure _
  case thisRef => exact fun _ => Gives.pure _
  case varRef => exact fun _ => Gives.pure _
  case fieldAccess =>
    intro q q' f _ hq
    obtain rfl := eq_of_optionRel hq
    exact (receiverValue_gives hsame f.isStatic q).map (Expr.fieldAccess · f)
  case call =>
    intro q q' target as as' _ hq has
    obtain rfl := eq_of_optionRel hq
    obtain rfl := eq_of_forall₂ has
    refine (receiverValue_gives hsame target.isStatic q).bind ?_
    exact (argumentValues_gives hsame _ _ as).map (Expr.call q target ·)
  case newInstance =>
    intro target as as' _ has
    obtain rfl := eq_of_forall₂ has
    exact (argumentValues_gives hsame _ _ as).map (Expr.newInstance target ·)
  case binary =>
    rintro op l _ r _ type he rfl rfl
    have hself : (l == l) = true := Steady.same (he.child (by simp [Expr.children]))
    -- Only the two compound operators make use of this.
    have hdirect : (Expr.binary op l r type).bindsReceiver = false := he.here.direct
    cases op with
    | assign => exact (slotValue_gives hsame l.type (targetDeclaredType l) r).map _
    | plusAssign =>
      exact compound_gives hsame (.inl rfl) type ((Expr.bindsReceiver_eq_false rfl).mp hdirect)
        hself
    | minusAssign =>
      exact compound_gives hsame (.inr rfl) type ((Expr.bindsReceiver_eq_false rfl).mp hdirect)
        hself
    | _ => exact binaryOperation_gives hsame rfl l r type
  case unary =>
    rintro op fixity x _ type he rfl
    have hself : (x == x) = true := Steady.same (he.child List.mem_cons_self)
    have hdirect : (Expr.unary op fixity x type).bindsReceiver = false := he.here.direct
    cases op with
    | increment | decrement =>
      exact guardedUpdate_gives hsame (Expr.unary _ fixity · type)
        ((Expr.bindsReceiver_eq_false rfl).mp hdirect) hself
    | _ => exact (operandValue_gives hsame x).map (Expr.unary _ fixity · type)
  case cast =>
    rintro type x _ _ rfl
    show Gives (if type.isPrimitive then do
      let operand ← slotValue h type type x
      pure (Expr.cast type operand) else pure (Expr.cast type x)) _
    split
    · exact (slotValue_gives hsame type type x).map (Expr.cast type ·)
    · exact .pure _
  case conditional =>
    rintro type c _ a _ b _ _ rfl rfl rfl
    exact conditionalOperation_gives hsame type c a b
  case notNull =>
    rintro x _ _ rfl
    exact Gives.pure _
  case multi =>
    -- A sequence could lose repeated checks, whatever the handler does.
    intro es es' he _
    cases he.here.single
  case declare =>
    intro fs fs' _ hfs
    obtain rfl := eq_of_fragments hfs
    exact (initializerValues_gives hsame fs).map Expr.declare

/-! ## Statements -/

/-- Every statement hook gives back its statement. Places do not matter for the result, so no events
are counted. -/
theorem conversion_gives_stmt :
    Transform.TracesStmt resultLogic (conversion h)
      (fun s => ∀ e ∈ s.expressions, e.Everywhere Steady) Eq Eq .silent := by
  constructor
  case bracketed => exact fun hinner c s => hinner (c.enterStatement _) s
  case expr => exact fun hs he => Transform.expr_traces (conversion_gives hsame) _ (hs _ he)
  case expression =>
    rintro e _ span _ rfl
    exact Gives.pure _
  case block =>
    intro ss ss' span _ hss
    obtain rfl := eq_of_forall₂ hss
    exact resultLogic.pure rfl
  case returnValue =>
    intro v v' span _ hv
    obtain rfl := eq_of_optionRel hv
    cases v with
    | none => exact fun c s => rfl
    | some e =>
      -- Outside of a method nothing is asked of a returned value.
      rintro ⟨⟨_, _, enclosing⟩, _, _⟩ s
      cases enclosing with
      | none => rfl
      | some method =>
        have hvalue : Gives _ _ :=
          (slotValue_gives hsame method.returnType method.declaration.returnType e).map
            fun e => Stmt.returnValue (some e) span
        exact hvalue _ s
  case conditional =>
    rintro c _ a _ b b' span _ rfl rfl hb
    obtain rfl := eq_of_optionRel hb
    exact (conditionValue_gives hsame c).map (Stmt.conditional · a b span)
  case whileLoop =>
    rintro c _ b _ span _ rfl rfl
    exact (conditionValue_gives hsame c).map (Stmt.whileLoop · b span)
  case forLoop =>
    rintro i i' c c' u u' b _ span _ hi hc hu rfl
    obtain rfl := eq_of_forall₂ hi
    obtain rfl := eq_of_optionRel hc
    obtain rfl := eq_of_forall₂ hu
    cases c with
    | none => exact Gives.pure _
    | some c => exact (conditionValue_gives hsame c).map fun c => Stmt.forLoop i (some c) u b span
  case assertion =>
    rintro c _ message message' span _ rfl hmessage
    obtain rfl := eq_of_optionRel hmessage
    exact (conditionValue_gives hsame c).map (Stmt.assertion · message span)
  case throwValue =>
    rintro v _ span _ rfl
    exact (requiredValue_gives hsame v).map (Stmt.throwValue · span)

/-! ## Units -/

theorem field_gives {f : FieldDecl} (hf : ∀ e ∈ f.initializer.toList, e.Everywhere Steady) :
    Gives ((conversion h).field f) f := by
  have honField : Gives ((conversion h).onField f) f := by
    obtain ⟨ref, initializer, span⟩ := f
    cases initializer with
    | none => exact .pure _
    | some e =>
      exact (slotValue_gives hsame ref.type ref.declaration.type e).map
        fun e => ({ ref, initializer := some e, span } : FieldDecl)
  have hinitializer : Gives ((conversion h).optionalExpr f.initializer) f.initializer := by
    have hrel := Transform.optionalExpr_traces (conversion_gives hsame) f.initializer hf
    exact fun c s => eq_of_optionRel (hrel c s)
  have henter : Gives ((conversion h).enterField f) () := fun _ _ => rfl
  have hexit : Gives ((conversion h).exitField f) () := Gives.pure ()
  exact henter.bind (hinitializer.bind (honField.bind (hexit.bind (.pure f))))

/-- Methods come back with their statements, the enter and exit hooks only move the cursor. -/
theorem method_gives {d : MethodDecl}
    (hd : ∀ s ∈ d.statements, ∀ e ∈ s.expressions, e.Everywhere Steady) :
    Gives ((conversion h).method d) d := by
  have hbody : Gives ((conversion h).optionalBlock d.body) d.body := by
    refine Transform.optionalBlock_keeps (fun b => Gives.pure b) fun b hb => ?_
    refine TraceLogic.of_silent (Transform.stmts_traces (conversion_gives_stmt hsame) b.statements
      fun s hs => hd s ?_)
    -- Statements of the body, at every depth, are statements of the method.
    rw [Stmt.substatementsList_eq_flatMap] at hs
    exact List.mem_flatMap.mpr ⟨b, Option.mem_toList.mpr hb, hs⟩
  have henter : Gives ((conversion h).enterMethod d) () := fun _ _ => rfl
  have hexit : Gives ((conversion h).exitMethod d) () := fun _ _ => rfl
  exact henter.bind (hbody.bind ((Gives.pure d).bind (hexit.bind (.pure d))))

/-- The traversal gives a unit back in which everything stays as it is. -/
theorem unit_gives {u : CompilationUnit} (hu : u.Everywhere Steady) :
    Gives ((conversion h).unit u) u := by
  refine Transform.unit_keeps (fun _ _ _ => trivial) (fun _ _ _ => trivial) (fun d => Gives.pure d)
    (fun u => Gives.pure u) (fun f hf => field_gives hsame fun e he => hu e ?_)
    (fun d hd => method_gives hsame fun s hs e he => hu e ?_)
  · obtain ⟨d, hd, hf⟩ := List.mem_flatMap.mp hf
    exact List.mem_flatMap.mpr
      ⟨d, hd, List.mem_append_left _ (List.mem_flatMap.mpr ⟨f, hf, he⟩)⟩
  · exact CompilationUnit.mem_expressions_of_statement hd hs he

end

/-! ## Bound receivers -/

/-- A result that equals the expression is the expression, and none of its updates
had its receiver bound. -/
def Untouched (e e' : Expr) : Prop :=
  (e' == e) = true → e' = e ∧ e.Everywhere fun x => x.bindsReceiver = false

section

variable {T : VariableId → Prop}

/-- If the parts of a node are untouched when they compare as equal, so is the node. This is first
done for the three ways in which nodes hold their parts. -/
theorem untouched_option {q q' : Option Expr} (h : Option.Rel Untouched q q')
    (hsame : Expr.sameOption q' q = true) :
    q' = q ∧ ∀ e ∈ q.toList, e.Everywhere fun x => x.bindsReceiver = false := by
  cases h with
  | none => exact ⟨rfl, by simp⟩
  | some he =>
    obtain ⟨rfl, hbinds⟩ := he hsame
    exact ⟨rfl, by simpa using hbinds⟩

theorem untouched_list {es es' : List Expr} (h : List.Forall₂ Untouched es es')
    (hsame : Expr.sameList es' es = true) :
    es' = es ∧ ∀ e ∈ es, e.Everywhere fun x => x.bindsReceiver = false := by
  induction h with
  | nil => exact ⟨rfl, by simp⟩
  | cons he _ ih =>
    rw [Expr.sameList, Bool.and_eq_true] at hsame
    -- Lists are compared member by member, and each member gives an equation.
    obtain ⟨rfl, hbinds⟩ := he hsame.1
    obtain ⟨rfl, hrest⟩ := ih hsame.2
    exact ⟨rfl, List.forall_mem_cons.mpr ⟨hbinds, hrest⟩⟩

theorem untouched_fragments {fs fs' : List (Fragment Expr)}
    (h : List.Forall₂ (Fragment.Rel Untouched) fs fs')
    (hsame : Expr.sameFragments fs' fs = true) :
    fs' = fs ∧ ∀ e ∈ (Expr.declare fs).children,
      e.Everywhere fun x => x.bindsReceiver = false := by
  induction h with
  | nil => exact ⟨rfl, by simp [Expr.children]⟩
  | cons hf _ ih =>
    cases hf with
    | @mk binder i i' hi =>
      simp only [Expr.sameFragments, Bool.and_eq_true] at hsame
      obtain ⟨rfl, hbinds⟩ := untouched_option hi hsame.1.2
      obtain ⟨rfl, hrest⟩ := ih hsame.2
      refine ⟨rfl, ?_⟩
      cases i' with
      | none => exact hrest
      | some e => exact List.forall_mem_cons.mpr ⟨hbinds e (by simp), hrest⟩

/-- An update that does not become a sequence stands alone, and its target can be read
twice if it has to be. -/
theorem Guarded.alone {update : Expr → Expr} {target e : Expr}
    (h : Guarded unchanging T update target e) (hsingle : e.isSequence = false) :
    e = update target ∧
      (target.type.unboxed?.isSome = true → hasRepeatableReceiver target = true) := by
  cases h with
  -- Nothing is unboxed, so nothing is asked of the receiver.
  | unboxed hnone =>
    refine ⟨rfl, fun hsome => ?_⟩
    rw [hnone] at hsome
    cases hsome
  | unchanged hrepeatable _ _ => exact ⟨rfl, fun _ => hrepeatable⟩
  | checked _ _ _ | bound _ _ _ _ _ _ | boundChecked _ _ _ _ _ _ => cases hsingle

/-- What equals an update is no sequence. -/
theorem isSequence_of_beq {e e' : Expr} (h : (e' == e) = true) (he : e.isSequence = false) :
    e'.isSequence = false := by
  cases e' with
  | multi es' =>
    cases e with
    | multi es => cases he
    | _ => cases h
  | _ => rfl

/-- A binary operation is untouched if its operands are and it binds no receiver itself. The latter
may use that the left operand has stayed. -/
theorem untouched_binary {op : BinaryOp} {l l' r r' : Expr} {type : Ty} (hl : Untouched l l')
    (hr : Untouched r r')
    (hbinds : l' = l → (Expr.binary op l r type).bindsReceiver = false) :
    Untouched (.binary op l r type) (.binary op l' r' type) := by
  intro hsame
  have hparts : (op == op && l'.sameAs l && r'.sameAs r && type == type) = true := hsame
  simp only [Bool.and_eq_true] at hparts
  obtain ⟨hleft, hl⟩ := hl hparts.1.1.2
  obtain ⟨rfl, hr⟩ := hr hparts.1.2
  refine ⟨by rw [hleft], Expr.everywhere_iff.mpr ⟨hbinds hleft, ?_⟩⟩
  simpa [Expr.children] using ⟨hl, hr⟩

theorem untouched_unary {op : UnaryOp} {fixity : Fixity} {x x' : Expr} {type : Ty}
    (hx : Untouched x x')
    (hbinds : x' = x → (Expr.unary op fixity x type).bindsReceiver = false) :
    Untouched (.unary op fixity x type) (.unary op fixity x' type) := by
  intro hsame
  have hparts : (op == op && fixity == fixity && x'.sameAs x && type == type) = true := hsame
  simp only [Bool.and_eq_true] at hparts
  obtain ⟨hoperand, hx⟩ := hx hparts.1.2
  refine ⟨by rw [hoperand], Expr.everywhere_iff.mpr ⟨hbinds hoperand, ?_⟩⟩
  simpa [Expr.children] using hx

/-- Results that compare as equal to their input are the input, and no update in it had its receiver
bound. Sequences are left out: what moves up from an inner sequence would be compared with members
that it does not come from. -/
theorem untouched_congruence :
    ValueCongruence unchanging (fun e e' => e' = e) T (fun e => e.isSequence = false) Untouched
      Untouched := by
  constructor
  case wrap =>
    rintro e e₁ _ he rfl
    exact he
  -- Leaves are no updates and have no parts.
  case leaf =>
    intro e hleaf _ _
    refine ⟨rfl, Expr.everywhere_iff.mpr ⟨?_, ?_⟩⟩
    · cases e <;> first | rfl | cases hleaf
    · rw [Expr.children_of_isLeaf hleaf]
      simp
  case fieldAccess =>
    intro q q' f _ hq hsame
    have hparts : (Expr.sameOption q' q && f == f) = true := hsame
    rw [Bool.and_eq_true] at hparts
    obtain ⟨rfl, hbinds⟩ := untouched_option hq hparts.1
    exact ⟨rfl, Expr.everywhere_iff.mpr ⟨rfl, hbinds⟩⟩
  case call =>
    intro q q' target as as' _ hq has hsame
    have hparts : (Expr.sameOption q' q && target == target && Expr.sameList as' as) = true := hsame
    simp only [Bool.and_eq_true] at hparts
    obtain ⟨rfl, hbinds⟩ := untouched_option hq hparts.1.1
    obtain ⟨rfl, hbinds'⟩ := untouched_list has hparts.2
    exact ⟨rfl, Expr.everywhere_iff.mpr ⟨rfl, fun c hc =>
      (List.mem_append.mp hc).elim (hbinds c) (hbinds' c)⟩⟩
  case newInstance =>
    intro target as as' _ has hsame
    have hparts : (target == target && Expr.sameList as' as) = true := hsame
    rw [Bool.and_eq_true] at hparts
    obtain ⟨rfl, hbinds⟩ := untouched_list has hparts.2
    exact ⟨rfl, Expr.everywhere_iff.mpr ⟨rfl, hbinds⟩⟩
  case binary =>
    intro op l l' r r' type _ hop hl hr
    refine untouched_binary hl hr fun _ => ?_
    cases op with
    | assign | plusAssign | minusAssign => cases hop
    | _ => rfl
  case assign => exact fun _ hl hr => untouched_binary hl hr fun _ => rfl
  case compound =>
    -- A sequence would not equal the update, so the update stands alone.
    intro op l l₁ r r' e type _ hop _ hl hr hguarded hsame
    obtain ⟨rfl, hdirect⟩ := hguarded.alone (isSequence_of_beq hsame rfl)
    refine untouched_binary hl hr (fun hleft => ?_) hsame
    subst hleft
    rcases hop with rfl | rfl <;> exact (Expr.bindsReceiver_eq_false rfl).mpr hdirect
  case unary =>
    intro op fixity x x' type _ hop hx
    refine untouched_unary hx fun _ => ?_
    cases op with
    | increment | decrement => cases hop
    | _ => rfl
  -- As for compound assignments.
  case step =>
    intro op fixity x x₁ e type _ hop _ hx hguarded hsame
    obtain ⟨rfl, hdirect⟩ := hguarded.alone (isSequence_of_beq hsame rfl)
    refine untouched_unary hx (fun hoperand => ?_) hsame
    subst hoperand
    cases op with
    | increment | decrement => exact (Expr.bindsReceiver_eq_false rfl).mpr hdirect
    | _ => cases hop
  case cast =>
    intro type x x' _ hx hsame
    have hparts : (type == type && x'.sameAs x) = true := hsame
    rw [Bool.and_eq_true] at hparts
    obtain ⟨rfl, hbinds⟩ := hx hparts.2
    exact ⟨rfl, Expr.everywhere_iff.mpr ⟨rfl, by simpa [Expr.children] using hbinds⟩⟩
  case conditional =>
    intro type c c' a a' b b' _ hc ha hb hsame
    have hparts : (type == type && c'.sameAs c && a'.sameAs a && b'.sameAs b) = true := hsame
    simp only [Bool.and_eq_true] at hparts
    obtain ⟨rfl, hc⟩ := hc hparts.1.1.2
    obtain ⟨rfl, ha⟩ := ha hparts.1.2
    obtain ⟨rfl, hb⟩ := hb hparts.2
    exact ⟨rfl, Expr.everywhere_iff.mpr ⟨rfl, by simpa [Expr.children] using ⟨hc, ha, hb⟩⟩⟩
  case notNull =>
    intro x x' _ hx hsame
    obtain ⟨rfl, hbinds⟩ := hx hsame
    exact ⟨rfl, Expr.everywhere_iff.mpr ⟨rfl, by simpa [Expr.children] using hbinds⟩⟩
  case multi =>
    intro es es' he
    cases he.here
  case declare =>
    intro fs fs' _ hfs hsame
    obtain ⟨rfl, hbinds⟩ := untouched_fragments hfs hsame
    exact ⟨rfl, Expr.everywhere_iff.mpr ⟨rfl, hbinds⟩⟩

/-- Where the value stays, so does the expression that the traversal has made. -/
theorem converted_of_any {e e' : Expr} (h : (unitSteps unchanging T).Any e e') :
    Converted unchanging T e e' := by
  have hslot : ∀ {inferred declared : Ty}, (∃ e₁, Converted unchanging T e e₁ ∧
      unchanging.SlotValue inferred declared e₁ e') → Converted unchanging T e e' := by
    rintro inferred declared ⟨e₁, he, hvalue⟩
    rw [unchanging_within.of_slot hvalue]
    exact he
  -- The roles differ in the slot that a value flows into, which is of no interest here.
  rcases h with ⟨f, hinitializer⟩ | ⟨d, hplain | hresult | hcondition | hthrown | hmessage⟩
  · exact hslot hinitializer
  · exact hplain
  · exact hslot hresult
  · exact hslot hcondition
  · obtain ⟨e₁, he, hvalue⟩ := hthrown
    rw [unchanging_within.of_required hvalue]
    exact he
  · exact hmessage

end

/-- Let a handler leave all values as they are. The traversal gives a unit back, which
has no sequences and no literals that are not a number, exactly if the unit has no
update whose receiver must be bound to a temporary. In all other cases the result
differs from the unit. -/
theorem unit_unchanged_iff (h : Handler (StateM σ)) (hsame : Answers h unchanging)
    (u : CompilationUnit) (supply : Supply) (s : σ)
    (hsingle : u.Everywhere fun e => e.isSequence = false)
    (hnumber : u.Everywhere fun e => e.isNaNLiteral = false) :
    (((conversion h).unit u { supply } s).1.1 = u ↔
        u.Everywhere fun e => e.bindsReceiver = false) ∧
      ((((conversion h).unit u { supply } s).1.1 == u) = true ↔
        u.Everywhere fun e => e.bindsReceiver = false) := by
  -- From the run, hook by hook.
  have hkept : (u.Everywhere fun e => e.bindsReceiver = false) →
      ((conversion h).unit u { supply } s).1.1 = u := by
    intro hdirect
    refine (unit_gives hsame (fun e he x hx => ⟨?_, ?_, ?_⟩) { supply } s).symm
    · exact hsingle e he x hx
    · exact hnumber e he x hx
    · exact hdirect e he x hx
  -- From the relation between the unit and its result.
  have hequal : (((conversion h).unit u { supply } s).1.1 == u) = true →
      u.Everywhere fun e => e.bindsReceiver = false := by
    intro hresult e he
    -- Every expression stands beside its result, and the two are equal.
    have hrelated := (unit_converted hsame u { supply } rfl s).2 _ fun _ hid => hid
    have hpairs := List.Forall₂.mp (fun _ _ hany hbeq => And.intro hany hbeq)
      (List.Forall₂.flip hrelated.expressions) (CompilationUnit.expressions_of_beq hresult)
    obtain ⟨e', _, hany, hbeq⟩ := exists_of_mem_forall₂ hpairs he
    exact ((untouched_congruence.congruence unchanging_within).holds (converted_of_any hany)
      (hsingle e he) hbeq).2
  refine ⟨⟨fun hresult => hequal ?_, hkept⟩, hequal, fun hdirect => ?_⟩
  · rw [hresult]
    exact CompilationUnit.beq_self hnumber
  · rw [hkept hdirect]
    exact CompilationUnit.beq_self hnumber

/-! ## A run -/

/-- A handler that counts the values it is asked about and leaves them as they are. -/
def counting : Handler (StateM Nat) where
  onSlot _ _ e _ := modifyGet fun n => (e, n + 1)
  onNonNull _ _ e _ := modifyGet fun n => (e, n + 1)

theorem counting_answers : Answers counting unchanging :=
  ⟨fun _ _ _ _ _ => rfl, fun _ _ _ _ _ => rfl⟩

def holder : Variable :=
  { id := { serial := 0 }, name := "holder", type := .classNamed "t.Holder", isParameter := true }

/-- `holder.next()` -/
def nextHolder : Expr :=
  .call (some (.varRef holder))
    { enclosing := { qualifiedName := "t.Holder" }, name := "next"
      returnType := .classNamed "t.Holder" } []

/-- A unit with the update `e.count++`. -/
def countUpUnit (e : Expr) : CompilationUnit := unitOf [holder] [.expression (countUp e) {}]

/-- The field of a variable is updated in place. -/
theorem countUp_variable_unchanged :
    ((conversion counting).unit (countUpUnit (.varRef holder))
      { supply := { origin := 1 } } 0).1.1 = countUpUnit (.varRef holder) := by
  have hsingle : (countUpUnit (.varRef holder)).Everywhere fun e => e.isSequence = false := by
    decide
  have hnumber : (countUpUnit (.varRef holder)).Everywhere fun e => e.isNaNLiteral = false := by
    decide
  exact (unit_unchanged_iff counting counting_answers _ { origin := 1 } 0 hsingle hnumber).1.mpr
    (by decide)

/-- The result of a call is bound to a temporary, although nothing is changed. -/
theorem countUp_call_changed :
    Answers counting unchanging ∧
      ((countUpUnit nextHolder).Everywhere fun e => e.isSequence = false) ∧
      ((countUpUnit nextHolder).Everywhere fun e => e.isNaNLiteral = false) ∧
      (((conversion counting).unit (countUpUnit nextHolder) { supply := { origin := 1 } } 0).1.1 ==
        countUpUnit nextHolder) = false :=
  ⟨counting_answers, by decide, by decide, by decide⟩

end Conversion

end Lowering
