import Lowering.Proofs.Tree.Correspondence

/-!
# What a transformation does along the way

`Correspondence` relates the output of a transformation to its input. This module
is about the run itself: which events the hooks cause, in which order, and at
which place. A tree says by its shape alone in which order a bottom-up traversal
reaches its nodes; `Expr.trace` and `Stmt.trace` put the events of the single
nodes together in that order.

Computations are judged by a `TraceLogic`: any notion of "from place `k` on, this
computation causes the events `g k`, and its result satisfies `Q`" that is closed
under `pure` and `bind`.

Main statements: `Transform.expr_traces` and `Transform.stmt_traces`. If every
hook, given parts that are related to those of the input, causes the events of
its node, then the traversal causes the trace of the tree.
-/

namespace Lowering

/-! ## Judging computations -/

/-- A notion of "this computation causes the events `g k` at the place `k`, and
every result satisfies `Q`". -/
structure TraceLogic (m : Type → Type) [Monad m] (κ ε : Type) where
  Holds : {α : Type} → (κ → List ε) → m α → (α → Prop) → Prop
  pure : ∀ {α : Type} {a : α} {Q : α → Prop}, Q a → Holds (fun _ => []) (Pure.pure a) Q
  bind : ∀ {α β : Type} {g g' : κ → List ε} {x : m α} {f : α → m β} {Q : α → Prop} {Q' : β → Prop},
    Holds g x Q → (∀ a, Q a → Holds g' (f a) Q') → Holds (fun k => g k ++ g' k) (x >>= f) Q'

namespace TraceLogic

variable {m : Type → Type} [Monad m] {κ ε : Type} (L : TraceLogic m κ ε)

/-- Events may be written in another way, as long as they are the same at every place. -/
theorem of_eq {α : Type} {g g' : κ → List ε} {x : m α} {Q : α → Prop} (h : L.Holds g x Q)
    (heq : ∀ k, g' k = g k) : L.Holds g' x Q := by
  obtain rfl : g' = g := funext heq
  exact h

/-- A last step that only packs the result. -/
theorem map {α β : Type} {g : κ → List ε} {x : m α} {f : α → β} {Q : α → Prop} {Q' : β → Prop}
    (h : L.Holds g x Q) (hf : ∀ a, Q a → Q' (f a)) :
    L.Holds g (x >>= fun a => Pure.pure (f a)) Q' :=
  -- The packing step adds no events, but `bind` writes them.
  L.of_eq (L.bind h fun a ha => L.pure (hf a ha)) fun k => (List.append_nil (g k)).symm

/-- Members are traversed one after the other, at one place. -/
theorem mapM [LawfulMonad m] {α β : Type} {g : α → κ → List ε} {f : α → m β} {R : α → β → Prop}
    {as : List α} (h : ∀ a ∈ as, L.Holds (g a) (f a) (R a)) :
    L.Holds (fun k => as.flatMap (g · k)) (as.mapM f) (List.Forall₂ R as) := by
  induction as with
  | nil =>
    rw [List.mapM_nil]
    exact L.pure .nil
  | cons a as ih =>
    rw [List.mapM_cons]
    refine L.bind (h a List.mem_cons_self) fun b hb => ?_
    exact L.map (ih fun a' ha' => h a' (List.mem_cons_of_mem _ ha')) fun bs hbs => .cons hb hbs

/-- Where there are no events, it does not matter how they are written. -/
theorem of_silent {L : TraceLogic m κ Empty} {α : Type} {g g' : κ → List Empty} {x : m α}
    {Q : α → Prop} (h : L.Holds g x Q) : L.Holds g' x Q := by
  -- There are no events to put in a list.
  have hnil : ∀ l : List Empty, l = [] := by
    intro l
    cases l with
    | nil => rfl
    | cons a _ => exact a.elim
  exact L.of_eq h fun k => (hnil (g' k)).trans (hnil (g k)).symm

end TraceLogic

/-! ## Traces of trees -/

section

variable {κ ε : Type}

mutual

/-- The events of an expression: those of its parts in source order, then its own. -/
def Expr.trace (own : Expr → κ → List ε) : Expr → κ → List ε
  | .nullLiteral t, k => own (.nullLiteral t) k
  | .boolLiteral b t, k => own (.boolLiteral b t) k
  | .numberLiteral n t, k => own (.numberLiteral n t) k
  | .stringLiteral s t, k => own (.stringLiteral s t) k
  | .thisRef t, k => own (.thisRef t) k
  | .varRef v, k => own (.varRef v) k
  | .fieldAccess q f, k => traceOption own q k ++ own (.fieldAccess q f) k
  | .call q m as, k => traceOption own q k ++ (traceList own as k ++ own (.call q m as) k)
  | .newInstance m as, k => traceList own as k ++ own (.newInstance m as) k
  | .binary op l r t, k => l.trace own k ++ (r.trace own k ++ own (.binary op l r t) k)
  | .unary op x e t, k => e.trace own k ++ own (.unary op x e t) k
  | .cast t e, k => e.trace own k ++ own (.cast t e) k
  | .conditional t c a b, k =>
    c.trace own k ++ (a.trace own k ++ (b.trace own k ++ own (.conditional t c a b) k))
  | .notNull e, k => e.trace own k ++ own (.notNull e) k
  | .multi es, k => traceList own es k ++ own (.multi es) k
  | .declare fs, k => traceFragments own fs k ++ own (.declare fs) k
termination_by structural e => e

def Expr.traceOption (own : Expr → κ → List ε) : Option Expr → κ → List ε
  | none, _ => []
  | some e, k => e.trace own k
termination_by structural e => e

def Expr.traceList (own : Expr → κ → List ε) : List Expr → κ → List ε
  | [], _ => []
  | e :: es, k => e.trace own k ++ traceList own es k
termination_by structural es => es

def Expr.traceFragments (own : Expr → κ → List ε) : List (Fragment Expr) → κ → List ε
  | [], _ => []
  | ⟨_, e⟩ :: fs, k => traceOption own e k ++ traceFragments own fs k
termination_by structural fs => fs

end

/-- How the events of a statement come about: those of an expression in it, those
of the statement itself, and the place that it makes of the place around it. -/
structure StmtEvents (κ ε : Type) where
  expr : Expr → κ → List ε
  own : Stmt → κ → List ε
  inside : Stmt → κ → κ

/-- Nothing happens: the traversal is judged by its result alone. -/
def StmtEvents.silent : StmtEvents Unit Empty where
  expr e := e.trace fun _ _ => []
  own _ _ := []
  inside _ k := k

mutual

/-- The events of a statement, at the place inside it: those of its expressions,
then those of the statements in it, then its own. -/
def Stmt.trace (E : StmtEvents κ ε) : Stmt → κ → List ε
  | .expression e span, k =>
    let s := .expression e span
    E.expr e (E.inside s k) ++ E.own s (E.inside s k)
  | .block ss span, k =>
    let s := .block ss span
    traceStmts E ss (E.inside s k) ++ E.own s (E.inside s k)
  | .returnValue v span, k =>
    let s := .returnValue v span
    v.toList.flatMap (E.expr · (E.inside s k)) ++ E.own s (E.inside s k)
  | .conditional c a b span, k =>
    let s := .conditional c a b span
    E.expr c (E.inside s k) ++ (a.trace E (E.inside s k) ++
      (traceOptionStmt E b (E.inside s k) ++ E.own s (E.inside s k)))
  | .whileLoop c b span, k =>
    let s := .whileLoop c b span
    E.expr c (E.inside s k) ++ (b.trace E (E.inside s k) ++ E.own s (E.inside s k))
  | .forLoop i c u b span, k =>
    let s := .forLoop i c u b span
    i.flatMap (E.expr · (E.inside s k)) ++ (c.toList.flatMap (E.expr · (E.inside s k)) ++
      (u.flatMap (E.expr · (E.inside s k)) ++ (b.trace E (E.inside s k) ++ E.own s (E.inside s k))))
  | .assertion c m span, k =>
    let s := .assertion c m span
    E.expr c (E.inside s k) ++ (m.toList.flatMap (E.expr · (E.inside s k)) ++
      E.own s (E.inside s k))
  | .throwValue v span, k =>
    let s := .throwValue v span
    E.expr v (E.inside s k) ++ E.own s (E.inside s k)
termination_by structural s => s

def Stmt.traceOptionStmt (E : StmtEvents κ ε) : Option Stmt → κ → List ε
  | none, _ => []
  | some s, k => s.trace E k
termination_by structural s => s

def Stmt.traceStmts (E : StmtEvents κ ε) : List Stmt → κ → List ε
  | [], _ => []
  | s :: ss, k => s.trace E k ++ traceStmts E ss k
termination_by structural ss => ss

end

/-! ## Which node an event comes from -/

namespace Expr

variable {own : Expr → κ → List ε} {k : κ} {x : ε}

/-- The helpers of the mutual recursion are plain list operations. -/
theorem traceOption_eq_flatMap (q : Option Expr) :
    traceOption own q k = q.toList.flatMap (·.trace own k) := by
  cases q <;> simp [traceOption]

theorem traceList_eq_flatMap (es : List Expr) :
    traceList own es k = es.flatMap (·.trace own k) := by
  induction es with
  | nil => rfl
  | cons e es ih => rw [traceList, List.flatMap_cons, ih]

theorem traceFragments_eq_flatMap (fs : List (Fragment Expr)) :
    traceFragments own fs k = (fs.filterMap (·.initializer)).flatMap (·.trace own k) := by
  induction fs with
  | nil => rfl
  | cons f fs ih =>
    obtain ⟨binder, i⟩ := f
    rw [traceFragments, ih, traceOption_eq_flatMap]
    cases i <;> simp

/-- An event of an expression is one of a child or its own. Where it stands in the trace is left
open. -/
theorem mem_trace {e : Expr} :
    x ∈ e.trace own k ↔ (∃ c ∈ e.children, x ∈ c.trace own k) ∨ x ∈ own e k := by
  cases e <;> simp [trace, children, traceOption_eq_flatMap, traceList_eq_flatMap,
    traceFragments_eq_flatMap, or_assoc, or_and_right, exists_or]

/-- Every event is one of a node's own, at the place of the whole expression. -/
theorem exists_of_mem_trace {e : Expr} (h : x ∈ e.trace own k) : ∃ e', x ∈ own e' k := by
  induction e using childInduction with
  | step e ih =>
    rcases mem_trace.mp h with ⟨c, hc, hx⟩ | hx
    -- The place is the same for all parts of an expression, so it needs no generalization.
    · exact ih c hc hx
    · exact ⟨e, hx⟩

end Expr

namespace Stmt

variable {E : StmtEvents κ ε} {k : κ} {x : ε}

/-- The events of a statement without those of the statements in it, at the place
inside it. -/
def directTrace (E : StmtEvents κ ε) (s : Stmt) (k : κ) : List ε :=
  s.expressions.flatMap (E.expr · k) ++ E.own s k

theorem traceOptionStmt_eq_flatMap (s : Option Stmt) :
    traceOptionStmt E s k = s.toList.flatMap (·.trace E k) := by
  cases s <;> simp [traceOptionStmt]

theorem traceStmts_eq_flatMap (ss : List Stmt) :
    traceStmts E ss k = ss.flatMap (·.trace E k) := by
  induction ss with
  | nil => rfl
  | cons s ss ih => rw [traceStmts, List.flatMap_cons, ih]

theorem mem_trace {s : Stmt} :
    x ∈ s.trace E k ↔ (∃ c ∈ s.children, x ∈ c.trace E (E.inside s k)) ∨
      x ∈ s.directTrace E (E.inside s k) := by
  cases s <;> simp [trace, children, directTrace, expressions, traceOptionStmt_eq_flatMap,
    traceStmts_eq_flatMap, or_assoc, or_left_comm, or_and_right, exists_or]

/-- If the place inside a statement does not depend on the statements around it,
every event comes directly from the statement with its place. -/
theorem exists_of_mem_trace (hinside : ∀ s t k, E.inside t (E.inside s k) = E.inside t k)
    {s : Stmt} (h : x ∈ s.trace E k) :
    ∃ t ∈ s.substatements, x ∈ t.directTrace E (E.inside t k) := by
  induction s using childInduction generalizing k with
  | step s ih =>
    rw [substatements_eq]
    rcases mem_trace.mp h with ⟨c, hc, hx⟩ | hx
    · obtain ⟨t, ht, hx⟩ := ih c hc hx
      rw [hinside] at hx
      exact ⟨t, List.mem_cons_of_mem _ (List.mem_flatMap.mpr ⟨c, hc, ht⟩), hx⟩
    · exact ⟨s, List.mem_cons_self, hx⟩

end Stmt

end

/-! ## Expressions -/

namespace Transform

variable {m : Type → Type} [Monad m] {κ ε : Type}

/-- Every expression hook causes the events of its node: given parts that are
related to those of a node with `H` at every depth, it returns something related
to the node. -/
structure TracesExpr (L : TraceLogic m κ ε) (t : Transform m) (H : Expr → Prop)
    (R : Expr → Expr → Prop) (own : Expr → κ → List ε) : Prop where
  nullLiteral (type : Ty) :
    L.Holds (own (.nullLiteral type)) (t.onNullLiteral type) (R (.nullLiteral type))
  boolLiteral (value : Bool) (type : Ty) :
    L.Holds (own (.boolLiteral value type)) (t.onBoolLiteral value type)
      (R (.boolLiteral value type))
  numberLiteral (value : NumberValue) (type : Ty) :
    L.Holds (own (.numberLiteral value type)) (t.onNumberLiteral value type)
      (R (.numberLiteral value type))
  stringLiteral (value : String) (type : Ty) :
    L.Holds (own (.stringLiteral value type)) (t.onStringLiteral value type)
      (R (.stringLiteral value type))
  thisRef (type : Ty) : L.Holds (own (.thisRef type)) (t.onThis type) (R (.thisRef type))
  varRef (v : Variable) : L.Holds (own (.varRef v)) (t.onVarRef v) (R (.varRef v))
  fieldAccess {q q' : Option Expr} {f : FieldRef} : (Expr.fieldAccess q f).Everywhere H →
    Option.Rel R q q' →
    L.Holds (own (.fieldAccess q f)) (t.onFieldAccess q' f) (R (.fieldAccess q f))
  call {q q' : Option Expr} {target : MethodRef} {as as' : List Expr} :
    (Expr.call q target as).Everywhere H → Option.Rel R q q' → List.Forall₂ R as as' →
    L.Holds (own (.call q target as)) (t.onCall q' target as') (R (.call q target as))
  newInstance {target : MethodRef} {as as' : List Expr} :
    (Expr.newInstance target as).Everywhere H → List.Forall₂ R as as' →
    L.Holds (own (.newInstance target as)) (t.onNewInstance target as') (R (.newInstance target as))
  binary {op : BinaryOp} {l l' r r' : Expr} {type : Ty} :
    (Expr.binary op l r type).Everywhere H → R l l' → R r r' →
    L.Holds (own (.binary op l r type)) (t.onBinary op l' r' type) (R (.binary op l r type))
  unary {op : UnaryOp} {fixity : Fixity} {x x' : Expr} {type : Ty} :
    (Expr.unary op fixity x type).Everywhere H → R x x' →
    L.Holds (own (.unary op fixity x type)) (t.onUnary op fixity x' type)
      (R (.unary op fixity x type))
  cast {type : Ty} {x x' : Expr} : (Expr.cast type x).Everywhere H → R x x' →
    L.Holds (own (.cast type x)) (t.onCast type x') (R (.cast type x))
  conditional {type : Ty} {c c' a a' b b' : Expr} :
    (Expr.conditional type c a b).Everywhere H → R c c' → R a a' → R b b' →
    L.Holds (own (.conditional type c a b)) (t.onConditional type c' a' b')
      (R (.conditional type c a b))
  notNull {x x' : Expr} : (Expr.notNull x).Everywhere H → R x x' →
    L.Holds (own (.notNull x)) (t.onNotNull x') (R (.notNull x))
  multi {es es' : List Expr} : (Expr.multi es).Everywhere H → List.Forall₂ R es es' →
    L.Holds (own (.multi es)) (t.onMulti es') (R (.multi es))
  declare {fs fs' : List (Fragment Expr)} : (Expr.declare fs).Everywhere H →
    List.Forall₂ (Fragment.Rel R) fs fs' →
    L.Holds (own (.declare fs)) (t.onDeclare fs') (R (.declare fs))

section Expressions

variable {L : TraceLogic m κ ε} {t : Transform m} {H : Expr → Prop} {R : Expr → Expr → Prop}
  {own : Expr → κ → List ε}

mutual

/-- If every hook causes the events of its node, the traversal of an expression causes its trace.
The recursion is that of the traversal, and `H` passes from an expression to its children. -/
theorem expr_traces (h : TracesExpr L t H R own) :
    ∀ e : Expr, e.Everywhere H → L.Holds (e.trace own) (t.expr e) (R e)
  | .nullLiteral type, _ => h.nullLiteral type
  | .boolLiteral value type, _ => h.boolLiteral value type
  | .numberLiteral value type, _ => h.numberLiteral value type
  | .stringLiteral value type, _ => h.stringLiteral value type
  | .thisRef type, _ => h.thisRef type
  | .varRef v, _ => h.varRef v
  -- The hook is judged by the node of the input, but it is given the new parts.
  | .fieldAccess q _, he =>
    L.bind (optionalExpr_traces h q fun _ hc => he.child hc) fun _ => h.fieldAccess he
  -- Children of a call are its receiver and its arguments, in one list.
  | .call q _ as, he =>
    L.bind (optionalExpr_traces h q fun _ hc => he.child (List.mem_append_left _ hc)) fun _ hq =>
      L.bind (exprs_traces h as fun _ hc => he.child (List.mem_append_right _ hc)) fun _ =>
        h.call he hq
  | .newInstance _ as, he =>
    L.bind (exprs_traces h as fun _ hc => he.child hc) fun _ => h.newInstance he
  | .binary _ l r _, he =>
    L.bind (expr_traces h l (he.child (by simp [Expr.children]))) fun _ hl =>
      L.bind (expr_traces h r (he.child (by simp [Expr.children]))) fun _ => h.binary he hl
  | .unary _ _ x _, he =>
    L.bind (expr_traces h x (he.child (by simp [Expr.children]))) fun _ => h.unary he
  | .cast _ x, he =>
    L.bind (expr_traces h x (he.child (by simp [Expr.children]))) fun _ => h.cast he
  | .conditional _ c a b, he =>
    L.bind (expr_traces h c (he.child (by simp [Expr.children]))) fun _ hc =>
      L.bind (expr_traces h a (he.child (by simp [Expr.children]))) fun _ ha =>
        L.bind (expr_traces h b (he.child (by simp [Expr.children]))) fun _ =>
          h.conditional he hc ha
  | .notNull x, he =>
    L.bind (expr_traces h x (he.child (by simp [Expr.children]))) fun _ => h.notNull he
  | .multi es, he => L.bind (exprs_traces h es fun _ hc => he.child hc) fun _ => h.multi he
  | .declare fs, he =>
    L.bind (fragments_traces h fs fun _ hc => he.child hc) fun _ => h.declare he
termination_by structural e => e

theorem optionalExpr_traces (h : TracesExpr L t H R own) :
    ∀ q : Option Expr, (∀ e ∈ q.toList, e.Everywhere H) →
      L.Holds (Expr.traceOption own q) (t.optionalExpr q) (Option.Rel R q)
  | none, _ => L.pure .none
  | some e, hq => L.map (expr_traces h e (hq e (by simp))) fun _ he => .some he
termination_by structural q => q

theorem exprs_traces (h : TracesExpr L t H R own) :
    ∀ es : List Expr, (∀ e ∈ es, e.Everywhere H) →
      L.Holds (Expr.traceList own es) (t.exprs es) (List.Forall₂ R es)
  | [], _ => L.pure .nil
  | e :: es, hes =>
    L.bind (expr_traces h e (hes e List.mem_cons_self)) fun _ he =>
      L.map (exprs_traces h es fun x hx => hes x (List.mem_cons_of_mem _ hx)) fun _ hes =>
        .cons he hes
termination_by structural es => es

/-- Initializers are the children of a declaration; its binders stay. -/
theorem fragments_traces (h : TracesExpr L t H R own) :
    ∀ fs : List (Fragment Expr), (∀ e ∈ fs.filterMap (·.initializer), e.Everywhere H) →
      L.Holds (Expr.traceFragments own fs) (t.fragments fs) (List.Forall₂ (Fragment.Rel R) fs)
  | [], _ => L.pure .nil
  | ⟨_, i⟩ :: fs, hfs =>
    L.bind (optionalExpr_traces h i fun x hx => hfs x
      (List.mem_filterMap.mpr ⟨_, List.mem_cons_self, Option.mem_toList.mp hx⟩)) fun _ hi =>
      L.map (fragments_traces h fs fun x hx => hfs x
        (let ⟨f, hf, hx⟩ := List.mem_filterMap.mp hx
        List.mem_filterMap.mpr ⟨f, List.mem_cons_of_mem _ hf, hx⟩)) fun _ hfs => .cons (.mk hi) hfs
termination_by structural fs => fs

end

end Expressions

/-! ## Statements -/

/-- Every statement hook causes the events of its statement: given parts that are
related to those of a statement with `H`, it returns something related to the
statement. The enter and exit hooks lead to the place inside and back. -/
structure TracesStmt (L : TraceLogic m κ ε) (t : Transform m) (H : Stmt → Prop)
    (R : Expr → Expr → Prop) (S : Stmt → Stmt → Prop) (E : StmtEvents κ ε) : Prop where
  bracketed {s : Stmt} {inner : m Stmt} {g : κ → List ε} {Q : Stmt → Prop} :
    L.Holds g inner Q → L.Holds (fun k => g (E.inside s k)) (t.bracketed s inner) Q
  expr {s : Stmt} {e : Expr} : H s → e ∈ s.expressions → L.Holds (E.expr e) (t.expr e) (R e)
  expression {e e' : Expr} {span : Span} : H (.expression e span) → R e e' →
    L.Holds (E.own (.expression e span)) (t.onExpressionStmt e' span) (S (.expression e span))
  block {ss ss' : List Stmt} {span : Span} : H (.block ss span) → List.Forall₂ S ss ss' →
    L.Holds (E.own (.block ss span)) (t.onBlock { statements := ss', span })
      fun b => S (.block ss span) (.block b.statements b.span)
  returnValue {v v' : Option Expr} {span : Span} : H (.returnValue v span) → Option.Rel R v v' →
    L.Holds (E.own (.returnValue v span)) (t.onReturn v' span) (S (.returnValue v span))
  conditional {c c' : Expr} {a a' : Stmt} {b b' : Option Stmt} {span : Span} :
    H (.conditional c a b span) → R c c' → S a a' → Option.Rel S b b' →
    L.Holds (E.own (.conditional c a b span)) (t.onIf c' a' b' span) (S (.conditional c a b span))
  whileLoop {c c' : Expr} {b b' : Stmt} {span : Span} : H (.whileLoop c b span) → R c c' →
    S b b' → L.Holds (E.own (.whileLoop c b span)) (t.onWhile c' b' span) (S (.whileLoop c b span))
  forLoop {i i' : List Expr} {c c' : Option Expr} {u u' : List Expr} {b b' : Stmt} {span : Span} :
    H (.forLoop i c u b span) → List.Forall₂ R i i' → Option.Rel R c c' → List.Forall₂ R u u' →
    S b b' → L.Holds (E.own (.forLoop i c u b span)) (t.onFor i' c' u' b' span)
      (S (.forLoop i c u b span))
  assertion {c c' : Expr} {message message' : Option Expr} {span : Span} :
    H (.assertion c message span) → R c c' → Option.Rel R message message' →
    L.Holds (E.own (.assertion c message span)) (t.onAssert c' message' span)
      (S (.assertion c message span))
  throwValue {v v' : Expr} {span : Span} : H (.throwValue v span) → R v v' →
    L.Holds (E.own (.throwValue v span)) (t.onThrow v' span) (S (.throwValue v span))

section Statements

variable {L : TraceLogic m κ ε} {t : Transform m} {H : Stmt → Prop} {R : Expr → Expr → Prop}
  {S : Stmt → Stmt → Prop} {E : StmtEvents κ ε}

/-- Expressions that a statement holds directly. Unlike in the traversal of expressions, their
events come from `E.expr` and need not be a trace. -/
theorem exprs_of_forall {g : Expr → κ → List ε} {es : List Expr}
    (h : ∀ e ∈ es, L.Holds (g e) (t.expr e) (R e)) :
    L.Holds (fun k => es.flatMap (g · k)) (t.exprs es) (List.Forall₂ R es) := by
  induction es with
  | nil => exact L.pure .nil
  | cons e es ih =>
    refine L.bind (h e List.mem_cons_self) fun _ he => ?_
    exact L.map (ih fun x hx => h x (List.mem_cons_of_mem _ hx)) fun _ hes => .cons he hes

theorem optionalExpr_of_forall {g : Expr → κ → List ε} {q : Option Expr}
    (h : ∀ e ∈ q.toList, L.Holds (g e) (t.expr e) (R e)) :
    L.Holds (fun k => q.toList.flatMap (g · k)) (t.optionalExpr q) (Option.Rel R q) := by
  cases q with
  | none => exact L.pure .none
  | some e =>
    refine L.of_eq (L.map (h e (by simp)) fun _ he => .some he) fun k => ?_
    simp

mutual

/-- If every statement hook causes the events of its statement, the traversal of a statement causes
its trace, at the place that each statement makes for its inside. -/
theorem stmt_traces (h : TracesStmt L t H R S E) :
    ∀ s : Stmt, (∀ s' ∈ s.substatements, H s') → L.Holds (s.trace E) (t.stmt s) (S s)
  | .expression e span, hs =>
    have hthis := hs (.expression e span) List.mem_cons_self
    h.bracketed (L.bind (h.expr hthis List.mem_cons_self) fun _ => h.expression hthis)
  -- The hook for blocks returns a block, from which the traversal makes a statement again.
  | .block ss span, hs =>
    have hthis := hs (.block ss span) List.mem_cons_self
    h.bracketed (L.bind (stmts_traces h ss fun s' hs' => hs s' (List.mem_cons_of_mem _ hs'))
      fun _ hss => L.map (h.block hthis hss) fun _ hb => hb)
  | .returnValue v span, hs =>
    have hthis := hs (.returnValue v span) List.mem_cons_self
    h.bracketed (L.bind (optionalExpr_of_forall fun _ he => h.expr hthis he) fun _ =>
      h.returnValue hthis)
  | .conditional c a b span, hs =>
    have hthis := hs (.conditional c a b span) List.mem_cons_self
    h.bracketed (L.bind (h.expr hthis List.mem_cons_self) fun _ hc =>
      L.bind (stmt_traces h a fun s' hs' =>
        hs s' (List.mem_cons_of_mem _ (List.mem_append_left _ hs'))) fun _ ha =>
        L.bind (optionalStmt_traces h b fun s' hs' =>
          hs s' (List.mem_cons_of_mem _ (List.mem_append_right _ hs'))) fun _ =>
          h.conditional hthis hc ha)
  | .whileLoop c b span, hs =>
    have hthis := hs (.whileLoop c b span) List.mem_cons_self
    h.bracketed (L.bind (h.expr hthis List.mem_cons_self) fun _ hc =>
      L.bind (stmt_traces h b fun s' hs' => hs s' (List.mem_cons_of_mem _ hs')) fun _ =>
        h.whileLoop hthis hc)
  -- `Stmt.expressions` lists the three places of a loop as one, which is where the appends come
  -- from.
  | .forLoop i c u b span, hs =>
    have hthis := hs (.forLoop i c u b span) List.mem_cons_self
    h.bracketed (L.bind (exprs_of_forall fun _ he => h.expr hthis
      (List.mem_append_left _ (List.mem_append_left _ he))) fun _ hi =>
      L.bind (optionalExpr_of_forall fun _ he => h.expr hthis
        (List.mem_append_left _ (List.mem_append_right _ he))) fun _ hc =>
        L.bind (exprs_of_forall fun _ he => h.expr hthis (List.mem_append_right _ he)) fun _ hu =>
          L.bind (stmt_traces h b fun s' hs' => hs s' (List.mem_cons_of_mem _ hs')) fun _ =>
            h.forLoop hthis hi hc hu)
  | .assertion c message span, hs =>
    have hthis := hs (.assertion c message span) List.mem_cons_self
    h.bracketed (L.bind (h.expr hthis List.mem_cons_self) fun _ hc =>
      L.bind (optionalExpr_of_forall fun _ he => h.expr hthis (List.mem_cons_of_mem _ he)) fun _ =>
        h.assertion hthis hc)
  | .throwValue v span, hs =>
    have hthis := hs (.throwValue v span) List.mem_cons_self
    h.bracketed (L.bind (h.expr hthis List.mem_cons_self) fun _ => h.throwValue hthis)
termination_by structural s => s

theorem optionalStmt_traces (h : TracesStmt L t H R S E) :
    ∀ s : Option Stmt, (∀ s' ∈ Stmt.substatementsOption s, H s') →
      L.Holds (Stmt.traceOptionStmt E s) (t.optionalStmt s) (Option.Rel S s)
  | none, _ => L.pure .none
  | some s, hs => L.map (stmt_traces h s hs) fun _ hs => .some hs
termination_by structural s => s

theorem stmts_traces (h : TracesStmt L t H R S E) :
    ∀ ss : List Stmt, (∀ s' ∈ Stmt.substatementsList ss, H s') →
      L.Holds (Stmt.traceStmts E ss) (t.stmts ss) (List.Forall₂ S ss)
  | [], _ => L.pure .nil
  | s :: ss, hss =>
    L.bind (stmt_traces h s fun s' hs' => hss s' (List.mem_append_left _ hs')) fun _ hs =>
      L.map (stmts_traces h ss fun s' hs' => hss s' (List.mem_append_right _ hs')) fun _ hss =>
        .cons hs hss
termination_by structural ss => ss

end

end Statements

/-! ## Declarations -/

/-- A body is kept if its statements are kept and the hook for blocks returns its argument. -/
theorem optionalBlock_keeps {L : TraceLogic m κ Empty} {t : Transform m} {b : Option Block}
    (honBlock : ∀ b, L.Holds (fun _ => []) (t.onBlock b) (Eq b))
    (hstatements : ∀ b' ∈ b, L.Holds (fun _ => []) (t.stmts b'.statements)
      (List.Forall₂ Eq b'.statements)) :
    L.Holds (fun _ => []) (t.optionalBlock b) (Eq b) := by
  cases b with
  | none => exact L.pure rfl
  | some b =>
    -- The hook is given the new statements, but they are the old ones.
    have hblock : ∀ ss, List.Forall₂ Eq b.statements ss →
        L.Holds (fun _ => []) (t.onBlock { b with statements := ss }) (Eq b) := by
      intro ss hss
      rw [← eq_of_forall₂ hss]
      exact honBlock b
    exact TraceLogic.of_silent (L.map (L.bind (hstatements b rfl) hblock) fun _ hb =>
      congrArg some hb)

/-- If a transformation keeps the members of a unit and does nothing about its
types, it keeps the unit. -/
theorem unit_keeps [LawfulMonad m] {L : TraceLogic m κ Empty} {t : Transform m}
    {u : CompilationUnit}
    (henter : ∀ d, L.Holds (fun _ => []) (t.enterType d) fun _ => True)
    (hexit : ∀ d, L.Holds (fun _ => []) (t.exitType d) fun _ => True)
    (honType : ∀ d, L.Holds (fun _ => []) (t.onType d) (Eq d))
    (honUnit : ∀ u, L.Holds (fun _ => []) (t.onUnit u) (Eq u))
    (hfield : ∀ f ∈ u.fields, L.Holds (fun _ => []) (t.field f) (Eq f))
    (hmethod : ∀ d ∈ u.methods, L.Holds (fun _ => []) (t.method d) (Eq d)) :
    L.Holds (fun _ => []) (t.unit u) (Eq u) := by
  have htype : ∀ d ∈ u.types, L.Holds (fun _ => []) (t.type d) (Eq d) := by
    intro d hd
    have hfields := L.mapM fun f hf => hfield f (List.mem_flatMap.mpr ⟨d, hd, hf⟩)
    have hmethods := L.mapM fun m hm => hmethod m (List.mem_flatMap.mpr ⟨d, hd, hm⟩)
    -- There are no events, so the sums that `bind` writes need not be simplified.
    refine TraceLogic.of_silent (L.bind (henter d) fun _ _ => L.bind hfields fun fields hfs =>
      L.bind hmethods fun methods hms => L.bind (honType _) fun result hresult =>
        L.bind (hexit result) fun _ _ => L.pure ?_)
    rw [← hresult, ← eq_of_forall₂ hfs, ← eq_of_forall₂ hms]
  have hunit : ∀ types, List.Forall₂ Eq u.types types →
      L.Holds (fun _ => []) (t.onUnit { u with types }) (Eq u) := by
    intro types htypes
    rw [← eq_of_forall₂ htypes]
    exact honUnit u
  exact TraceLogic.of_silent (L.bind (L.mapM htype) hunit)

end Transform

end Lowering
