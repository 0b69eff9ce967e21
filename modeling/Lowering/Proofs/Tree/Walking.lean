import Lowering.Proofs.Tree.Firing

/-!
# Walks and transformations meet the same nodes

A walk runs the hooks of each node around the walks of its parts, in source order
(`Walk.node_eq`). A transformation runs the hook of a node after those of its parts. The
two agree on what they meet: a walk that acts on variable references acts on those that
the hook of a transformation is given, in the same order, and a walk that acts on calls,
assertions or declarations acts as often as the hook for them fires.

Main statement: `Node.walk_eq_transform`.
-/

namespace Lowering

variable {m : Type → Type} [Monad m]

/-- Acting on the elements of lists is acting on the joined list. -/
theorem forM_eq_forM_flatMap [LawfulMonad m] {α β : Type} {g : α → List β} {act : β → m Unit}
    {f : α → m Unit} {as : List α} (h : ∀ a ∈ as, f a = forM (g a) act) :
    forM as f = forM (as.flatMap g) act := by
  induction as with
  | nil => rfl
  | cons a as ih =>
    rw [List.forM_cons, List.flatMap_cons, List.forM_append, h a List.mem_cons_self,
      ih fun b hb => h b (List.mem_cons_of_mem _ hb)]

/-! ## Walks -/

namespace Walk

/-- Runs the hooks of an expression around an action. -/
def aroundExpr (w : Walk m) (e : Expr) (inner : m Unit) : m Unit :=
  match e with
  | .varRef v => w.onExpression (.varRef v) (w.onVarRef v)
  | .call q target as => w.onExpression (.call q target as) (w.onCall q target as inner)
  | .notNull operand => w.onExpression (.notNull operand) (w.onNotNull operand inner)
  | .declare fragments => w.onExpression (.declare fragments) (w.onDeclare fragments inner)
  | e => w.onExpression e inner

/-- Runs the hooks of a node around an action. A variable reference has no parts, and its
own hook takes the place of the action. -/
def around (w : Walk m) : Node → m Unit → m Unit
  | .unit u, inner => w.onUnit u inner
  | .type d, inner => w.onType d inner
  | .field f, inner => w.onField f inner
  | .method d, inner => w.onMethod d inner
  | .block b, inner => w.onBlock b inner
  | .stmt s, inner => w.onStatement s inner
  | .expr e, inner => w.aroundExpr e inner

variable (w : Walk m)

/-- Walking an optional part is walking the list of at most one. This and the lemmas below bring all
parts into the form of `Node.children`. -/
theorem optionalExpr_eq [LawfulMonad m] (q : Option Expr) :
    w.optionalExpr q = forM q.toList w.expr := by
  cases q <;> simp [optionalExpr]

theorem exprs_eq (es : List Expr) : w.exprs es = forM es w.expr := by
  induction es with
  | nil => rfl
  | cons e es ih => simp [exprs, ih]

/-- Only initializers are walked, as only they are parts. -/
theorem fragments_eq [LawfulMonad m] (fs : List (Fragment Expr)) :
    w.fragments fs = forM (fs.filterMap (·.initializer)) w.expr := by
  induction fs with
  | nil => rfl
  | cons f fs ih =>
    obtain ⟨binder, initializer⟩ := f
    cases initializer <;> simp [fragments, optionalExpr, ih]

theorem optionalStmt_eq [LawfulMonad m] (s : Option Stmt) :
    w.optionalStmt s = forM s.toList w.stmt := by
  cases s <;> simp [optionalStmt]

theorem stmts_eq (ss : List Stmt) : w.stmts ss = forM ss w.stmt := by
  induction ss with
  | nil => rfl
  | cons s ss ih => simp [stmts, ih]

theorem optionalBlock_eq [LawfulMonad m] (b : Option Block) :
    w.optionalBlock b = forM b.toList w.block := by
  cases b <;> simp [optionalBlock]

/-- A walk runs the hooks of a node around the walks of its parts in source order. -/
theorem node_eq [LawfulMonad m] (n : Node) :
    w.node n = w.around n (forM n.children w.node) := by
  cases n with
  | unit u => simp [node, unit, around, Node.children, List.forM_map]
  | type d => simp [node, type, around, Node.children, List.forM_map]
  | field f => simp [node, field, around, Node.children, List.forM_map, optionalExpr_eq]
  | method d => simp [node, method, around, Node.children, List.forM_map, optionalBlock_eq]
  | block b => simp [node, block, around, Node.children, List.forM_map, stmts_eq]
  | stmt s =>
    -- A block statement walks its block, so `block` is opened here as well.
    cases s <;> simp [node, stmt, around, Node.children, Stmt.parts, List.forM_map, block,
      optionalExpr_eq, exprs_eq, optionalStmt_eq, stmts_eq]
  | expr e =>
    cases e <;> simp [node, expr, around, aroundExpr, Node.children, Expr.children, List.forM_map,
      optionalExpr_eq, exprs_eq, fragments_eq]

/-- A walk whose hooks act on a node before its parts are walked acts on all nodes in
order. -/
theorem node_eq_forM [LawfulMonad m] {act : Node → m Unit}
    (h : ∀ n, w.around n (forM n.children w.node) = do act n; forM n.children w.node) (n : Node) :
    w.node n = forM n.nodes act := by
  induction n using Node.childInduction with
  | step n ih =>
    -- The list of all nodes has a node before its parts as well.
    rw [node_eq, h, Node.nodes_eq, List.forM_cons, forM_eq_forM_flatMap ih]

/-- Walks everything and acts on what is picked from the hooks for variable references,
calls, assertions and declarations, before the parts are walked. -/
def acting {β : Type} (pick : Firing → Option β) (act : β → m Unit) : Walk m where
  onVarRef v := forM (pick (.onVarRef v)).toList act
  onCall _ _ _ parts := do
    forM (pick .onCall).toList act
    parts
  onNotNull _ parts := do
    forM (pick .onNotNull).toList act
    parts
  onDeclare _ parts := do
    forM (pick .onDeclare).toList act
    parts

end Walk

/-! ## Expressions that both meet -/

/-- Whether a walk has a hook for just the expressions that this hook is for. -/
def Firing.isNoticed : Firing → Bool
  | .onVarRef _ => true
  | .onCall => true
  | .onNotNull => true
  | .onDeclare => true
  | _ => false

namespace Node

def expr? : Node → Option Expr
  | .expr e => some e
  | _ => none

/-- The expressions in a part of a unit, in source order, each before its operands. -/
def expressions (n : Node) : List Expr :=
  n.nodes.filterMap expr?

/-- What is picked from the hook of a node that is an expression. -/
def picked {β : Type} (pick : Firing → Option β) (n : Node) : Option β :=
  n.expr?.bind fun e => pick e.hook

/-- Picking from all expressions is picking from all nodes, where nodes of other kinds give
nothing. -/
theorem filterMap_expressions {β : Type} (pick : Firing → Option β) (n : Node) :
    n.expressions.filterMap (pick ·.hook) = n.nodes.flatMap fun x => (x.picked pick).toList := by
  rw [expressions, List.filterMap_filterMap, List.filterMap_eq_flatMap_toList]
  rfl

/-- A walk has no special hook for what is not an expression. -/
theorem isNoticed_of_mem_own {n : Node} (h : n.expr? = none) {f : Firing} (hf : f ∈ n.own) :
    f.isNoticed = false := by
  revert f
  cases n with
  | expr e => cases h
  | stmt s => cases s <;> simp [own, enter?, hook?, exit?, Stmt.hook?, Firing.isNoticed]
  | _ => simp [own, enter?, hook?, exit?, Firing.isNoticed]

section

variable {β : Type} {pick : Firing → Option β}
  (hquiet : ∀ f : Firing, f.isNoticed = false → pick f = none)

include hquiet

/-- If only noticed hooks are picked, a node gives at most one value, that of its expression. -/
theorem filterMap_own (n : Node) : n.own.filterMap pick = (n.picked pick).toList := by
  cases n with
  | expr e =>
    -- Expressions have neither enter nor exit hook.
    have honly : (Node.expr e).own = [e.hook] := rfl
    cases h : pick e.hook <;> simp [honly, picked, expr?, h]
  | _ => exact List.filterMap_eq_nil_iff.mpr fun f hf => hquiet f (isNoticed_of_mem_own rfl hf)

/-- Picking from the hooks of all nodes, taken without regard to order, is picking from all
expressions. -/
theorem filterMap_flatMap_own (n : Node) :
    (n.nodes.flatMap own).filterMap pick = n.expressions.filterMap (pick ·.hook) := by
  rw [List.filterMap_flatMap, filterMap_expressions]
  exact List.flatMap_congr fun x _ => filterMap_own hquiet x

/-- The hooks around a node act on what is picked from it, and then go on to its parts. -/
theorem around_acting [LawfulMonad m] (act : β → m Unit) (n : Node) :
    (Walk.acting pick act).around n (forM n.children (Walk.acting pick act).node) = (do
      forM (n.picked pick).toList act
      forM n.children (Walk.acting pick act).node) := by
  cases n with
  | expr e =>
    cases e with
    | varRef v =>
      -- There are no parts to go on to.
      simp [Walk.around, Walk.aroundExpr, Walk.acting, picked, expr?, Expr.hook, children,
        Expr.children]
    | call | notNull | declare => rfl
    | _ =>
      simp +decide [Walk.around, Walk.aroundExpr, Walk.acting, picked, expr?, Expr.hook, hquiet]
  | _ => simp [Walk.around, Walk.acting, picked, expr?]

/-- The walk acts on what is picked from the expressions of the tree, in source order. -/
theorem walk_acting [LawfulMonad m] (act : β → m Unit) (n : Node) :
    (Walk.acting pick act).node n = forM (n.expressions.filterMap (pick ·.hook)) act := by
  rw [Walk.node_eq_forM _ (around_acting hquiet act), filterMap_expressions]
  exact forM_eq_forM_flatMap fun _ _ => rfl

end

end Node

/-! ## What is picked -/

/-- The variable that a hook is given. -/
def Firing.referenced? : Firing → Option Variable
  | .onVarRef v => some v
  | _ => none

def Firing.call? : Firing → Option Unit
  | .onCall => some ()
  | _ => none

def Firing.assertion? : Firing → Option Unit
  | .onNotNull => some ()
  | _ => none

def Firing.declaration? : Firing → Option Unit
  | .onDeclare => some ()
  | _ => none

namespace Node

/-- A variable is given only to the hook for variable references, which walks have too. -/
theorem referenced?_quiet (f : Firing) (h : f.isNoticed = false) : f.referenced? = none := by
  cases f <;> simp_all [Firing.isNoticed, Firing.referenced?]

/-- Nodes either are no variable reference or have no parts. -/
theorem picked_referenced?_or_children (n : Node) :
    n.picked Firing.referenced? = none ∨ n.children = [] := by
  cases n with
  | expr e =>
    cases e <;> simp [picked, expr?, Expr.hook, Firing.referenced?, children, Expr.children]
  | _ => simp [picked, expr?]

/-- Variable references have no parts, so it makes no difference for their order whether a
node comes before its parts or after them. -/
theorem variables_firings (n : Node) :
    n.firings.filterMap Firing.referenced? = n.expressions.filterMap (·.hook.referenced?) := by
  rw [filterMap_expressions Firing.referenced?]
  induction n using childInduction with
  | step n ih =>
    -- By induction the parts agree; what is left is where the node itself comes.
    have hparts : (n.children.flatMap firings).filterMap Firing.referenced? =
        (n.children.flatMap nodes).flatMap fun x => (x.picked Firing.referenced?).toList := by
      rw [List.flatMap_assoc, List.filterMap_flatMap]
      exact List.flatMap_congr ih
    have hthis := filterMap_own referenced?_quiet n
    rw [nodes_eq, List.flatMap_cons, ← hparts, ← hthis, firings_eq]
    rcases n.picked_referenced?_or_children with hsilent | hleaf
    · -- None of the hooks of the node itself is for a variable.
      simp only [own, List.filterMap_append, hsilent, Option.toList_none,
        List.append_eq_nil_iff] at hthis
      simp only [own, List.filterMap_append, hthis, List.nil_append, List.append_nil]
    · simp [hleaf, own]

/-- Where only the number matters, the order of the hooks does not: the hooks that fire are a
permutation of those of all nodes. -/
theorem count_firings {pick : Firing → Option Unit}
    (hquiet : ∀ f : Firing, f.isNoticed = false → pick f = none) (n : Node) :
    n.firings.filterMap pick = n.expressions.filterMap (pick ·.hook) := by
  rw [← filterMap_flatMap_own hquiet]
  -- The picked values are all the same, so only the lengths could differ.
  apply List.ext_getElem (n.firings_perm.filterMap pick).length_eq
  intros
  rfl

end Node

/-! ## Transformations -/

namespace Transform

/-- The computation acts on what is picked from the hooks, and on nothing else. -/
def acts [LawfulMonad m] {β : Type} (pick : Firing → Option β) (act : β → m Unit) :
    FiringLogic m m where
  Holds fired x _ := (fun _ => ()) <$> x = forM (fired.filterMap pick) act
  pure _ := by simp
  bind {α β fired further x y f g} hx hf := by
    -- What the second computation acts on does not depend on the result of the first.
    have hrest : (fun _ => ()) <$> (x >>= f) = (fun _ => ()) <$> x >>= fun _ =>
        forM (further.filterMap pick) act := by
      simp [hf]
    rw [hrest, hx, List.filterMap_append, List.forM_append]

end Transform

namespace Node

/-- The walk and the transformation both do the given action, apart from what the
transformation makes of the tree. -/
def BothDo (n : Node) (w : Walk m) (t : Transform m) (action : m Unit) : Prop :=
  w.node n = action ∧ (fun _ => ()) <$> t.node n = action

variable [LawfulMonad m]

/-- A walk and a transformation do the same, if what is picked from the firings comes in the order
of the expressions. That order is the only thing in which the four cases below differ. -/
theorem bothDo_of_fires {β : Type} {pick : Firing → Option β} {act : β → m Unit}
    (hquiet : ∀ f : Firing, f.isNoticed = false → pick f = none) {n : Node}
    (horder : n.firings.filterMap pick = n.expressions.filterMap (pick ·.hook)) {w : Walk m}
    (hw : w = Walk.acting pick act) {t : Transform m}
    (ht : Transform.Fires (Transform.acts pick act) t t) :
    n.BothDo w t (forM (n.expressions.filterMap (pick ·.hook)) act) := by
  constructor
  · rw [hw, walk_acting hquiet]
  · rw [← horder]
    exact ht.node n

/-- Variables are met in source order, so that here the action may depend on the variable. -/
theorem variables_met (n : Node) (rewrite : Variable → m Expr) :
    n.BothDo { onVarRef := fun v => (fun _ => ()) <$> rewrite v } { onVarRef := rewrite }
      (forM (n.expressions.filterMap (·.hook.referenced?)) fun v =>
        (fun _ => ()) <$> rewrite v) := by
  apply bothDo_of_fires referenced?_quiet n.variables_firings
  · simp [Walk.acting, Firing.referenced?]
  · constructor <;> intros <;> simp [Transform.acts, Firing.referenced?, List.filterMap_cons]

/-- Hooks that only count act once for each expression that they are for. -/
theorem counted {pick : Firing → Option Unit} {tick : m Unit}
    (hquiet : ∀ f : Firing, f.isNoticed = false → pick f = none) (n : Node) {w : Walk m}
    (hw : w = Walk.acting pick fun _ => tick) {t : Transform m}
    (ht : Transform.Fires (Transform.acts pick fun _ => tick) t t) :
    n.BothDo w t (forM (n.expressions.filterMap (pick ·.hook)) fun _ => tick) :=
  bothDo_of_fires hquiet (count_firings hquiet n) hw ht

/-- Calls are counted. Nested calls fire inside out but are walked outside in, and so nothing is
said of which call is met when. -/
theorem calls_met (n : Node) (tick : m Unit)
    (rewrite : Option Expr → MethodRef → List Expr → Expr) :
    n.BothDo { onCall := fun _ _ _ parts => do tick; parts }
      { onCall := fun q target as => do tick; pure (rewrite q target as) }
      (forM (n.expressions.filterMap (·.hook.call?)) fun _ => tick) := by
  apply counted
  · intro f h
    cases f <;> simp_all [Firing.isNoticed, Firing.call?]
  · simp [Walk.acting, Firing.call?]
  · constructor <;> intros <;> simp [Transform.acts, Firing.call?, List.filterMap_cons]

theorem assertions_met (n : Node) (tick : m Unit) (rewrite : Expr → Expr) :
    n.BothDo { onNotNull := fun _ parts => do tick; parts }
      { onNotNull := fun e => do tick; pure (rewrite e) }
      (forM (n.expressions.filterMap (·.hook.assertion?)) fun _ => tick) := by
  apply counted
  · intro f h
    cases f <;> simp_all [Firing.isNoticed, Firing.assertion?]
  · simp [Walk.acting, Firing.assertion?]
  · constructor <;> intros <;> simp [Transform.acts, Firing.assertion?, List.filterMap_cons]

/-- Declarations are counted, once each and not once for each declared variable. -/
theorem declarations_met (n : Node) (tick : m Unit) (rewrite : List (Fragment Expr) → Expr) :
    n.BothDo { onDeclare := fun _ parts => do tick; parts }
      { onDeclare := fun fs => do tick; pure (rewrite fs) }
      (forM (n.expressions.filterMap (·.hook.declaration?)) fun _ => tick) := by
  apply counted
  · intro f h
    cases f <;> simp_all [Firing.isNoticed, Firing.declaration?]
  · simp [Walk.acting, Firing.declaration?]
  · constructor <;> intros <;> simp [Transform.acts, Firing.declaration?, List.filterMap_cons]

/-- Walks and transformations meet the same expressions. If a walk has a hook for
variable references only, and a transformation has one that does the same and makes any
expression of the variable, both hooks are given the variables of the tree in source
order. Hooks that count calls, assertions or declarations, those of the walk before they
go on to the parts and those of the transformation with any replacement, count all of
them. -/
theorem walk_eq_transform (n : Node) :
    (∀ rewrite : Variable → m Expr,
      n.BothDo { onVarRef := fun v => (fun _ => ()) <$> rewrite v } { onVarRef := rewrite }
        (forM (n.expressions.filterMap (·.hook.referenced?)) fun v =>
          (fun _ => ()) <$> rewrite v)) ∧
    (∀ (tick : m Unit) (rewrite : Option Expr → MethodRef → List Expr → Expr),
      n.BothDo { onCall := fun _ _ _ parts => do tick; parts }
        { onCall := fun q target as => do tick; pure (rewrite q target as) }
        (forM (n.expressions.filterMap (·.hook.call?)) fun _ => tick)) ∧
    (∀ (tick : m Unit) (rewrite : Expr → Expr),
      n.BothDo { onNotNull := fun _ parts => do tick; parts }
        { onNotNull := fun e => do tick; pure (rewrite e) }
        (forM (n.expressions.filterMap (·.hook.assertion?)) fun _ => tick)) ∧
    ∀ (tick : m Unit) (rewrite : List (Fragment Expr) → Expr),
      n.BothDo { onDeclare := fun _ parts => do tick; parts }
        { onDeclare := fun fs => do tick; pure (rewrite fs) }
        (forM (n.expressions.filterMap (·.hook.declaration?)) fun _ => tick) :=
  ⟨n.variables_met, n.calls_met, n.assertions_met, n.declarations_met⟩

/-- A method that is called within a call of its own. -/
def narrow : MethodRef :=
  { enclosing := { qualifiedName := "app.Lens" }, name := "narrow", parameters := [.prim .int] }

/-- A call whose argument is an assertion about another call. -/
def nestedCalls : Node :=
  .expr (.call none narrow [.notNull (.call none narrow [.varRef Transform.loopVariable])])

/-- Both calls are counted, also if the transformation drops them. -/
theorem calls_of_nestedCalls :
    (({ onCall := fun _ _ _ parts => do modify (· + 1); parts } : Walk (StateM Nat)).node
        nestedCalls).run 0 = ((), 2) ∧
      ((fun _ => ()) <$> ({ onCall := fun _ _ _ => do modify (· + 1); pure (.multi []) } :
        Transform (StateM Nat)).node nestedCalls).run 0 = ((), 2) := by
  obtain ⟨hwalk, htransform⟩ :=
    (walk_eq_transform nestedCalls).2.1 (modify (· + 1) : StateM Nat Unit) fun _ _ _ => .multi []
  rw [hwalk, htransform]
  exact ⟨rfl, rfl⟩

end Node

end Lowering
