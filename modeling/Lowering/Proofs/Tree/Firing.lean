import Mathlib.Data.List.Perm.Basic
import Lowering.Proofs.Tree.Nodes
import Lowering.Proofs.Tree.Traces

/-!
# Which hooks fire

A transformation runs its hooks in an order that the tree alone determines, whatever
the hooks do: `Node.firings` lists the hooks that fire, by name. What a hook returns is
not looked at again, or the list would depend on it.

A `FiringLogic` is any notion of "this computation does what that one does, while these
hooks fire" that passes through `pure` and `bind`. If it holds of every hook, it holds of
the traversal, with the list of the tree (`Transform.Fires.node`). The notes that
`Transform.noting` makes are an example.

The list is put together by `Node.firings_eq`: the enter hook of a node, the hooks of
its parts in source order, its own hook, its exit hook. So enter and exit hooks are
bracketed (`Node.balanced_firings`), and no node is passed over or met twice
(`Node.firings_perm`).

Main statement: `Transform.firings_of_node`.
-/

namespace Lowering

/-- The firing of a hook. For a variable reference it tells the variable as well. -/
inductive Firing where
  | enterType | exitType | enterField | exitField | enterMethod | exitMethod
  | enterStatement | exitStatement
  | onUnit | onType | onField | onMethod | onBlock
  | onExpressionStmt | onReturn | onIf | onWhile | onFor | onAssert | onThrow
  | onNullLiteral | onBoolLiteral | onNumberLiteral | onStringLiteral | onThis
  | onVarRef (v : Variable)
  | onFieldAccess | onCall | onNewInstance | onBinary | onUnary | onCast | onConditional
  | onNotNull | onMulti | onDeclare

/-! ## Firings of a tree -/

/-- The hook of an expression. -/
def Expr.hook : Expr → Firing
  | .nullLiteral _ => .onNullLiteral
  | .boolLiteral _ _ => .onBoolLiteral
  | .numberLiteral _ _ => .onNumberLiteral
  | .stringLiteral _ _ => .onStringLiteral
  | .thisRef _ => .onThis
  | .varRef v => .onVarRef v
  | .fieldAccess _ _ => .onFieldAccess
  | .call _ _ _ => .onCall
  | .newInstance _ _ => .onNewInstance
  | .binary _ _ _ _ => .onBinary
  | .unary _ _ _ _ => .onUnary
  | .cast _ _ => .onCast
  | .conditional _ _ _ _ => .onConditional
  | .notNull _ => .onNotNull
  | .multi _ => .onMulti
  | .declare _ => .onDeclare

/-- The hook of a statement. A block statement leaves it to its block. -/
def Stmt.hook? : Stmt → Option Firing
  | .expression _ _ => some .onExpressionStmt
  | .block _ _ => none
  | .returnValue _ _ => some .onReturn
  | .conditional _ _ _ _ => some .onIf
  | .whileLoop _ _ _ => some .onWhile
  | .forLoop _ _ _ _ _ => some .onFor
  | .assertion _ _ _ => some .onAssert
  | .throwValue _ _ => some .onThrow

/-- The hooks that fire for an expression. -/
def Expr.firings (e : Expr) : List Firing :=
  e.trace (fun e _ => [e.hook]) ()

/-- Hooks of an expression fire bottom-up: those of its children in source order, then its own. -/
theorem Expr.firings_eq (e : Expr) : e.firings = e.children.flatMap Expr.firings ++ [e.hook] := by
  cases e <;> simp [Expr.firings, Expr.trace, Expr.children, Expr.traceOption_eq_flatMap,
    Expr.traceList_eq_flatMap, Expr.traceFragments_eq_flatMap] <;> rfl

namespace Stmt

mutual

/-- The hooks that fire for a statement. -/
def firings : Stmt → List Firing
  | .expression e _ => .enterStatement :: (e.firings ++ [.onExpressionStmt] ++ [.exitStatement])
  | .block ss _ => .enterStatement :: (firingsList ss ++ [.onBlock] ++ [.exitStatement])
  | .returnValue v _ =>
    .enterStatement :: (v.toList.flatMap Expr.firings ++ [.onReturn] ++ [.exitStatement])
  | .conditional c a b _ =>
    .enterStatement :: ((c.firings ++ (a.firings ++ (firingsOption b ++ [.onIf]))) ++
      [.exitStatement])
  | .whileLoop c b _ =>
    .enterStatement :: ((c.firings ++ (b.firings ++ [.onWhile])) ++ [.exitStatement])
  | .forLoop i c u b _ =>
    .enterStatement :: ((i.flatMap Expr.firings ++ (c.toList.flatMap Expr.firings ++
      (u.flatMap Expr.firings ++ (b.firings ++ [.onFor])))) ++ [.exitStatement])
  | .assertion c m _ =>
    .enterStatement :: ((c.firings ++ (m.toList.flatMap Expr.firings ++ [.onAssert])) ++
      [.exitStatement])
  | .throwValue v _ => .enterStatement :: (v.firings ++ [.onThrow] ++ [.exitStatement])
termination_by structural s => s

def firingsOption : Option Stmt → List Firing
  | none => []
  | some s => s.firings
termination_by structural s => s

def firingsList : List Stmt → List Firing
  | [] => []
  | s :: ss => s.firings ++ firingsList ss
termination_by structural ss => ss

end

/-- Helpers of the mutual recursion are plain list operations. -/
theorem firingsOption_eq_flatMap (s : Option Stmt) :
    firingsOption s = s.toList.flatMap firings := by
  cases s <;> simp [firingsOption]

theorem firingsList_eq_flatMap (ss : List Stmt) : firingsList ss = ss.flatMap firings := by
  induction ss with
  | nil => rfl
  | cons s ss ih => simp only [firingsList, List.flatMap_cons, ih]

end Stmt

def Block.firings (b : Block) : List Firing :=
  b.statements.flatMap Stmt.firings ++ [.onBlock]

def FieldDecl.firings (f : FieldDecl) : List Firing :=
  .enterField :: (f.initializer.toList.flatMap Expr.firings ++ [.onField, .exitField])

def MethodDecl.firings (d : MethodDecl) : List Firing :=
  .enterMethod :: (d.body.toList.flatMap Block.firings ++ [.onMethod, .exitMethod])

def TypeDecl.firings (d : TypeDecl) : List Firing :=
  .enterType :: (d.fields.flatMap FieldDecl.firings ++
    (d.methods.flatMap MethodDecl.firings ++ [.onType, .exitType]))

def CompilationUnit.firings (u : CompilationUnit) : List Firing :=
  u.types.flatMap TypeDecl.firings ++ [.onUnit]

namespace Node

/-- The hooks that fire for a node and everything below it. -/
def firings : Node → List Firing
  | .unit u => u.firings
  | .type d => d.firings
  | .field f => f.firings
  | .method d => d.firings
  | .block b => b.firings
  | .stmt s => s.firings
  | .expr e => e.firings

/-- The hook that fires before the parts of a node. -/
def enter? : Node → Option Firing
  | .type _ => some .enterType
  | .field _ => some .enterField
  | .method _ => some .enterMethod
  | .stmt _ => some .enterStatement
  | _ => none

/-- The hook that decides what takes the place of a node. -/
def hook? : Node → Option Firing
  | .unit _ => some .onUnit
  | .type _ => some .onType
  | .field _ => some .onField
  | .method _ => some .onMethod
  | .block _ => some .onBlock
  | .stmt s => s.hook?
  | .expr e => some e.hook

/-- The hook that fires on what took the place of a node. -/
def exit? : Node → Option Firing
  | .type _ => some .exitType
  | .field _ => some .exitField
  | .method _ => some .exitMethod
  | .stmt _ => some .exitStatement
  | _ => none

/-- The hooks of the node itself. -/
def own (n : Node) : List Firing :=
  n.enter?.toList ++ (n.hook?.toList ++ n.exit?.toList)

/-- A node's enter hook fires first, then the hooks of its parts in source order, then its
own hook, and directly after it its exit hook. -/
theorem firings_eq (n : Node) :
    n.firings = n.enter?.toList ++
      (n.children.flatMap firings ++ (n.hook?.toList ++ n.exit?.toList)) := by
  cases n with
  | unit u =>
    simp [firings, children, enter?, hook?, exit?, CompilationUnit.firings, List.flatMap_map]
  | type d => simp [firings, children, enter?, hook?, exit?, TypeDecl.firings, List.flatMap_map]
  | field f => simp [firings, children, enter?, hook?, exit?, FieldDecl.firings, List.flatMap_map]
  | method d => simp [firings, children, enter?, hook?, exit?, MethodDecl.firings, List.flatMap_map]
  | block b => simp [firings, children, enter?, hook?, exit?, Block.firings, List.flatMap_map]
  | expr e =>
    simp only [firings, children, enter?, hook?, exit?, List.flatMap_map]
    simpa using e.firings_eq
  | stmt s =>
    -- A block statement has no hook of its own; the hook of its block fires in the place.
    cases s <;> simp [firings, children, enter?, hook?, exit?, Stmt.firings, Stmt.parts, Stmt.hook?,
      Block.firings, Stmt.firingsOption_eq_flatMap, Stmt.firingsList_eq_flatMap, List.flatMap_map]

/-- Each node's hooks fire once, whichever the order. -/
theorem firings_perm (n : Node) : n.firings.Perm (n.nodes.flatMap own) := by
  induction n using childInduction with
  | step n ih =>
    rw [firings_eq, nodes_eq, List.flatMap_cons, List.flatMap_assoc]
    have hparts : (n.children.flatMap firings).Perm
        (n.children.flatMap fun c => c.nodes.flatMap own) := List.Perm.flatMap_left _ ih
    -- The hooks of the parts stand between the enter hook and the own hook.
    calc n.enter?.toList ++ (n.children.flatMap firings ++ (n.hook?.toList ++ n.exit?.toList))
      _ |>.Perm (n.enter?.toList ++ ((n.hook?.toList ++ n.exit?.toList) ++
          n.children.flatMap firings)) := List.perm_append_comm.append_left _
      _ |>.Perm (n.own ++ n.children.flatMap fun c => c.nodes.flatMap own) := by
        rw [← List.append_assoc]
        exact hparts.append_left _

end Node

/-! ## Brackets -/

/-- The exit hook that belongs to an enter hook. -/
def Firing.partner? : Firing → Option Firing
  | .enterType => some .exitType
  | .enterField => some .exitField
  | .enterMethod => some .exitMethod
  | .enterStatement => some .exitStatement
  | _ => none

def Firing.isExit : Firing → Bool
  | .exitType | .exitField | .exitMethod | .exitStatement => true
  | _ => false

/-- Every enter hook is followed by its exit hook, and what fires between the two is
bracketed in itself. -/
inductive Balanced : List Firing → Prop where
  | nil : Balanced []
  | plain {f : Firing} {rest : List Firing} (hopens : f.partner? = none) (hexits : f.isExit = false)
      (hfurther : Balanced rest) : Balanced (f :: rest)
  | pair {enter exit : Firing} {inside rest : List Firing} (hpartner : enter.partner? = some exit)
      (hinner : Balanced inside) (hfurther : Balanced rest) :
      Balanced (enter :: (inside ++ exit :: rest))

namespace Balanced

/-- Bracketed lists may follow each other, as the hooks of parts do. -/
theorem append {first second : List Firing} (h : Balanced first) (h' : Balanced second) :
    Balanced (first ++ second) := by
  induction h with
  | nil => exact h'
  | plain hopens hexits _ ih => exact .plain hopens hexits ih
  | pair hpartner hinner _ _ ih =>
    rw [List.cons_append, List.append_assoc, List.cons_append]
    -- Only what comes after the pair grows; the inside stays.
    exact .pair hpartner hinner ih

theorem flatMap {α : Type} {f : α → List Firing} {as : List α} (h : ∀ a ∈ as, Balanced (f a)) :
    Balanced (as.flatMap f) := by
  induction as with
  | nil => exact .nil
  | cons a as ih =>
    rw [List.flatMap_cons]
    exact (h a List.mem_cons_self).append (ih fun b hb => h b (List.mem_cons_of_mem _ hb))

end Balanced

namespace Node

/-- The hook of a node is neither an enter nor an exit hook. -/
theorem balanced_hook (n : Node) : Balanced n.hook?.toList := by
  cases n with
  | stmt s => cases s <;> first | exact .nil | exact .plain rfl rfl .nil
  | expr e => cases e <;> exact .plain rfl rfl .nil
  | _ => exact .plain rfl rfl .nil

/-- A node has both an enter and an exit hook, which belong together, or neither. -/
theorem brackets (n : Node) :
    (n.enter? = none ∧ n.exit? = none) ∨
      ∃ enter exit, n.enter? = some enter ∧ n.exit? = some exit ∧ enter.partner? = some exit := by
  cases n with
  | unit | block | expr => exact .inl ⟨rfl, rfl⟩
  | type | field | method | stmt => exact .inr ⟨_, _, rfl, rfl, rfl⟩

/-- Enter and exit hooks are bracketed. The order in `firings_eq` is all that this needs: parts are
bracketed by induction, and stand between the two. -/
theorem balanced_firings (n : Node) : Balanced n.firings := by
  induction n using childInduction with
  | step n ih =>
    -- What fires between the enter and the exit hook.
    have hinner := (Balanced.flatMap ih).append n.balanced_hook
    rw [firings_eq, ← List.append_assoc (n.children.flatMap firings)]
    rcases n.brackets with ⟨henter, hexit⟩ | ⟨e, x, henter, hexit, hpartner⟩
    -- Units, blocks and expressions have neither of the two hooks.
    · simpa [henter, hexit] using hinner
    · rw [henter, hexit]
      exact .pair hpartner hinner .nil

end Node

/-! ## Transformations -/

/-- A notion of "these two computations do the same, while the hooks of the list fire"
that passes through `pure` and `bind`. -/
structure FiringLogic (m n : Type → Type) [Monad m] [Monad n] where
  Holds : {α : Type} → List Firing → m α → n α → Prop
  pure : ∀ {α : Type} (a : α), Holds [] (Pure.pure a) (Pure.pure a)
  bind : ∀ {α β : Type} {fired further : List Firing} {x : m α} {y : n α} {f : α → m β}
    {g : α → n β}, Holds fired x y → (∀ a, Holds further (f a) (g a)) →
    Holds (fired ++ further) (x >>= f) (y >>= g)

namespace FiringLogic

variable {m n : Type → Type} [Monad m] [Monad n] (L : FiringLogic m n)

/-- A last step that only packs the result. -/
theorem pack {α β : Type} {fired : List Firing} {x : m α} {y : n α} (h : L.Holds fired x y)
    (f : α → β) :
    L.Holds fired (x >>= fun a => Pure.pure (f a)) (y >>= fun a => Pure.pure (f a)) := by
  have hpacked := L.bind h fun a => L.pure (f a)
  rwa [List.append_nil] at hpacked

/-- A result may be packed by `<$>` as well. -/
theorem map [LawfulMonad m] [LawfulMonad n] {α β : Type} {fired : List Firing} {x : m α} {y : n α}
    (h : L.Holds fired x y) (f : α → β) : L.Holds fired (f <$> x) (f <$> y) := by
  rw [map_eq_pure_bind, map_eq_pure_bind]
  exact L.pack h f

/-- Members of declarations are transformed by `List.mapM`; their hooks fire one member after the
other. -/
theorem mapM [LawfulMonad m] [LawfulMonad n] {α β : Type} {fired : α → List Firing} {f : α → m β}
    {g : α → n β} (h : ∀ a, L.Holds (fired a) (f a) (g a)) (as : List α) :
    L.Holds (as.flatMap fired) (as.mapM f) (as.mapM g) := by
  induction as with
  | nil =>
    rw [List.mapM_nil, List.mapM_nil]
    exact L.pure []
  | cons a as ih =>
    rw [List.mapM_cons, List.mapM_cons, List.flatMap_cons]
    exact L.bind (h a) fun b => L.pack ih (b :: ·)

end FiringLogic

namespace Transform

variable {m n : Type → Type} [Monad m] [Monad n]

/-- Every hook of the first transformation does what the hook of the second one does,
while it fires. Hooks are compared at equal arguments only. -/
structure Fires (L : FiringLogic m n) (t : Transform m) (t' : Transform n) : Prop where
  enterType (d : TypeDecl) : L.Holds [.enterType] (t.enterType d) (t'.enterType d)
  exitType (d : TypeDecl) : L.Holds [.exitType] (t.exitType d) (t'.exitType d)
  enterField (f : FieldDecl) : L.Holds [.enterField] (t.enterField f) (t'.enterField f)
  exitField (f : FieldDecl) : L.Holds [.exitField] (t.exitField f) (t'.exitField f)
  enterMethod (d : MethodDecl) : L.Holds [.enterMethod] (t.enterMethod d) (t'.enterMethod d)
  exitMethod (d : MethodDecl) : L.Holds [.exitMethod] (t.exitMethod d) (t'.exitMethod d)
  enterStatement (s : Stmt) : L.Holds [.enterStatement] (t.enterStatement s) (t'.enterStatement s)
  exitStatement (s : Stmt) : L.Holds [.exitStatement] (t.exitStatement s) (t'.exitStatement s)
  onUnit (u : CompilationUnit) : L.Holds [.onUnit] (t.onUnit u) (t'.onUnit u)
  onType (d : TypeDecl) : L.Holds [.onType] (t.onType d) (t'.onType d)
  onField (f : FieldDecl) : L.Holds [.onField] (t.onField f) (t'.onField f)
  onMethod (d : MethodDecl) : L.Holds [.onMethod] (t.onMethod d) (t'.onMethod d)
  onBlock (b : Block) : L.Holds [.onBlock] (t.onBlock b) (t'.onBlock b)
  onExpressionStmt (e : Expr) (span : Span) :
    L.Holds [.onExpressionStmt] (t.onExpressionStmt e span) (t'.onExpressionStmt e span)
  onReturn (v : Option Expr) (span : Span) :
    L.Holds [.onReturn] (t.onReturn v span) (t'.onReturn v span)
  onIf (c : Expr) (a : Stmt) (b : Option Stmt) (span : Span) :
    L.Holds [.onIf] (t.onIf c a b span) (t'.onIf c a b span)
  onWhile (c : Expr) (b : Stmt) (span : Span) :
    L.Holds [.onWhile] (t.onWhile c b span) (t'.onWhile c b span)
  onFor (i : List Expr) (c : Option Expr) (u : List Expr) (b : Stmt) (span : Span) :
    L.Holds [.onFor] (t.onFor i c u b span) (t'.onFor i c u b span)
  onAssert (c : Expr) (message : Option Expr) (span : Span) :
    L.Holds [.onAssert] (t.onAssert c message span) (t'.onAssert c message span)
  onThrow (v : Expr) (span : Span) : L.Holds [.onThrow] (t.onThrow v span) (t'.onThrow v span)
  onNullLiteral (type : Ty) :
    L.Holds [.onNullLiteral] (t.onNullLiteral type) (t'.onNullLiteral type)
  onBoolLiteral (value : Bool) (type : Ty) :
    L.Holds [.onBoolLiteral] (t.onBoolLiteral value type) (t'.onBoolLiteral value type)
  onNumberLiteral (value : NumberValue) (type : Ty) :
    L.Holds [.onNumberLiteral] (t.onNumberLiteral value type) (t'.onNumberLiteral value type)
  onStringLiteral (value : String) (type : Ty) :
    L.Holds [.onStringLiteral] (t.onStringLiteral value type) (t'.onStringLiteral value type)
  onThis (type : Ty) : L.Holds [.onThis] (t.onThis type) (t'.onThis type)
  onVarRef (v : Variable) : L.Holds [.onVarRef v] (t.onVarRef v) (t'.onVarRef v)
  onFieldAccess (q : Option Expr) (f : FieldRef) :
    L.Holds [.onFieldAccess] (t.onFieldAccess q f) (t'.onFieldAccess q f)
  onCall (q : Option Expr) (target : MethodRef) (as : List Expr) :
    L.Holds [.onCall] (t.onCall q target as) (t'.onCall q target as)
  onNewInstance (target : MethodRef) (as : List Expr) :
    L.Holds [.onNewInstance] (t.onNewInstance target as) (t'.onNewInstance target as)
  onBinary (op : BinaryOp) (l r : Expr) (type : Ty) :
    L.Holds [.onBinary] (t.onBinary op l r type) (t'.onBinary op l r type)
  onUnary (op : UnaryOp) (fixity : Fixity) (x : Expr) (type : Ty) :
    L.Holds [.onUnary] (t.onUnary op fixity x type) (t'.onUnary op fixity x type)
  onCast (type : Ty) (x : Expr) : L.Holds [.onCast] (t.onCast type x) (t'.onCast type x)
  onConditional (type : Ty) (c a b : Expr) :
    L.Holds [.onConditional] (t.onConditional type c a b) (t'.onConditional type c a b)
  onNotNull (x : Expr) : L.Holds [.onNotNull] (t.onNotNull x) (t'.onNotNull x)
  onMulti (es : List Expr) : L.Holds [.onMulti] (t.onMulti es) (t'.onMulti es)
  onDeclare (fs : List (Fragment Expr)) : L.Holds [.onDeclare] (t.onDeclare fs) (t'.onDeclare fs)

namespace Fires

variable {L : FiringLogic m n} {t : Transform m} {t' : Transform n}

mutual

/-- What holds of the hooks holds of the transformation of an expression. What a hook returns does
not matter for which hooks fire next, hence the results of parts are arbitrary here. -/
theorem expr (h : Fires L t t') : ∀ e : Expr, L.Holds e.firings (t.expr e) (t'.expr e)
  | .nullLiteral type => h.onNullLiteral type
  | .boolLiteral value type => h.onBoolLiteral value type
  | .numberLiteral value type => h.onNumberLiteral value type
  | .stringLiteral value type => h.onStringLiteral value type
  | .thisRef type => h.onThis type
  | .varRef v => h.onVarRef v
  | .fieldAccess q f => L.bind (h.optionalExpr q) fun q' => h.onFieldAccess q' f
  -- The hook comes last, when receiver and arguments are done.
  | .call q target as =>
    L.bind (h.optionalExpr q) fun q' => L.bind (h.exprs as) fun as' => h.onCall q' target as'
  | .newInstance target as => L.bind (h.exprs as) fun as' => h.onNewInstance target as'
  | .binary op l r type =>
    L.bind (h.expr l) fun l' => L.bind (h.expr r) fun r' => h.onBinary op l' r' type
  | .unary op fixity x type => L.bind (h.expr x) fun x' => h.onUnary op fixity x' type
  | .cast type x => L.bind (h.expr x) fun x' => h.onCast type x'
  | .conditional type c a b =>
    L.bind (h.expr c) fun c' => L.bind (h.expr a) fun a' => L.bind (h.expr b) fun b' =>
      h.onConditional type c' a' b'
  | .notNull x => L.bind (h.expr x) h.onNotNull
  | .multi es => L.bind (h.exprs es) h.onMulti
  | .declare fs => L.bind (h.fragments fs) h.onDeclare
termination_by structural e => e

theorem optionalExpr (h : Fires L t t') : ∀ q : Option Expr,
    L.Holds (Expr.traceOption (fun e _ => [e.hook]) q ()) (t.optionalExpr q) (t'.optionalExpr q)
  | none => L.pure none
  | some e => L.pack (h.expr e) some
termination_by structural q => q

theorem exprs (h : Fires L t t') : ∀ es : List Expr,
    L.Holds (Expr.traceList (fun e _ => [e.hook]) es ()) (t.exprs es) (t'.exprs es)
  | [] => L.pure []
  | e :: es => L.bind (h.expr e) fun e' => L.pack (h.exprs es) (e' :: ·)
termination_by structural es => es

theorem fragments (h : Fires L t t') : ∀ fs : List (Fragment Expr),
    L.Holds (Expr.traceFragments (fun e _ => [e.hook]) fs ()) (t.fragments fs) (t'.fragments fs)
  | [] => L.pure []
  | ⟨binder, i⟩ :: fs =>
    L.bind (h.optionalExpr i) fun i' => L.pack (h.fragments fs) (⟨binder, i'⟩ :: ·)
termination_by structural fs => fs

end

/-- The optional expression of a node, with its firings as a node lists them. -/
theorem optionalPart (h : Fires L t t') (q : Option Expr) :
    L.Holds (q.toList.flatMap Expr.firings) (t.optionalExpr q) (t'.optionalExpr q) := by
  have hfired := h.optionalExpr q
  rwa [Expr.traceOption_eq_flatMap] at hfired

/-- The same for lists of expressions, of initializers and updates of a loop. -/
theorem parts (h : Fires L t t') (es : List Expr) :
    L.Holds (es.flatMap Expr.firings) (t.exprs es) (t'.exprs es) := by
  have hfired := h.exprs es
  rwa [Expr.traceList_eq_flatMap] at hfired

/-- Between its enter and exit hooks, a statement fires what its transformation fires. -/
theorem bracketed (h : Fires L t t') (s : Stmt) {fired : List Firing} {inner : m Stmt}
    {inner' : n Stmt} (hinner : L.Holds fired inner inner') :
    L.Holds (.enterStatement :: (fired ++ [.exitStatement])) (t.bracketed s inner)
      (t'.bracketed s inner') :=
  L.bind (h.enterStatement s) fun _ => L.bind hinner fun s' =>
    L.pack (h.exitStatement s') fun _ => s'

mutual

/-- What holds of the hooks holds of the transformation of a statement. -/
theorem stmt (h : Fires L t t') : ∀ s : Stmt, L.Holds s.firings (t.stmt s) (t'.stmt s)
  | .expression e span => h.bracketed _ (L.bind (h.expr e) fun e' => h.onExpressionStmt e' span)
  -- The hook of the block gets the statements and a span, and what it returns is packed into a
  -- statement again.
  | .block ss span => h.bracketed _ (L.bind (h.stmts ss) fun ss' =>
      L.pack (h.onBlock { statements := ss', span }) fun b => Stmt.block b.statements b.span)
  | .returnValue v span => h.bracketed _ (L.bind (h.optionalPart v) fun v' => h.onReturn v' span)
  | .conditional c a b span => h.bracketed _ (L.bind (h.expr c) fun c' =>
      L.bind (h.stmt a) fun a' => L.bind (h.optionalStmt b) fun b' => h.onIf c' a' b' span)
  | .whileLoop c b span => h.bracketed _ (L.bind (h.expr c) fun c' =>
      L.bind (h.stmt b) fun b' => h.onWhile c' b' span)
  | .forLoop i c u b span => h.bracketed _ (L.bind (h.parts i) fun i' =>
      L.bind (h.optionalPart c) fun c' => L.bind (h.parts u) fun u' => L.bind (h.stmt b) fun b' =>
        h.onFor i' c' u' b' span)
  | .assertion c message span => h.bracketed _ (L.bind (h.expr c) fun c' =>
      L.bind (h.optionalPart message) fun message' => h.onAssert c' message' span)
  | .throwValue v span => h.bracketed _ (L.bind (h.expr v) fun v' => h.onThrow v' span)
termination_by structural s => s

theorem optionalStmt (h : Fires L t t') : ∀ s : Option Stmt,
    L.Holds (Stmt.firingsOption s) (t.optionalStmt s) (t'.optionalStmt s)
  | none => L.pure none
  | some s => L.pack (h.stmt s) some
termination_by structural s => s

theorem stmts (h : Fires L t t') : ∀ ss : List Stmt,
    L.Holds (Stmt.firingsList ss) (t.stmts ss) (t'.stmts ss)
  | [] => L.pure []
  | s :: ss => L.bind (h.stmt s) fun s' => L.pack (h.stmts ss) (s' :: ·)
termination_by structural ss => ss

end

/-- Blocks of methods fire as blocks in statements do, without enter and exit hooks. -/
theorem block (h : Fires L t t') (b : Block) : L.Holds b.firings (t.block b) (t'.block b) := by
  have hfired := h.stmts b.statements
  rw [Stmt.firingsList_eq_flatMap] at hfired
  exact L.bind hfired fun _ => h.onBlock _

theorem optionalBlock (h : Fires L t t') (b : Option Block) :
    L.Holds (b.toList.flatMap Block.firings) (t.optionalBlock b) (t'.optionalBlock b) := by
  cases b with
  | none => exact L.pure none
  | some b =>
    rw [Option.toList_some, List.flatMap_singleton]
    exact L.pack (h.block b) some

/-- Declarations run their three hooks in the order of `Node.firings_eq`. The exit hook is given
what took the place of the declaration. -/
theorem field (h : Fires L t t') (f : FieldDecl) : L.Holds f.firings (t.field f) (t'.field f) :=
  L.bind (h.enterField f) fun _ => L.bind (h.optionalPart f.initializer) fun _ =>
    L.bind (h.onField _) fun f' => L.pack (h.exitField f') fun _ => f'

theorem method (h : Fires L t t') (d : MethodDecl) :
    L.Holds d.firings (t.method d) (t'.method d) :=
  L.bind (h.enterMethod d) fun _ => L.bind (h.optionalBlock d.body) fun _ =>
    L.bind (h.onMethod _) fun d' => L.pack (h.exitMethod d') fun _ => d'

variable [LawfulMonad m] [LawfulMonad n]

theorem type (h : Fires L t t') (d : TypeDecl) : L.Holds d.firings (t.type d) (t'.type d) :=
  L.bind (h.enterType d) fun _ => L.bind (L.mapM h.field d.fields) fun _ =>
    L.bind (L.mapM h.method d.methods) fun _ => L.bind (h.onType _) fun d' =>
      L.pack (h.exitType d') fun _ => d'

theorem unit (h : Fires L t t') (u : CompilationUnit) :
    L.Holds u.firings (t.unit u) (t'.unit u) :=
  L.bind (L.mapM h.type u.types) fun _ => h.onUnit _

/-- What holds of the hooks of a transformation holds of the transformation of every
node. -/
theorem node (h : Fires L t t') (x : Node) : L.Holds x.firings (t.node x) (t'.node x) := by
  cases x with
  | unit u => exact L.map (h.unit u) Node.unit
  | type d => exact L.map (h.type d) Node.type
  | field f => exact L.map (h.field f) Node.field
  | method d => exact L.map (h.method d) Node.method
  | block b => exact L.map (h.block b) Node.block
  | stmt s => exact L.map (h.stmt s) Node.stmt
  | expr e => exact L.map (h.expr e) Node.expr

end Fires

/-! ## Notes -/

/-- Notes the firing of a hook and runs the hook. -/
def note {α : Type} (firing : Firing) (hook : m α) : StateT (List Firing) m α := do
  modify (· ++ [firing])
  hook

/-- The transformation with notes of the hooks that fire. -/
def noting (t : Transform m) : Transform (StateT (List Firing) m) where
  enterType d := note .enterType (t.enterType d)
  exitType d := note .exitType (t.exitType d)
  enterField f := note .enterField (t.enterField f)
  exitField f := note .exitField (t.exitField f)
  enterMethod d := note .enterMethod (t.enterMethod d)
  exitMethod d := note .exitMethod (t.exitMethod d)
  enterStatement s := note .enterStatement (t.enterStatement s)
  exitStatement s := note .exitStatement (t.exitStatement s)
  onUnit u := note .onUnit (t.onUnit u)
  onType d := note .onType (t.onType d)
  onField f := note .onField (t.onField f)
  onMethod d := note .onMethod (t.onMethod d)
  onBlock b := note .onBlock (t.onBlock b)
  onExpressionStmt e span := note .onExpressionStmt (t.onExpressionStmt e span)
  onReturn v span := note .onReturn (t.onReturn v span)
  onIf c a b span := note .onIf (t.onIf c a b span)
  onWhile c b span := note .onWhile (t.onWhile c b span)
  onFor i c u b span := note .onFor (t.onFor i c u b span)
  onAssert c message span := note .onAssert (t.onAssert c message span)
  onThrow v span := note .onThrow (t.onThrow v span)
  onNullLiteral type := note .onNullLiteral (t.onNullLiteral type)
  onBoolLiteral value type := note .onBoolLiteral (t.onBoolLiteral value type)
  onNumberLiteral value type := note .onNumberLiteral (t.onNumberLiteral value type)
  onStringLiteral value type := note .onStringLiteral (t.onStringLiteral value type)
  onThis type := note .onThis (t.onThis type)
  onVarRef v := note (.onVarRef v) (t.onVarRef v)
  onFieldAccess q f := note .onFieldAccess (t.onFieldAccess q f)
  onCall q target as := note .onCall (t.onCall q target as)
  onNewInstance target as := note .onNewInstance (t.onNewInstance target as)
  onBinary op l r type := note .onBinary (t.onBinary op l r type)
  onUnary op fixity x type := note .onUnary (t.onUnary op fixity x type)
  onCast type x := note .onCast (t.onCast type x)
  onConditional type c a b := note .onConditional (t.onConditional type c a b)
  onNotNull x := note .onNotNull (t.onNotNull x)
  onMulti es := note .onMulti (t.onMulti es)
  onDeclare fs := note .onDeclare (t.onDeclare fs)

/-- The computation does what the other one does, and adds the hooks of the list to the
notes. -/
def notes [LawfulMonad m] : FiringLogic (StateT (List Firing) m) m where
  Holds fired x y := ∀ before, x.run before = (fun a => (a, before ++ fired)) <$> y
  pure a := by simp
  bind hx hf := by
    intro before
    simp [hx, hf]

/-- Noting a hook does what the hook does, and adds it to the notes. -/
theorem note_notes [LawfulMonad m] {α : Type} (firing : Firing) (hook : m α) :
    notes.Holds [firing] (note firing hook) hook := by
  intro before
  simp [note]

/-- All hooks of `noting` are noted hooks of the transformation, so the general statement
applies. -/
theorem noting_fires [LawfulMonad m] (t : Transform m) : Fires notes t.noting t := by
  constructor <;> intros <;> exact note_notes _ _

/-- The hooks that fire when a node is transformed are those that the tree lists, whatever
the hooks do, and noting them changes nothing else. A node's enter hook fires before all
hooks of its parts, which fire part by part in source order, then its own hook, and
directly after it its exit hook; thus enter and exit hooks are bracketed, and the hooks
of each node fire once. -/
theorem firings_of_node [LawfulMonad m] (t : Transform m) (x : Node) :
    (∀ before, (t.noting.node x).run before =
        (fun y => (y, before ++ x.firings)) <$> t.node x) ∧
      x.firings = x.enter?.toList ++
        (x.children.flatMap Node.firings ++ (x.hook?.toList ++ x.exit?.toList)) ∧
      Balanced x.firings ∧
      x.firings.Perm (x.nodes.flatMap Node.own) :=
  ⟨t.noting_fires.node x, x.firings_eq, x.balanced_firings, x.firings_perm⟩

/-- Wraps variable references into assertions and counts them. -/
def assertVariables : Transform (StateM Nat) where
  onVarRef v := do
    modify (· + 1)
    pure (.notNull (.varRef v))

def loopVariable : Variable := { id := ⟨0, 1⟩, name := "more", type := .prim .boolean }

/-- A loop over a variable with a block around one statement. -/
def variableLoop : Node :=
  .stmt (.whileLoop (.varRef loopVariable) (.block [.expression (.varRef loopVariable) {}] {}) {})

/-- The assertions that take the place of the references are not looked at: no hook fires
for them. -/
theorem firings_of_variableLoop :
    (assertVariables.noting.node variableLoop).run [] =
      (fun y => (y, [.enterStatement, .onVarRef loopVariable, .enterStatement, .enterStatement,
        .onVarRef loopVariable, .onExpressionStmt, .exitStatement, .onBlock, .exitStatement,
        .onWhile, .exitStatement])) <$> assertVariables.node variableLoop :=
  (firings_of_node assertVariables variableLoop).1 []

end Transform

end Lowering
