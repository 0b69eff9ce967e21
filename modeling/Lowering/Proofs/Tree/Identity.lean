import Lowering.Proofs.Tree.Nodes
import Lowering.Tree.Equality

/-!
# Transformations that change nothing

A transformation takes every node apart and builds it anew. Nothing is lost on the way:
if the hooks of each node of a tree give the node back and do nothing else, so does the
transformation of the tree. In particular a transformation without hooks of its own is the
identity on units, types, methods, statements and expressions. The result is the tree
itself, spans, names and types of variables and literals that are not a number included,
and not only a tree that compares as equal.

Main statements: `Transform.givesBack_of_leaves` and `Transform.hookless_unchanged`.
-/

namespace Lowering

namespace Transform

variable {m : Type → Type} [Monad m]

/-! ## The hooks of a node -/

/-- The hook of an expression, given this expression. -/
def exprHook (t : Transform m) : Expr → m Expr
  | .nullLiteral type => t.onNullLiteral type
  | .boolLiteral value type => t.onBoolLiteral value type
  | .numberLiteral value type => t.onNumberLiteral value type
  | .stringLiteral value type => t.onStringLiteral value type
  | .thisRef type => t.onThis type
  | .varRef v => t.onVarRef v
  | .fieldAccess q f => t.onFieldAccess q f
  | .call q target as => t.onCall q target as
  | .newInstance target as => t.onNewInstance target as
  | .binary op l r type => t.onBinary op l r type
  | .unary op fixity x type => t.onUnary op fixity x type
  | .cast type x => t.onCast type x
  | .conditional type c a b => t.onConditional type c a b
  | .notNull x => t.onNotNull x
  | .multi es => t.onMulti es
  | .declare fs => t.onDeclare fs

/-- The hook of a statement, given this statement. A block statement leaves it to its
block. -/
def stmtHook (t : Transform m) : Stmt → m Stmt
  | .expression e span => t.onExpressionStmt e span
  | .block ss span => pure (.block ss span)
  | .returnValue v span => t.onReturn v span
  | .conditional c a b span => t.onIf c a b span
  | .whileLoop c b span => t.onWhile c b span
  | .forLoop i c u b span => t.onFor i c u b span
  | .assertion c message span => t.onAssert c message span
  | .throwValue v span => t.onThrow v span

/-- The hooks of a node give it back and do nothing else. -/
def Leaves (t : Transform m) : Node → Prop
  | .unit u => t.onUnit u = pure u
  | .type d => t.enterType d = pure () ∧ t.onType d = pure d ∧ t.exitType d = pure ()
  | .field f => t.enterField f = pure () ∧ t.onField f = pure f ∧ t.exitField f = pure ()
  | .method d => t.enterMethod d = pure () ∧ t.onMethod d = pure d ∧ t.exitMethod d = pure ()
  | .block b => t.onBlock b = pure b
  | .stmt s => t.enterStatement s = pure () ∧ t.stmtHook s = pure s ∧ t.exitStatement s = pure ()
  | .expr e => t.exprHook e = pure e

theorem hookless_leaves (n : Node) : ({} : Transform m).Leaves n := by
  cases n with
  | unit | block => rfl
  | type | field | method => exact ⟨rfl, rfl, rfl⟩
  | stmt s => cases s <;> exact ⟨rfl, rfl, rfl⟩
  | expr e => cases e <;> rfl

/-- The transformation gives the node back and does nothing else. -/
def GivesBack (t : Transform m) : Node → Prop
  | .unit u => t.unit u = pure u
  | .type d => t.type d = pure d
  | .field f => t.field f = pure f
  | .method d => t.method d = pure d
  | .block b => t.block b = pure b
  | .stmt s => t.stmt s = pure s
  | .expr e => t.expr e = pure e

variable [LawfulMonad m] {t : Transform m}

/-! ## Parts -/

/-- Each of the ways in which a node holds its parts passes on that the parts are given back. -/
theorem optionalExpr_eq_pure {q : Option Expr} (h : ∀ e ∈ q.toList, t.expr e = pure e) :
    t.optionalExpr q = pure q := by
  cases q with
  | none => rfl
  | some e => simp [optionalExpr, h e (by simp)]

theorem exprs_eq_pure {es : List Expr} (h : ∀ e ∈ es, t.expr e = pure e) :
    t.exprs es = pure es := by
  induction es with
  | nil => rfl
  | cons e es ih =>
    have hes : t.exprs es = pure es := ih fun x hx => h x (List.mem_cons_of_mem _ hx)
    simp [exprs, h e List.mem_cons_self, hes]

/-- Binders of declared variables are no parts: no hook sees them, and they stay. -/
theorem fragments_eq_pure {fs : List (Fragment Expr)}
    (h : ∀ e ∈ fs.filterMap (·.initializer), t.expr e = pure e) : t.fragments fs = pure fs := by
  induction fs with
  | nil => rfl
  | cons f fs ih =>
    obtain ⟨binder, initializer⟩ := f
    have hinitializer : t.optionalExpr initializer = pure initializer :=
      optionalExpr_eq_pure fun e he => h e (by
        obtain rfl := Option.mem_toList.mp he
        simp)
    have hfs : t.fragments fs = pure fs := ih fun e he => h e (by
      cases initializer <;> simp_all)
    simp [fragments, hinitializer, hfs]

theorem optionalStmt_eq_pure {s : Option Stmt} (h : ∀ x ∈ s.toList, t.stmt x = pure x) :
    t.optionalStmt s = pure s := by
  cases s with
  | none => rfl
  | some s => simp [optionalStmt, h s (by simp)]

theorem stmts_eq_pure {ss : List Stmt} (h : ∀ s ∈ ss, t.stmt s = pure s) :
    t.stmts ss = pure ss := by
  induction ss with
  | nil => rfl
  | cons s ss ih =>
    have hss : t.stmts ss = pure ss := ih fun x hx => h x (List.mem_cons_of_mem _ hx)
    simp [stmts, h s List.mem_cons_self, hss]

/-- Members of declarations are mapped by `List.mapM`, for which the same holds. -/
theorem mapM_eq_pure {α : Type} {f : α → m α} {as : List α} (h : ∀ a ∈ as, f a = pure a) :
    as.mapM f = pure as := by
  induction as with
  | nil => rfl
  | cons a as ih =>
    have has : as.mapM f = pure as := ih fun x hx => h x (List.mem_cons_of_mem _ hx)
    simp [h a List.mem_cons_self, has]

/-! ## Nodes -/

/-- An expression is given back if its hook gives it back and its children are given back. The hook
is then called with the old children, that is on the expression itself. -/
theorem expr_eq_pure {e : Expr} (hhook : t.exprHook e = pure e)
    (hparts : ∀ c ∈ e.children, t.expr c = pure c) : t.expr e = pure e := by
  cases e with
  | nullLiteral | boolLiteral | numberLiteral | stringLiteral | thisRef | varRef => exact hhook
  | fieldAccess q f =>
    have hq : t.optionalExpr q = pure q := optionalExpr_eq_pure hparts
    simp only [expr, hq, pure_bind]
    exact hhook
  | call q target as =>
    have hq : t.optionalExpr q = pure q :=
      optionalExpr_eq_pure fun c hc => hparts c (List.mem_append_left _ hc)
    have has : t.exprs as = pure as :=
      exprs_eq_pure fun c hc => hparts c (List.mem_append_right _ hc)
    simp only [expr, hq, has, pure_bind]
    exact hhook
  | newInstance target as =>
    have has : t.exprs as = pure as := exprs_eq_pure hparts
    simp only [expr, has, pure_bind]
    exact hhook
  | binary op l r type =>
    simp only [expr, hparts l (by simp [Expr.children]), hparts r (by simp [Expr.children]),
      pure_bind]
    exact hhook
  | unary op fixity x type =>
    simp only [expr, hparts x List.mem_cons_self, pure_bind]
    exact hhook
  | cast type x =>
    simp only [expr, hparts x List.mem_cons_self, pure_bind]
    exact hhook
  | conditional type c a b =>
    simp only [expr, hparts c (by simp [Expr.children]), hparts a (by simp [Expr.children]),
      hparts b (by simp [Expr.children]), pure_bind]
    exact hhook
  | notNull x =>
    simp only [expr, hparts x List.mem_cons_self, pure_bind]
    exact hhook
  | multi es =>
    have hes : t.exprs es = pure es := exprs_eq_pure hparts
    simp only [expr, hes, pure_bind]
    exact hhook
  | declare fs =>
    have hfs : t.fragments fs = pure fs := fragments_eq_pure hparts
    simp only [expr, hfs, pure_bind]
    exact hhook

/-- A statement between its enter and exit hooks. -/
theorem bracketed_eq_pure {s : Stmt} {inner : m Stmt} (henter : t.enterStatement s = pure ())
    (hinner : inner = pure s) (hexit : t.exitStatement s = pure ()) :
    t.bracketed s inner = pure s := by
  simp [bracketed, henter, hinner, hexit]

/-- A statement is given back if its three hooks leave it alone and its parts are given back. -/
theorem stmt_eq_pure {s : Stmt} (hleaves : t.Leaves (.stmt s))
    (hparts : ∀ c ∈ s.parts, t.GivesBack c) : t.stmt s = pure s := by
  obtain ⟨henter, hhook, hexit⟩ := hleaves
  cases s with
  | expression e span =>
    have he : t.expr e = pure e := hparts (.expr e) List.mem_cons_self
    refine bracketed_eq_pure henter ?_ hexit
    simp only [he, pure_bind]
    exact hhook
  -- A block statement has no hook of its own but that of its block.
  | block ss span =>
    have hblock : t.block { statements := ss, span } = pure { statements := ss, span } :=
      hparts (.block _) List.mem_cons_self
    refine bracketed_eq_pure henter ?_ hexit
    -- The statement packs what its block has become.
    calc (do
          let statements ← t.stmts ss
          let block ← t.onBlock { statements, span }
          pure (Stmt.block block.statements block.span))
        = t.block { statements := ss, span } >>= fun block =>
            pure (Stmt.block block.statements block.span) := by simp [Transform.block]
      _ = pure (.block ss span) := by rw [hblock, pure_bind]
  | returnValue v span =>
    have hv : t.optionalExpr v = pure v := optionalExpr_eq_pure fun e he =>
      hparts (.expr e) (List.mem_map_of_mem he)
    refine bracketed_eq_pure henter ?_ hexit
    simp only [hv, pure_bind]
    exact hhook
  | conditional c a b span =>
    have hc : t.expr c = pure c := hparts (.expr c) (by simp [Stmt.parts])
    have ha : t.stmt a = pure a := hparts (.stmt a) (by simp [Stmt.parts])
    have hb : t.optionalStmt b = pure b := optionalStmt_eq_pure fun s hs =>
      hparts (.stmt s) (by simp_all [Stmt.parts])
    refine bracketed_eq_pure henter ?_ hexit
    simp only [hc, ha, hb, pure_bind]
    exact hhook
  | whileLoop c b span =>
    have hc : t.expr c = pure c := hparts (.expr c) (by simp [Stmt.parts])
    have hb : t.stmt b = pure b := hparts (.stmt b) (by simp [Stmt.parts])
    refine bracketed_eq_pure henter ?_ hexit
    simp only [hc, hb, pure_bind]
    exact hhook
  | forLoop i c u b span =>
    have hi : t.exprs i = pure i := exprs_eq_pure fun e he =>
      hparts (.expr e) (by simp [Stmt.parts, he])
    have hc : t.optionalExpr c = pure c := optionalExpr_eq_pure fun e he =>
      hparts (.expr e) (by simp_all [Stmt.parts])
    have hu : t.exprs u = pure u := exprs_eq_pure fun e he =>
      hparts (.expr e) (by simp [Stmt.parts, he])
    have hb : t.stmt b = pure b := hparts (.stmt b) (by simp [Stmt.parts])
    refine bracketed_eq_pure henter ?_ hexit
    simp only [hi, hc, hu, hb, pure_bind]
    exact hhook
  | assertion c message span =>
    have hc : t.expr c = pure c := hparts (.expr c) (by simp [Stmt.parts])
    have hmessage : t.optionalExpr message = pure message := optionalExpr_eq_pure fun e he =>
      hparts (.expr e) (by simp_all [Stmt.parts])
    refine bracketed_eq_pure henter ?_ hexit
    simp only [hc, hmessage, pure_bind]
    exact hhook
  | throwValue v span =>
    have hv : t.expr v = pure v := hparts (.expr v) List.mem_cons_self
    refine bracketed_eq_pure henter ?_ hexit
    simp only [hv, pure_bind]
    exact hhook

/-- What the hooks of a node leave alone is given back, if its parts are. -/
theorem givesBack_of_parts {n : Node} (hleaves : t.Leaves n)
    (hparts : ∀ c ∈ n.children, t.GivesBack c) : t.GivesBack n := by
  cases n with
  | unit u =>
    have htypes : u.types.mapM t.type = pure u.types := mapM_eq_pure fun d hd =>
      hparts (.type d) (List.mem_map_of_mem hd)
    show t.unit u = pure u
    simp only [unit, htypes, pure_bind]
    exact hleaves
  | type d =>
    obtain ⟨henter, hhook, hexit⟩ := hleaves
    have hfields : d.fields.mapM t.field = pure d.fields := mapM_eq_pure fun f hf =>
      hparts (.field f) (List.mem_append_left _ (List.mem_map_of_mem hf))
    have hmethods : d.methods.mapM t.method = pure d.methods := mapM_eq_pure fun x hx =>
      hparts (.method x) (List.mem_append_right _ (List.mem_map_of_mem hx))
    show t.type d = pure d
    simp only [type, henter, hfields, hmethods, hhook, hexit, pure_bind]
  | field f =>
    obtain ⟨henter, hhook, hexit⟩ := hleaves
    have hinitializer : t.optionalExpr f.initializer = pure f.initializer :=
      optionalExpr_eq_pure fun e he => hparts (.expr e) (List.mem_map_of_mem he)
    show t.field f = pure f
    simp only [field, henter, hinitializer, hhook, hexit, pure_bind]
  -- A method has at most one part, its body.
  | method d =>
    obtain ⟨henter, hhook, hexit⟩ := hleaves
    have hbody : t.optionalBlock d.body = pure d.body := by
      cases hd : d.body with
      | none => rfl
      | some b =>
        have hb : t.block b = pure b := hparts (.block b) (by simp [Node.children, hd])
        simp only [optionalBlock, hb, pure_bind]
    show t.method d = pure d
    simp only [method, henter, hbody, hhook, hexit, pure_bind]
  | block b =>
    have hss : t.stmts b.statements = pure b.statements := stmts_eq_pure fun s hs =>
      hparts (.stmt s) (List.mem_map_of_mem hs)
    show t.block b = pure b
    simp only [block, hss, pure_bind]
    exact hleaves
  | stmt s => exact stmt_eq_pure hleaves hparts
  | expr e =>
    exact expr_eq_pure hleaves fun c hc => hparts (.expr c) (List.mem_map_of_mem hc)

/-- A transformation that leaves every node of a tree alone gives the tree back. -/
theorem givesBack_of_leaves (n : Node) (h : ∀ x ∈ n.nodes, t.Leaves x) : t.GivesBack n := by
  induction n using Node.childInduction with
  | step n ih =>
    -- The induction is over nodes of all kinds at once, so each kind is dealt with in
    -- `givesBack_of_parts` only.
    rw [Node.nodes_eq] at h
    refine givesBack_of_parts (h n List.mem_cons_self) fun c hc => ih c hc fun x hx => ?_
    exact h x (List.mem_cons_of_mem _ (List.mem_flatMap.mpr ⟨c, hc, hx⟩))

/-! ## No hooks -/

/-- A transformation without hooks of its own gives back every unit, type, method,
statement and expression, and does nothing else. -/
theorem hookless_unchanged :
    (∀ u, ({} : Transform m).unit u = pure u) ∧ (∀ d, ({} : Transform m).type d = pure d) ∧
      (∀ d, ({} : Transform m).method d = pure d) ∧ (∀ s, ({} : Transform m).stmt s = pure s) ∧
      ∀ e, ({} : Transform m).expr e = pure e := by
  have hgivesBack : ∀ n : Node, ({} : Transform m).GivesBack n := fun n =>
    givesBack_of_leaves n fun x _ => hookless_leaves x
  exact ⟨fun u => hgivesBack (.unit u), fun d => hgivesBack (.type d),
    fun d => hgivesBack (.method d), fun s => hgivesBack (.stmt s), fun e => hgivesBack (.expr e)⟩

/-- A statement with a literal that is not a number. -/
def undefinedReturn : Stmt := .returnValue (some (.ofDouble ⟨0x7ff8000000000000⟩)) {}

/-- The statement is given back as it is, although it does not compare as equal to
itself. -/
theorem undefinedReturn_unchanged :
    ({} : Transform (StateM Nat)).stmt undefinedReturn = pure undefinedReturn ∧
      (undefinedReturn == undefinedReturn) = false :=
  ⟨hookless_unchanged.2.2.2.1 undefinedReturn, by decide⟩

end Transform

end Lowering
