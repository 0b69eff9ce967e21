import Lowering.Proofs.Tree.Subterms
import Lowering.Tree.Transform

/-!
# How a transformation relates its input to its output

A bottom-up transformation is described by a relation between expressions and
their results. The module lifts such a relation through statements and
declarations, and shows once for all transformations that a relation which every
hook establishes holds between the whole input and the whole output.

Computations are judged by a `PostLogic`: any notion of "whatever this
computation returns satisfies `Q`" that is closed under `pure` and `bind`.

Main statements:

- `Transform.expr_tracks`, `Transform.stmt_tracks`, `Transform.unit_tracks`: if
  the hooks keep up the relation, the traversal does.
- `Stmt.Related.comp`: the relations of two traversals in a row compose.
-/

namespace Lowering

/-! ## Judging computations -/

/-- A notion of "every result of this computation satisfies `Q`". In `bind`, what
is known of the first result is an assumption inside the second postcondition, so
that a logic may make postconditions depend on the final state. -/
structure PostLogic (m : Type → Type) [Monad m] where
  Holds : {α : Type} → m α → (α → Prop) → Prop
  pure : ∀ {α : Type} {a : α} {Q : α → Prop}, Q a → Holds (Pure.pure a) Q
  bind : ∀ {α β : Type} {x : m α} {f : α → m β} {Q : α → Prop} {Q' : β → Prop},
    Holds x Q → (∀ a, Holds (f a) fun b => Q a → Q' b) → Holds (x >>= f) Q'
  imp : ∀ {α : Type} {x : m α} {Q Q' : α → Prop}, Holds x Q → (∀ a, Q a → Q' a) → Holds x Q'

namespace PostLogic

variable {m : Type → Type} [Monad m] (L : PostLogic m)

/-- What holds of the results one by one holds of all results of a pass over a
list. -/
theorem mapM [LawfulMonad m] {α β : Type} {f : α → m β} {R : α → β → Prop}
    (h : ∀ a, L.Holds (f a) (R a)) (as : List α) :
    L.Holds (as.mapM f) (List.Forall₂ R as) := by
  induction as with
  | nil =>
    rw [List.mapM_nil]
    exact L.pure List.Forall₂.nil
  | cons a as ih =>
    rw [List.mapM_cons]
    -- The postconditions of the two binds arrive as assumptions, the inner one first.
    refine L.bind (h a) fun b => L.bind ih fun bs => L.pure ?_
    intro hbs hb
    exact List.Forall₂.cons hb hbs

end PostLogic

/-! ## Relations on lists and options -/

/-- A relation between lists may be weakened with knowledge of the left members, as inductions over
children need it: the induction hypothesis speaks of members only. -/
theorem forall₂_imp_of_mem {α β : Type} {R Q : α → β → Prop} {as : List α} {bs : List β}
    (h : List.Forall₂ R as bs) (himp : ∀ a ∈ as, ∀ b, R a b → Q a b) : List.Forall₂ Q as bs := by
  induction h with
  | nil => exact .nil
  | cons hab _ ih =>
    exact .cons (himp _ List.mem_cons_self _ hab)
      (ih fun a ha => himp a (List.mem_cons_of_mem _ ha))

/-- The same for options, whose member is written as a member of a list of at most one. -/
theorem optionRel_imp_of_mem {α β : Type} {R Q : α → β → Prop} {a : Option α} {b : Option β}
    (h : Option.Rel R a b) (himp : ∀ x ∈ a.toList, ∀ y, R x y → Q x y) : Option.Rel Q a b := by
  cases h with
  | none => exact .none
  | some hxy => exact .some (himp _ (by simp) _ hxy)

/-- Relations between lists compose member by member, again with knowledge of the left members. -/
theorem forall₂_comp_of_mem {α β γ : Type} {R : α → β → Prop} {S : β → γ → Prop}
    {Q : α → γ → Prop} {as : List α} {bs : List β} {cs : List γ}
    (h : List.Forall₂ R as bs) (h' : List.Forall₂ S bs cs)
    (hcomp : ∀ a ∈ as, ∀ b c, R a b → S b c → Q a c) : List.Forall₂ Q as cs := by
  -- The lists have one length, so the second relation is taken apart along with the first.
  induction h generalizing cs with
  | nil =>
    cases h'
    exact .nil
  | cons hab _ ih =>
    cases h' with
    | cons hbc htail =>
      exact .cons (hcomp _ List.mem_cons_self _ _ hab hbc)
        (ih htail fun a ha => hcomp a (List.mem_cons_of_mem _ ha))

theorem optionRel_comp_of_mem {α β γ : Type} {R : α → β → Prop} {S : β → γ → Prop}
    {Q : α → γ → Prop} {a : Option α} {b : Option β} {c : Option γ}
    (h : Option.Rel R a b) (h' : Option.Rel S b c)
    (hcomp : ∀ x ∈ a.toList, ∀ y z, R x y → S y z → Q x z) : Option.Rel Q a c := by
  cases h with
  | none =>
    cases h'
    exact .none
  | some hxy =>
    cases h' with
    | some hyz => exact .some (hcomp _ (by simp) _ _ hxy hyz)

/-- Every member on the right has its partner on the left. For the other direction the relation is
flipped. -/
theorem exists_of_mem_forall₂ {α β : Type} {R : α → β → Prop} {as : List α} {bs : List β}
    (h : List.Forall₂ R as bs) {b : β} (hb : b ∈ bs) : ∃ a ∈ as, R a b := by
  induction h with
  | nil => cases hb
  | cons hab _ ih =>
    rcases List.mem_cons.mp hb with rfl | hb
    · exact ⟨_, List.mem_cons_self, hab⟩
    · obtain ⟨a, ha, hab⟩ := ih hb
      exact ⟨a, List.mem_cons_of_mem _ ha, hab⟩

theorem forall₂_toList {α β : Type} {R : α → β → Prop} {a : Option α} {b : Option β}
    (h : Option.Rel R a b) : List.Forall₂ R a.toList b.toList := by
  cases h with
  | none => exact .nil
  | some hxy => exact .cons hxy .nil

/-- Related lists end in related members, or both are empty. -/
theorem forall₂_getLast? {α β : Type} {R : α → β → Prop} {as : List α} {bs : List β}
    (h : List.Forall₂ R as bs) : Option.Rel R as.getLast? bs.getLast? := by
  induction h with
  | nil => exact .none
  | cons hab htail ih =>
    cases htail with
    | nil => exact .some hab
    -- Neither list ends here, so both last members are those of the tails.
    | cons _ _ => rwa [List.getLast?_cons_cons, List.getLast?_cons_cons]

/-! ## Relations on parts of trees -/

/-- The same variable, with related initializers. -/
inductive Fragment.Rel {ε ε' : Type} (R : ε → ε' → Prop) : Fragment ε → Fragment ε' → Prop where
  | mk {binder : Variable} {i : Option ε} {i' : Option ε'} :
      Option.Rel R i i' → Fragment.Rel R ⟨binder, i⟩ ⟨binder, i'⟩

theorem eq_of_optionRel {α : Type} {a b : Option α} (h : Option.Rel Eq a b) : a = b := by
  cases h with
  | none => rfl
  | some h => rw [h]

theorem eq_of_forall₂ {α : Type} {as bs : List α} (h : List.Forall₂ Eq as bs) : as = bs := by
  rwa [List.forall₂_eq_eq_eq] at h

/-- Equality of initializers, lifted to declarations, is equality, since related fragments have one
binder. -/
theorem eq_of_fragments {ε : Type} {fs fs' : List (Fragment ε)}
    (h : List.Forall₂ (Fragment.Rel Eq) fs fs') : fs = fs' := by
  induction h with
  | nil => rfl
  | cons hf _ ih =>
    cases hf with
    | mk hi => rw [ih, eq_of_optionRel hi]

/-- What happens to the expressions of statements, by the role that they have. -/
structure StmtSteps where
  /-- An expression whose value is not used. -/
  plain : Expr → Expr → Prop
  /-- A returned value. -/
  result : Expr → Expr → Prop
  /-- A condition of a branch, a loop or an assertion. -/
  condition : Expr → Expr → Prop
  /-- A thrown value. -/
  thrown : Expr → Expr → Prop
  /-- The message of an assertion. -/
  message : Expr → Expr → Prop

namespace Stmt

/-- Statements of the same form and spans whose expressions are related. -/
inductive Related (S : StmtSteps) : Stmt → Stmt → Prop where
  | expression {e e' : Expr} {span : Span} :
      S.plain e e' → Related S (.expression e span) (.expression e' span)
  | block {ss ss' : List Stmt} {span : Span} :
      List.Forall₂ (Related S) ss ss' → Related S (.block ss span) (.block ss' span)
  | returnValue {v v' : Option Expr} {span : Span} :
      Option.Rel S.result v v' → Related S (.returnValue v span) (.returnValue v' span)
  | conditional {c c' : Expr} {a a' : Stmt} {b b' : Option Stmt} {span : Span} :
      S.condition c c' → Related S a a' → Option.Rel (Related S) b b' →
      Related S (.conditional c a b span) (.conditional c' a' b' span)
  | whileLoop {c c' : Expr} {b b' : Stmt} {span : Span} :
      S.condition c c' → Related S b b' → Related S (.whileLoop c b span) (.whileLoop c' b' span)
  | forLoop {i i' : List Expr} {c c' : Option Expr} {u u' : List Expr} {b b' : Stmt} {span : Span} :
      List.Forall₂ S.plain i i' → Option.Rel S.condition c c' → List.Forall₂ S.plain u u' →
      Related S b b' → Related S (.forLoop i c u b span) (.forLoop i' c' u' b' span)
  | assertion {c c' : Expr} {m m' : Option Expr} {span : Span} :
      S.condition c c' → Option.Rel S.message m m' →
      Related S (.assertion c m span) (.assertion c' m' span)
  | throwValue {v v' : Expr} {span : Span} :
      S.thrown v v' → Related S (.throwValue v span) (.throwValue v' span)

end Stmt

/-- What happens to the expressions of a unit. -/
structure UnitSteps where
  initializer : FieldRef → Expr → Expr → Prop
  statement : MethodRef → StmtSteps

/-- The same field with a related initializer. -/
structure FieldDecl.Related (U : UnitSteps) (f f' : FieldDecl) : Prop where
  ref : f'.ref = f.ref
  span : f'.span = f.span
  initializer : Option.Rel (U.initializer f.ref) f.initializer f'.initializer

/-- Bodies with the same span and related statements. -/
structure Block.Related (S : StmtSteps) (b b' : Block) : Prop where
  span : b'.span = b.span
  statements : List.Forall₂ (Stmt.Related S) b.statements b'.statements

/-- The same method with a related body. -/
structure MethodDecl.Related (U : UnitSteps) (d d' : MethodDecl) : Prop where
  ref : d'.ref = d.ref
  parameters : d'.parameters = d.parameters
  span : d'.span = d.span
  body : Option.Rel (Block.Related (U.statement d.ref)) d.body d'.body

/-- The same type with related members. -/
structure TypeDecl.Related (U : UnitSteps) (d d' : TypeDecl) : Prop where
  ref : d'.ref = d.ref
  superclass : d'.superclass = d.superclass
  interfaces : d'.interfaces = d.interfaces
  span : d'.span = d.span
  fields : List.Forall₂ (FieldDecl.Related U) d.fields d'.fields
  methods : List.Forall₂ (MethodDecl.Related U) d.methods d'.methods

/-- The same unit with related types. -/
structure CompilationUnit.Related (U : UnitSteps) (u u' : CompilationUnit) : Prop where
  name : u'.name = u.name
  types : List.Forall₂ (TypeDecl.Related U) u.types u'.types

/-! ## Expressions -/

namespace Transform

variable {m : Type → Type} [Monad m]

/-- The expression hooks keep up the relation: when the parts of a node are
related to what took their place, the node is related to what its hook returns. -/
structure TracksExpr (L : PostLogic m) (t : Transform m) (R : Expr → Expr → Prop) : Prop where
  nullLiteral (type : Ty) : L.Holds (t.onNullLiteral type) (R (.nullLiteral type))
  boolLiteral (value : Bool) (type : Ty) :
    L.Holds (t.onBoolLiteral value type) (R (.boolLiteral value type))
  numberLiteral (value : NumberValue) (type : Ty) :
    L.Holds (t.onNumberLiteral value type) (R (.numberLiteral value type))
  stringLiteral (value : String) (type : Ty) :
    L.Holds (t.onStringLiteral value type) (R (.stringLiteral value type))
  thisRef (type : Ty) : L.Holds (t.onThis type) (R (.thisRef type))
  varRef (v : Variable) : L.Holds (t.onVarRef v) (R (.varRef v))
  fieldAccess (q q' : Option Expr) (f : FieldRef) :
    L.Holds (t.onFieldAccess q' f) fun e => Option.Rel R q q' → R (.fieldAccess q f) e
  call (q q' : Option Expr) (target : MethodRef) (as as' : List Expr) :
    L.Holds (t.onCall q' target as') fun e =>
      Option.Rel R q q' → List.Forall₂ R as as' → R (.call q target as) e
  newInstance (target : MethodRef) (as as' : List Expr) :
    L.Holds (t.onNewInstance target as') fun e =>
      List.Forall₂ R as as' → R (.newInstance target as) e
  binary (op : BinaryOp) (l l' r r' : Expr) (type : Ty) :
    L.Holds (t.onBinary op l' r' type) fun e => R l l' → R r r' → R (.binary op l r type) e
  unary (op : UnaryOp) (fixity : Fixity) (x x' : Expr) (type : Ty) :
    L.Holds (t.onUnary op fixity x' type) fun e => R x x' → R (.unary op fixity x type) e
  cast (type : Ty) (x x' : Expr) : L.Holds (t.onCast type x') fun e => R x x' → R (.cast type x) e
  conditional (type : Ty) (c c' a a' b b' : Expr) :
    L.Holds (t.onConditional type c' a' b') fun e =>
      R c c' → R a a' → R b b' → R (.conditional type c a b) e
  notNull (x x' : Expr) : L.Holds (t.onNotNull x') fun e => R x x' → R (.notNull x) e
  multi (es es' : List Expr) :
    L.Holds (t.onMulti es') fun e => List.Forall₂ R es es' → R (.multi es) e
  declare (fs fs' : List (Fragment Expr)) :
    L.Holds (t.onDeclare fs') fun e => List.Forall₂ (Fragment.Rel R) fs fs' → R (.declare fs) e

section Expressions

variable {L : PostLogic m} {t : Transform m} {R : Expr → Expr → Prop}

mutual

/-- If every expression hook keeps up the relation, so does the traversal of whole expressions. The
induction is structural, with helpers for the three ways in which expressions hold others. -/
theorem expr_tracks (h : TracksExpr L t R) : ∀ e : Expr, L.Holds (t.expr e) (R e)
  | .nullLiteral type => h.nullLiteral type
  | .boolLiteral value type => h.boolLiteral value type
  | .numberLiteral value type => h.numberLiteral value type
  | .stringLiteral value type => h.stringLiteral value type
  | .thisRef type => h.thisRef type
  | .varRef v => h.varRef v
  | .fieldAccess q f => L.bind (optionalExpr_tracks h q) fun q' => h.fieldAccess q q' f
  | .call q target as =>
    L.bind (optionalExpr_tracks h q) fun q' =>
      L.bind (exprs_tracks h as) fun as' =>
        -- The logic hands over what it knows of the last part first.
        L.imp (h.call q q' target as as') fun _ hcall has hq => hcall hq has
  | .newInstance target as => L.bind (exprs_tracks h as) fun as' => h.newInstance target as as'
  | .binary op l r type =>
    L.bind (expr_tracks h l) fun l' =>
      L.bind (expr_tracks h r) fun r' =>
        -- As above, the operands are known in the order opposite to that of the hook.
        L.imp (h.binary op l l' r r' type) fun _ hbinary hr hl => hbinary hl hr
  | .unary op fixity x type => L.bind (expr_tracks h x) fun x' => h.unary op fixity x x' type
  | .cast type x => L.bind (expr_tracks h x) fun x' => h.cast type x x'
  | .conditional type c a b =>
    L.bind (expr_tracks h c) fun c' =>
      L.bind (expr_tracks h a) fun a' =>
        L.bind (expr_tracks h b) fun b' =>
          L.imp (h.conditional type c c' a a' b b') fun _ hcond hb ha hc => hcond hc ha hb
  | .notNull x => L.bind (expr_tracks h x) fun x' => h.notNull x x'
  | .multi es => L.bind (exprs_tracks h es) fun es' => h.multi es es'
  | .declare fs => L.bind (fragments_tracks h fs) fun fs' => h.declare fs fs'
termination_by structural e => e

theorem optionalExpr_tracks (h : TracksExpr L t R) :
    ∀ q : Option Expr, L.Holds (t.optionalExpr q) (Option.Rel R q)
  | none => L.pure .none
  | some e => L.bind (expr_tracks h e) fun _ => L.pure fun he => .some he
termination_by structural q => q

theorem exprs_tracks (h : TracksExpr L t R) :
    ∀ es : List Expr, L.Holds (t.exprs es) (List.Forall₂ R es)
  | [] => L.pure .nil
  | e :: es =>
    L.bind (expr_tracks h e) fun _ =>
      L.bind (exprs_tracks h es) fun _ => L.pure fun hes he => .cons he hes
termination_by structural es => es

theorem fragments_tracks (h : TracksExpr L t R) :
    ∀ fs : List (Fragment Expr), L.Holds (t.fragments fs) (List.Forall₂ (Fragment.Rel R) fs)
  | [] => L.pure .nil
  | ⟨_, i⟩ :: fs =>
    L.bind (optionalExpr_tracks h i) fun _ =>
      L.bind (fragments_tracks h fs) fun _ => L.pure fun hfs hi => .cons (.mk hi) hfs
termination_by structural fs => fs

end

end Expressions

/-! ## Statements -/

/-- The statement hooks turn related expressions into related statements. -/
structure TracksStmt (L : PostLogic m) (t : Transform m) (R : Expr → Expr → Prop)
    (S : StmtSteps) : Prop where
  enter (s : Stmt) : L.Holds (t.enterStatement s) fun _ => True
  exit (s : Stmt) : L.Holds (t.exitStatement s) fun _ => True
  block (b : Block) : L.Holds (t.onBlock b) (· = b)
  expression (e e' : Expr) (span : Span) :
    L.Holds (t.onExpressionStmt e' span) fun s => R e e' → Stmt.Related S (.expression e span) s
  returnValue (v v' : Option Expr) (span : Span) :
    L.Holds (t.onReturn v' span) fun s =>
      Option.Rel R v v' → Stmt.Related S (.returnValue v span) s
  conditional (c c' : Expr) (a a' : Stmt) (b b' : Option Stmt) (span : Span) :
    L.Holds (t.onIf c' a' b' span) fun s =>
      R c c' → Stmt.Related S a a' → Option.Rel (Stmt.Related S) b b' →
        Stmt.Related S (.conditional c a b span) s
  whileLoop (c c' : Expr) (b b' : Stmt) (span : Span) :
    L.Holds (t.onWhile c' b' span) fun s =>
      R c c' → Stmt.Related S b b' → Stmt.Related S (.whileLoop c b span) s
  forLoop (i i' : List Expr) (c c' : Option Expr) (u u' : List Expr) (b b' : Stmt) (span : Span) :
    L.Holds (t.onFor i' c' u' b' span) fun s =>
      List.Forall₂ R i i' → Option.Rel R c c' → List.Forall₂ R u u' → Stmt.Related S b b' →
        Stmt.Related S (.forLoop i c u b span) s
  assertion (c c' : Expr) (message message' : Option Expr) (span : Span) :
    L.Holds (t.onAssert c' message' span) fun s =>
      R c c' → Option.Rel R message message' → Stmt.Related S (.assertion c message span) s
  throwValue (v v' : Expr) (span : Span) :
    L.Holds (t.onThrow v' span) fun s => R v v' → Stmt.Related S (.throwValue v span) s

section Statements

variable {L : PostLogic m} {t : Transform m} {R : Expr → Expr → Prop} {S : StmtSteps}

/-- Entering and leaving a statement has no part in the result, so what is known of the inside is
known of the whole. -/
theorem bracketed_tracks (h : TracksStmt L t R S) (s : Stmt) {inner : m Stmt} {Q : Stmt → Prop}
    (hinner : L.Holds inner Q) : L.Holds (t.bracketed s inner) Q :=
  L.bind (h.enter s) fun _ =>
    L.bind hinner fun result =>
      L.bind (h.exit result) fun _ => L.pure fun _ hQ _ => hQ

mutual

/-- If the hooks of statements turn related expressions into related statements, the traversal of a
statement relates it to its result. -/
theorem stmt_tracks (he : TracksExpr L t R) (h : TracksStmt L t R S) :
    ∀ s : Stmt, L.Holds (t.stmt s) (Stmt.Related S s)
  | .expression e span =>
    bracketed_tracks h _ (L.bind (expr_tracks he e) fun e' => h.expression e e' span)
  | .block ss span =>
    bracketed_tracks h _ (L.bind (stmts_tracks he h ss) fun _ =>
      -- The hook for blocks returns its argument, so that the block has the new statements.
      L.bind (h.block _) fun _ => L.pure fun hb hss => by subst hb; exact .block hss)
  | .returnValue v span =>
    bracketed_tracks h _ (L.bind (optionalExpr_tracks he v) fun v' => h.returnValue v v' span)
  | .conditional c a b span =>
    bracketed_tracks h _ (L.bind (expr_tracks he c) fun c' =>
      L.bind (stmt_tracks he h a) fun a' =>
        L.bind (optionalStmt_tracks he h b) fun b' =>
          L.imp (h.conditional c c' a a' b b' span) fun _ hcond hb ha hc => hcond hc ha hb)
  | .whileLoop c b span =>
    bracketed_tracks h _ (L.bind (expr_tracks he c) fun c' =>
      L.bind (stmt_tracks he h b) fun b' =>
        L.imp (h.whileLoop c c' b b' span) fun _ hwhile hb hc => hwhile hc hb)
  | .forLoop i c u b span =>
    bracketed_tracks h _ (L.bind (exprs_tracks he i) fun i' =>
      L.bind (optionalExpr_tracks he c) fun c' =>
        L.bind (exprs_tracks he u) fun u' =>
          L.bind (stmt_tracks he h b) fun b' =>
            L.imp (h.forLoop i i' c c' u u' b b' span) fun _ hfor hb hu hc hi => hfor hi hc hu hb)
  | .assertion c message span =>
    bracketed_tracks h _ (L.bind (expr_tracks he c) fun c' =>
      L.bind (optionalExpr_tracks he message) fun message' =>
        L.imp (h.assertion c c' message message' span) fun _ hassert hm hc => hassert hc hm)
  | .throwValue v span =>
    bracketed_tracks h _ (L.bind (expr_tracks he v) fun v' => h.throwValue v v' span)
termination_by structural s => s

theorem optionalStmt_tracks (he : TracksExpr L t R) (h : TracksStmt L t R S) :
    ∀ s : Option Stmt, L.Holds (t.optionalStmt s) (Option.Rel (Stmt.Related S) s)
  | none => L.pure .none
  | some s => L.bind (stmt_tracks he h s) fun _ => L.pure fun hs => .some hs
termination_by structural s => s

theorem stmts_tracks (he : TracksExpr L t R) (h : TracksStmt L t R S) :
    ∀ ss : List Stmt, L.Holds (t.stmts ss) (List.Forall₂ (Stmt.Related S) ss)
  | [] => L.pure .nil
  | s :: ss =>
    L.bind (stmt_tracks he h s) fun _ =>
      L.bind (stmts_tracks he h ss) fun _ => L.pure fun hss hs => .cons hs hss
termination_by structural ss => ss

end

/-- Bodies of methods are related if their statements are; methods without body stay without. -/
theorem optionalBlock_tracks (he : TracksExpr L t R) (h : TracksStmt L t R S) (b : Option Block) :
    L.Holds (t.optionalBlock b) (Option.Rel (Block.Related S) b) := by
  cases b with
  | none => exact L.pure .none
  | some b =>
    have hblock : L.Holds (t.block b) (Block.Related S b) :=
      L.bind (stmts_tracks he h b.statements) fun _ =>
        L.imp (h.block _) fun _ hb hss => by subst hb; exact ⟨rfl, hss⟩
    exact L.bind hblock fun _ => L.pure fun hb => .some hb

end Statements

/-! ## Declarations -/

/-- The hooks of declarations leave related members as they are. -/
structure TracksUnit (L : PostLogic m) (t : Transform m) (U : UnitSteps) : Prop where
  enterType (d : TypeDecl) : L.Holds (t.enterType d) fun _ => True
  exitType (d : TypeDecl) : L.Holds (t.exitType d) fun _ => True
  field (f : FieldDecl) : L.Holds (t.field f) (FieldDecl.Related U f)
  method (d : MethodDecl) : L.Holds (t.method d) (MethodDecl.Related U d)
  onType (d : TypeDecl) : L.Holds (t.onType d) (· = d)
  onUnit (u : CompilationUnit) : L.Holds (t.onUnit u) (· = u)

/-- Traversing a type keeps all of its data and relates its members one by one. -/
theorem type_tracks [LawfulMonad m] {L : PostLogic m} {t : Transform m} {U : UnitSteps}
    (h : TracksUnit L t U) (d : TypeDecl) : L.Holds (t.type d) (TypeDecl.Related U d) := by
  refine L.bind (h.enterType d) fun _ => L.bind (L.mapM h.field d.fields) fun fields =>
    L.bind (L.mapM h.method d.methods) fun methods => L.bind (h.onType _) fun result =>
      L.bind (h.exitType result) fun _ => L.pure ?_
  -- Again the postconditions arrive in reverse order, those of entering and leaving being trivial.
  intro _ hresult hmethods hfields _
  subst hresult
  exact ⟨rfl, rfl, rfl, rfl, hfields, hmethods⟩

/-- Traversing a unit relates it to its result, if the hooks of declarations leave related members
as they are. -/
theorem unit_tracks [LawfulMonad m] {L : PostLogic m} {t : Transform m} {U : UnitSteps}
    (h : TracksUnit L t U) (u : CompilationUnit) :
    L.Holds (t.unit u) (CompilationUnit.Related U u) := by
  refine L.bind (L.mapM (type_tracks h) u.types) fun types => L.imp (h.onUnit _) ?_
  intro result hresult htypes
  subst hresult
  exact ⟨rfl, htypes⟩

end Transform

/-! ## Parts of related trees -/

/-- What happens to an expression in some role. -/
def StmtSteps.Any (S : StmtSteps) (e e' : Expr) : Prop :=
  S.plain e e' ∨ S.result e e' ∨ S.condition e e' ∨ S.thrown e e' ∨ S.message e e'

def UnitSteps.Any (U : UnitSteps) (e e' : Expr) : Prop :=
  (∃ f, U.initializer f e e') ∨ ∃ d, (U.statement d).Any e e'

namespace Stmt.Related

variable {S : StmtSteps} {s s' : Stmt}

/-- Related statements have related statements inside, in the same places. -/
theorem children (h : Related S s s') : List.Forall₂ (Related S) s.children s'.children := by
  cases h with
  | block hss => exact hss
  | conditional _ ha hb => exact .cons ha (forall₂_toList hb)
  | whileLoop _ hb => exact .cons hb .nil
  | forLoop _ _ _ hb => exact .cons hb .nil
  | expression _ | returnValue _ | assertion _ _ | throwValue _ => exact .nil

/-- Related statements have related expressions, each by the step of its role. -/
theorem expressions (h : Related S s s') : List.Forall₂ S.Any s.expressions s'.expressions := by
  have hplain : ∀ e e', S.plain e e' → S.Any e e' := fun _ _ h => .inl h
  have hcondition : ∀ e e', S.condition e e' → S.Any e e' := fun _ _ h => .inr (.inr (.inl h))
  cases h with
  | expression he => exact .cons (.inl he) .nil
  | block _ => exact .nil
  | returnValue hv => exact (forall₂_toList hv).imp fun _ _ h => .inr (.inl h)
  | conditional hc _ _ => exact .cons (hcondition _ _ hc) .nil
  | whileLoop hc _ => exact .cons (hcondition _ _ hc) .nil
  -- Initializers and updates are plain, and the condition between them has its own role.
  | forLoop hi hc hu _ =>
    exact List.rel_append (List.rel_append (hi.imp hplain) ((forall₂_toList hc).imp hcondition))
      (hu.imp hplain)
  | assertion hc hm =>
    exact .cons (hcondition _ _ hc)
      ((forall₂_toList hm).imp fun _ _ h => .inr (.inr (.inr (.inr h))))
  | throwValue hv => exact .cons (.inr (.inr (.inr (.inl hv)))) .nil

theorem substatements (h : Related S s s') :
    List.Forall₂ (Related S) s.substatements s'.substatements := by
  induction s using Stmt.childInduction generalizing s' with
  | step s ih =>
    rw [substatements_eq s, substatements_eq s']
    -- The statement itself comes first, then what is inside its children.
    refine .cons h ?_
    exact List.rel_flatMap (forall₂_imp_of_mem h.children fun c hc _ hcc' => ih c hc hcc')
      fun _ _ hsub => hsub

end Stmt.Related

/-- Related methods have related statements at every depth, in the same order. -/
theorem MethodDecl.Related.statements {U : UnitSteps} {d d' : MethodDecl} (h : d.Related U d') :
    List.Forall₂ (Stmt.Related (U.statement d.ref)) d.statements d'.statements := by
  refine List.rel_flatMap (forall₂_toList h.body) fun b b' hb => ?_
  exact List.rel_flatMap hb.statements fun _ _ hs => hs.substatements

namespace CompilationUnit.Related

variable {U : UnitSteps} {u u' : CompilationUnit}

/-- Fields of related units are related, type by type. -/
theorem fields (h : u.Related U u') :
    List.Forall₂ (FieldDecl.Related U) u.fields u'.fields :=
  List.rel_flatMap h.types fun _ _ hd => hd.fields

theorem methods (h : u.Related U u') :
    List.Forall₂ (MethodDecl.Related U) u.methods u'.methods :=
  List.rel_flatMap h.types fun _ _ hd => hd.methods

theorem expressions (h : u.Related U u') : List.Forall₂ U.Any u.expressions u'.expressions := by
  refine List.rel_flatMap h.types fun d d' hd => List.rel_append ?_ ?_
  · refine List.rel_flatMap hd.fields fun f f' hf => ?_
    exact (forall₂_toList hf.initializer).imp fun _ _ he => .inl ⟨f.ref, he⟩
  · refine List.rel_flatMap hd.methods fun m m' hm => ?_
    refine List.rel_flatMap hm.statements fun s s' hs => ?_
    exact hs.expressions.imp fun _ _ he => .inr ⟨m.ref, he⟩

/-- What the steps establish of single expressions holds throughout the unit. -/
theorem everywhere {H P : Expr → Prop} (h : u.Related U u')
    (hstep : ∀ e e', e.Everywhere H → U.Any e e' → e'.Everywhere P)
    (hu : u.Everywhere H) : u'.Everywhere P := by
  intro e' he'
  obtain ⟨e, he, hee'⟩ := exists_of_mem_forall₂ h.expressions he'
  exact hstep e e' (hu e he) hee'

end CompilationUnit.Related

/-! ## Two traversals in a row -/

/-- What the first step and then the second one do to an expression, the third
one does at once. -/
structure StmtSteps.Composes (S₁ S₂ S₃ : StmtSteps) : Prop where
  plain : ∀ a b c, S₁.plain a b → S₂.plain b c → S₃.plain a c
  result : ∀ a b c, S₁.result a b → S₂.result b c → S₃.result a c
  condition : ∀ a b c, S₁.condition a b → S₂.condition b c → S₃.condition a c
  thrown : ∀ a b c, S₁.thrown a b → S₂.thrown b c → S₃.thrown a c
  message : ∀ a b c, S₁.message a b → S₂.message b c → S₃.message a c

structure UnitSteps.Composes (U₁ U₂ U₃ : UnitSteps) : Prop where
  initializer : ∀ f a b c, U₁.initializer f a b → U₂.initializer f b c → U₃.initializer f a c
  statement : ∀ d, StmtSteps.Composes (U₁.statement d) (U₂.statement d) (U₃.statement d)

/-- Two traversals in a row relate the first input to the last output, by the composed steps.
Statements keep their form, so the middle statement has it too. -/
theorem Stmt.Related.comp {S₁ S₂ S₃ : StmtSteps} (hS : S₁.Composes S₂ S₃) {s s₁ s₂ : Stmt}
    (h : Stmt.Related S₁ s s₁) (h' : Stmt.Related S₂ s₁ s₂) : Stmt.Related S₃ s s₂ := by
  -- The relations nest lists and options, so the induction is on the statement.
  induction s using Stmt.childInduction generalizing s₁ s₂ with
  | step s ih =>
    cases h with
    | expression he =>
      cases h' with
      | expression he' => exact .expression (hS.plain _ _ _ he he')
    | block hss =>
      cases h' with
      | block hss' =>
        exact .block (forall₂_comp_of_mem hss hss' fun a ha _ _ hab hbc => ih a ha hab hbc)
    | returnValue hv =>
      cases h' with
      | returnValue hv' =>
        exact .returnValue (optionRel_comp_of_mem hv hv' fun _ _ => hS.result _)
    | conditional hc ha hb =>
      cases h' with
      | conditional hc' ha' hb' =>
        exact .conditional (hS.condition _ _ _ hc hc') (ih _ List.mem_cons_self ha ha')
          -- The other branch is a child as well, after the first one.
          (optionRel_comp_of_mem hb hb' fun a ha _ _ hab hbc =>
            ih a (List.mem_cons_of_mem _ ha) hab hbc)
    | whileLoop hc hb =>
      cases h' with
      | whileLoop hc' hb' =>
        exact .whileLoop (hS.condition _ _ _ hc hc') (ih _ List.mem_cons_self hb hb')
    | forLoop hi hc hu hb =>
      cases h' with
      | forLoop hi' hc' hu' hb' =>
        exact .forLoop (forall₂_comp_of_mem hi hi' fun _ _ => hS.plain _)
          (optionRel_comp_of_mem hc hc' fun _ _ => hS.condition _)
          (forall₂_comp_of_mem hu hu' fun _ _ => hS.plain _) (ih _ List.mem_cons_self hb hb')
    | assertion hc hm =>
      cases h' with
      | assertion hc' hm' =>
        exact .assertion (hS.condition _ _ _ hc hc')
          (optionRel_comp_of_mem hm hm' fun _ _ => hS.message _)
    | throwValue hv =>
      cases h' with
      | throwValue hv' => exact .throwValue (hS.thrown _ _ _ hv hv')

/-- Two traversals of a unit in a row relate the first input to the last output. -/
theorem CompilationUnit.Related.comp {U₁ U₂ U₃ : UnitSteps} (hU : U₁.Composes U₂ U₃)
    {u u₁ u₂ : CompilationUnit} (h : CompilationUnit.Related U₁ u u₁)
    (h' : CompilationUnit.Related U₂ u₁ u₂) : CompilationUnit.Related U₃ u u₂ := by
  refine ⟨h'.name.trans h.name, forall₂_comp_of_mem h.types h'.types fun d _ d₁ d₂ hd hd' => ?_⟩
  -- All data of a type is kept twice; only its members take work.
  refine ⟨hd'.ref.trans hd.ref, hd'.superclass.trans hd.superclass,
    hd'.interfaces.trans hd.interfaces, hd'.span.trans hd.span, ?fields, ?methods⟩
  case fields =>
    refine forall₂_comp_of_mem hd.fields hd'.fields fun f _ f₁ f₂ hf hf' =>
      ⟨hf'.ref.trans hf.ref, hf'.span.trans hf.span, ?_⟩
    refine optionRel_comp_of_mem hf.initializer hf'.initializer fun a _ b c hab hbc =>
      hU.initializer _ a b c hab ?_
    -- The second step speaks of the field after the first one, which is the same field.
    rw [← hf.ref]
    exact hbc
  case methods =>
    refine forall₂_comp_of_mem hd.methods hd'.methods fun m _ m₁ m₂ hm hm' =>
      ⟨hm'.ref.trans hm.ref, hm'.parameters.trans hm.parameters, hm'.span.trans hm.span, ?_⟩
    refine optionRel_comp_of_mem hm.body hm'.body fun b _ b₁ b₂ hb hb' =>
      ⟨hb'.span.trans hb.span, ?_⟩
    refine forall₂_comp_of_mem hb.statements hb'.statements fun s _ s₁ s₂ hs hs' =>
      Stmt.Related.comp (hU.statement m.ref) hs ?_
    -- As for fields: the steps of the second traversal are those of the method it finds.
    rw [← hm.ref]
    exact hs'

end Lowering
