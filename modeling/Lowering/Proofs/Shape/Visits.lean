import Lowering.Proofs.Shape.Accepted

/-!
# Source order

A walk over a tree in source order comes to every node before the nodes below it, and
to these from left to right. After the initializer of a declared variable the
declaration is completed. `Expr.visits` lists what happens on such a walk, and the
visits of a field or method also carry the span of the field, or of the statement in
which the visited expression stands.

The shape check is a scan of these lists (`checkStmt_eq_scan`): it keeps a scope,
adds what is declared to it, and stops at the first node to which it objects.
-/

namespace Lowering

/-- What happens on a walk in source order. -/
inductive Visit where
  /-- The walk comes to a node. -/
  | node (e : Expr)
  /-- The declaration of an identity is completed. -/
  | declared (id : VariableId)

/-! ## Expressions -/

namespace Expr

mutual

/-- What happens below a node. -/
def visitsBelow : Expr → List Visit
  | fieldAccess q _ => visitsOption q
  | call q _ as => visitsOption q ++ visitsList as
  | newInstance _ as => visitsList as
  | binary _ l r _ => (.node l :: l.visitsBelow) ++ (.node r :: r.visitsBelow)
  | unary _ _ e _ => .node e :: e.visitsBelow
  | cast _ e => .node e :: e.visitsBelow
  | conditional _ c a b =>
    (.node c :: c.visitsBelow) ++ ((.node a :: a.visitsBelow) ++ (.node b :: b.visitsBelow))
  | notNull e => .node e :: e.visitsBelow
  | multi es => visitsList es
  | declare fs => visitsFragments fs
  | _ => []
termination_by structural e => e

def visitsOption : Option Expr → List Visit
  | none => []
  | some e => .node e :: e.visitsBelow
termination_by structural e => e

def visitsList : List Expr → List Visit
  | [] => []
  | e :: es => (.node e :: e.visitsBelow) ++ visitsList es
termination_by structural es => es

/-- The declaration of a fragment is completed after its own initializer. -/
def visitsFragments : List (Fragment Expr) → List Visit
  | [] => []
  | ⟨binder, e⟩ :: fs => visitsOption e ++ .declared binder.id :: visitsFragments fs
termination_by structural fs => fs

end

/-- What happens on a walk over an expression. -/
def visits (e : Expr) : List Visit :=
  .node e :: e.visitsBelow

theorem visitsOption_eq_flatMap (e : Option Expr) : visitsOption e = e.toList.flatMap visits := by
  cases e <;> simp [visitsOption, visits]

/-- The walk goes through a list from left to right. -/
theorem visitsList_eq_flatMap (es : List Expr) : visitsList es = es.flatMap visits := by
  induction es with
  | nil => rfl
  | cons e es ih => rw [visitsList, ih, List.flatMap_cons, visits]

/-- Declarations are no nodes, so that the walk over fragments comes to the nodes of their
initializers only. -/
theorem node_mem_visitsFragments {fs : List (Fragment Expr)} {x : Expr} :
    .node x ∈ visitsFragments fs ↔ ∃ c ∈ fs.filterMap (·.initializer), .node x ∈ c.visits := by
  induction fs with
  | nil => simp [visitsFragments]
  | cons f fs ih =>
    obtain ⟨binder, initializer⟩ := f
    cases initializer <;> simp [visitsFragments, visitsOption_eq_flatMap, ih]

/-- Below a node the walk comes to the nodes of its children. -/
theorem node_mem_visitsBelow {e x : Expr} :
    .node x ∈ e.visitsBelow ↔ ∃ c ∈ e.children, .node x ∈ c.visits := by
  cases e with
  | declare fs => exact node_mem_visitsFragments
  | _ => simp [visitsBelow, children, visits, visitsOption_eq_flatMap, visitsList_eq_flatMap,
      or_and_right, exists_or, or_assoc]

/-- The walk comes to every part of an expression, and to nothing else. -/
theorem node_mem_visits {e x : Expr} : .node x ∈ e.visits ↔ x ∈ e.subexpressions := by
  induction e using childInduction with
  | step e ih =>
    rw [subexpressions_eq, visits, List.mem_cons, List.mem_cons, node_mem_visitsBelow,
      List.mem_flatMap, Visit.node.injEq]
    -- The node itself is visited first, and what remains are the nodes below it.
    apply or_congr_right
    constructor
    · rintro ⟨c, hc, hx⟩
      exact ⟨c, hc, (ih c hc).mp hx⟩
    · rintro ⟨c, hc, hx⟩
      exact ⟨c, hc, (ih c hc).mpr hx⟩

end Expr

/-! ## Statements -/

namespace Stmt

/-- The visits of the expressions that stand directly in a statement. -/
def ownVisits (s : Stmt) : List (Span × Visit) :=
  (s.expressions.flatMap Expr.visits).map (Prod.mk s.span)

/-- The visits of a statement and the statements inside it. -/
def visits (s : Stmt) : List (Span × Visit) :=
  s.substatements.flatMap ownVisits

/-- The expressions of a statement are visited before the statements inside it. -/
theorem visits_eq (s : Stmt) : s.visits = s.ownVisits ++ s.children.flatMap visits := by
  unfold visits
  rw [substatements_eq, List.flatMap_cons, List.flatMap_assoc]

end Stmt

/-! ## The check as a scan -/

namespace Shape

/-- What the check has to say against a node. -/
def objection (scope : Scope) : Expr → Option Violation
  -- The scope is what has been declared before, not all that the method declares.
  | .varRef v => if v.id ∈ scope then none else some (.outOfScope v)
  | .notNull operand => if operand.isNotNull then some .doubledAssertion else none
  | _ => none

/-- The scope after the visits, or the first objection. -/
def scan : List (Span × Visit) → Scope → Except Fault Scope
  | [], scope => .ok scope
  | (span, .node e) :: rest, scope =>
    match objection scope e with
    | some violation => .error { violation, span }
    | none => scan rest scope
  | (_, .declared id) :: rest, scope => scan rest (id :: scope)

/-- A scan can be made in two parts: the second begins with the scope that the first has ended with,
unless the first has failed. -/
theorem scan_append (visits visits' : List (Span × Visit)) (S : Scope) :
    scan (visits ++ visits') S = scan visits S >>= scan visits' := by
  induction visits generalizing S with
  | nil => rfl
  | cons head rest ih =>
    obtain ⟨span, visit⟩ := head
    cases visit with
    | declared id => exact ih (id :: S)
    | node e =>
      simp only [List.cons_append, scan]
      cases objection S e with
      -- After an objection there is nothing left to scan.
      | some violation => rfl
      | none => exact ih S

section

variable {span : Span}

/-- Checks of parts, in order, are scans of their visits, in order. -/
theorem checkExprs_eq_scan {es : List Expr}
    (h : ∀ e ∈ es, ∀ S, checkExpr span e S = scan (e.visits.map (Prod.mk span)) S) (S : Scope) :
    checkExprs span es S = scan ((es.flatMap Expr.visits).map (Prod.mk span)) S := by
  induction es generalizing S with
  | nil => rfl
  | cons e es ih =>
    rw [checkExprs, List.flatMap_cons, List.map_append, scan_append, h e List.mem_cons_self]
    exact bind_congr (ih fun x hx => h x (List.mem_cons_of_mem _ hx))

/-- A part that may be missing is scanned if it is there. -/
theorem checkOption_eq_scan {e : Option Expr}
    (h : ∀ x ∈ e.toList, ∀ S, checkExpr span x S = scan (x.visits.map (Prod.mk span)) S)
    (S : Scope) :
    checkOption span e S = scan ((e.toList.flatMap Expr.visits).map (Prod.mk span)) S := by
  cases e with
  | none => rfl
  | some e => simpa [checkOption] using h e (by simp) S

/-- Fragments are scanned in order. A variable comes into scope after its own initializer, so that
an initializer may not refer to the variable that it is for. -/
theorem checkFragments_eq_scan {fs : List (Fragment Expr)}
    (h : ∀ x ∈ fs.filterMap (·.initializer), ∀ S,
      checkExpr span x S = scan (x.visits.map (Prod.mk span)) S) (S : Scope) :
    checkFragments span fs S = scan ((Expr.visitsFragments fs).map (Prod.mk span)) S := by
  induction fs generalizing S with
  | nil => rfl
  | cons f fs ih =>
    obtain ⟨binder, initializer⟩ := f
    -- The hypothesis is for all fragments at once, so it is divided between the first and the rest.
    have hinitializer : ∀ x ∈ initializer.toList, ∀ S,
        checkExpr span x S = scan (x.visits.map (Prod.mk span)) S := by
      intro x hx
      exact h x (List.mem_filterMap.mpr ⟨_, List.mem_cons_self, Option.mem_toList.mp hx⟩)
    have hrest : ∀ x ∈ fs.filterMap (·.initializer), ∀ S,
        checkExpr span x S = scan (x.visits.map (Prod.mk span)) S := by
      intro x hx
      obtain ⟨g, hg, hx⟩ := List.mem_filterMap.mp hx
      exact h x (List.mem_filterMap.mpr ⟨g, List.mem_cons_of_mem _ hg, hx⟩)
    rw [checkFragments, Expr.visitsFragments, List.map_append, scan_append,
      Expr.visitsOption_eq_flatMap, checkOption_eq_scan hinitializer]
    -- The rest is scanned with the variable of the fragment in scope.
    exact bind_congr fun S₁ => ih hrest (binder.id :: S₁)

/-- The check of an expression is a scan of its visits. -/
theorem checkExpr_eq_scan (e : Expr) (S : Scope) :
    checkExpr span e S = scan (e.visits.map (Prod.mk span)) S := by
  induction e using Expr.childInduction generalizing S with
  | step e ih =>
    -- Except for two kinds of nodes there is no objection to the node itself, and the
    -- scan goes on with what is below it.
    cases e with
    | nullLiteral | boolLiteral | numberLiteral | stringLiteral | thisRef => rfl
    | varRef v =>
      simp only [checkExpr, Expr.visits, Expr.visitsBelow, List.map_cons, List.map_nil, scan,
        objection]
      split <;> rfl
    | fieldAccess q f =>
      show checkOption span q S = scan ((Expr.visitsOption q).map (Prod.mk span)) S
      rw [Expr.visitsOption_eq_flatMap]
      exact checkOption_eq_scan ih S
    -- The receiver is visited before the arguments, on both sides.
    | call q m as =>
      show (checkOption span q S >>= checkExprs span as) =
        scan ((Expr.visitsOption q ++ Expr.visitsList as).map (Prod.mk span)) S
      rw [List.map_append, scan_append, Expr.visitsOption_eq_flatMap, Expr.visitsList_eq_flatMap,
        checkOption_eq_scan fun x hx => ih x (List.mem_append_left _ hx)]
      exact bind_congr (checkExprs_eq_scan fun x hx => ih x (List.mem_append_right _ hx))
    | newInstance m as =>
      show checkExprs span as S = scan ((Expr.visitsList as).map (Prod.mk span)) S
      rw [Expr.visitsList_eq_flatMap]
      exact checkExprs_eq_scan ih S
    | binary op l r t =>
      show (checkExpr span l S >>= checkExpr span r) =
        scan ((l.visits ++ r.visits).map (Prod.mk span)) S
      rw [List.map_append, scan_append, ih l (by simp [Expr.children])]
      exact bind_congr (ih r (by simp [Expr.children]))
    | unary op fixity x t => exact ih x (by simp [Expr.children]) S
    | cast t x => exact ih x (by simp [Expr.children]) S
    | conditional t c a b =>
      show (checkExpr span c S >>= fun S => checkExpr span a S >>= checkExpr span b) =
        scan ((c.visits ++ (a.visits ++ b.visits)).map (Prod.mk span)) S
      rw [List.map_append, scan_append, ih c (by simp [Expr.children])]
      refine bind_congr fun S₁ => ?_
      rw [List.map_append, scan_append, ih a (by simp [Expr.children])]
      exact bind_congr (ih b (by simp [Expr.children]))
    -- Of the operand only its kind is looked at here, and then it is visited itself.
    | notNull x =>
      have hoperand := ih x (by simp [Expr.children]) S
      simp only [checkExpr, Expr.visits, List.map_cons, scan, objection]
      split
      · rfl
      · exact hoperand
    | multi es =>
      show checkExprs span es S = scan ((Expr.visitsList es).map (Prod.mk span)) S
      rw [Expr.visitsList_eq_flatMap]
      exact checkExprs_eq_scan ih S
    | declare fs => exact checkFragments_eq_scan ih S

end

/-! ### Statements -/

theorem checkOption_eq_checkExprs (span : Span) (e : Option Expr) (S : Scope) :
    checkOption span e S = checkExprs span e.toList S := by
  cases e with
  | none => rfl
  | some e => exact (checkExprs_singleton e S).symm

theorem checkStmts_singleton (s : Stmt) : checkStmts [s] = checkStmt s := by
  funext S
  rw [checkStmts]
  cases checkStmt s S <;> rfl

theorem checkOptionStmt_eq_checkStmts (s : Option Stmt) (S : Scope) :
    checkOptionStmt s S = checkStmts s.toList S := by
  cases s with
  | none => rfl
  | some s => exact congrFun (checkStmts_singleton s).symm S

/-- A statement is checked expressions first. -/
theorem checkStmt_eq (s : Stmt) (S : Scope) :
    checkStmt s S = checkExprs s.span s.expressions S >>= checkStmts s.children := by
  -- Statements with nothing inside end with the check of an empty list.
  have hnil : ∀ x : Except Fault Scope, x >>= checkStmts [] = x := by
    intro x
    cases x <;> rfl
  cases s with
  | block ss span => rfl
  | expression e span | throwValue e span =>
    simp only [Stmt.span, Stmt.expressions, Stmt.children, hnil, checkExprs_singleton, checkStmt]
  | returnValue value span =>
    simp only [Stmt.span, Stmt.expressions, Stmt.children, hnil, checkStmt,
      checkOption_eq_checkExprs]
  | assertion c m span =>
    simp only [Stmt.span, Stmt.expressions, Stmt.children, hnil, checkStmt, checkExprs,
      checkOption_eq_checkExprs]
  | conditional c a b span =>
    simp only [Stmt.span, Stmt.expressions, Stmt.children, checkExprs_singleton, checkStmt,
      checkStmts, checkOptionStmt_eq_checkStmts]
  | whileLoop c b span =>
    simp only [Stmt.span, Stmt.expressions, Stmt.children, checkExprs_singleton, checkStmt,
      checkStmts_singleton]
  -- The three parts of the header make up one list of expressions.
  | forLoop i c u b span =>
    simp only [Stmt.span, Stmt.expressions, Stmt.children, checkExprs_append, checkStmt, bind_assoc,
      checkOption_eq_checkExprs, checkStmts_singleton]

/-- Statements one after the other are scanned one after the other, with what the earlier ones have
declared in scope. -/
theorem checkStmts_eq_scan {ss : List Stmt} (h : ∀ s ∈ ss, ∀ S, checkStmt s S = scan s.visits S)
    (S : Scope) : checkStmts ss S = scan (ss.flatMap Stmt.visits) S := by
  induction ss generalizing S with
  | nil => rfl
  | cons s ss ih =>
    rw [checkStmts, List.flatMap_cons, scan_append, h s List.mem_cons_self]
    exact bind_congr (ih fun x hx => h x (List.mem_cons_of_mem _ hx))

/-- The check of a statement is a scan of its visits. -/
theorem checkStmt_eq_scan (s : Stmt) (S : Scope) : checkStmt s S = scan s.visits S := by
  induction s using Stmt.childInduction generalizing S with
  | step s ih =>
    rw [checkStmt_eq, Stmt.visits_eq, scan_append,
      checkExprs_eq_scan fun e _ => checkExpr_eq_scan e]
    exact bind_congr (checkStmts_eq_scan ih)

end Shape

/-! ## Members of a unit -/

/-- A field or a method: the identities that it begins with, and what happens on a walk
over its initializer or body. -/
structure Region where
  known : Shape.Scope
  visits : List (Span × Visit)

def FieldDecl.region (f : FieldDecl) : Region :=
  { known := [], visits := (f.initializer.toList.flatMap Expr.visits).map (Prod.mk f.span) }

def MethodDecl.region (d : MethodDecl) : Region :=
  { known := d.parameters.map (·.id), visits := d.statements.flatMap Stmt.ownVisits }

/-- The fields and methods of a unit, in source order. -/
def CompilationUnit.regions (u : CompilationUnit) : List Region :=
  u.types.flatMap fun d => d.fields.map FieldDecl.region ++ d.methods.map MethodDecl.region

namespace Shape

/-- The check of a region, which begins with what is known there. -/
def checkRegion (r : Region) : Except Fault Unit := do
  -- What is declared in a field or method is not known outside of it.
  let _ ← scan r.visits r.known

theorem checkField_eq (f : FieldDecl) : checkField f = checkRegion f.region := by
  unfold checkField checkRegion
  rw [checkOption_eq_scan fun e _ => checkExpr_eq_scan e]
  rfl

/-- A method begins with its parameters in scope, and a method without a body has an empty walk. -/
theorem checkMethod_eq (d : MethodDecl) : checkMethod d = checkRegion d.region := by
  unfold checkMethod checkRegion
  cases hbody : d.body with
  | none =>
    simp [MethodDecl.region, MethodDecl.statements, hbody, scan]
  | some body =>
    -- The region lists the statements flat, the check takes them as a tree.
    have hvisits : d.region.visits = body.statements.flatMap Stmt.visits := by
      simp [MethodDecl.region, MethodDecl.statements, hbody, List.flatMap_assoc]
      rfl
    rw [hvisits]
    simp only
    rw [checkStmts_eq_scan fun s _ => checkStmt_eq_scan s]
    rfl

/-- The check of a unit takes the fields and methods one by one. -/
theorem checkShape_eq (u : CompilationUnit) : u.checkShape = u.regions.forM checkRegion := by
  -- A type declaration is checked fields first, then methods, like its regions are listed.
  have htype : ∀ d : TypeDecl, checkType d =
      forM (d.fields.map FieldDecl.region ++ d.methods.map MethodDecl.region) checkRegion := by
    intro d
    rw [List.forM_append, List.forM_map, List.forM_map, ← funext checkField_eq,
      ← funext checkMethod_eq]
    rfl
  unfold CompilationUnit.checkShape CompilationUnit.regions
  rw [List.forM_eq_forM, List.forM_eq_forM]
  induction u.types with
  | nil => rfl
  | cons d ds ih => rw [List.forM_cons, List.flatMap_cons, List.forM_append, ih, htype]

end Shape

end Lowering
