import Lowering.Proofs.Shape.Scope
import Lowering.Proofs.Tree.Correspondence

/-!
# Checks of trees that correspond

When a transformation keeps the statements of a tree and replaces expressions,
the shape checks of the two trees run through corresponding parts in the same
order. A relation between checks that respects this order, `Shape.Relational`,
holds of the two statements if it holds of the expressions in them.

Main statement: `Shape.Relational.stmt_of_related`.
-/

namespace Lowering

namespace Shape

/-- A relation between checks that passes from the parts to checks of the parts in
turn. -/
structure Relational (C : (Scope → Except Fault Scope) → (Scope → Except Fault Scope) → Prop) :
    Prop where
  ok : C .ok .ok
  bind {f f' g g' : Scope → Except Fault Scope} :
    C f f' → C g g' → C (fun S => f S >>= g) (fun S => f' S >>= g')
  binder (id : VariableId) {f f' : Scope → Except Fault Scope} :
    C f f' → C (fun S => f (id :: S)) (fun S => f' (id :: S))

namespace Relational

variable {C : (Scope → Except Fault Scope) → (Scope → Except Fault Scope) → Prop} {span : Span}

/-- The checks of the two expressions are related, at every span. -/
def OfExprs (C : (Scope → Except Fault Scope) → (Scope → Except Fault Scope) → Prop)
    (e e' : Expr) : Prop :=
  ∀ span, C (checkExpr span e) (checkExpr span e')

theorem option (hC : Relational C) {q q' : Option Expr}
    (h : Option.Rel (OfExprs C) q q') :
    C (checkOption span q) (checkOption span q') := by
  cases h with
  | none => exact hC.ok
  | some h => exact h span

theorem exprs (hC : Relational C) {es es' : List Expr}
    (h : List.Forall₂ (OfExprs C) es es') :
    C (checkExprs span es) (checkExprs span es') := by
  induction h with
  | nil => exact hC.ok
  | cons he _ ih => exact hC.bind (he span) ih

/-- The variable of a fragment is in scope for the fragments after it, on both sides. -/
theorem fragments (hC : Relational C) {fs fs' : List (Fragment Expr)}
    (h : List.Forall₂ (Fragment.Rel (OfExprs C)) fs fs') :
    C (checkFragments span fs) (checkFragments span fs') := by
  induction h with
  | nil => exact hC.ok
  | cons hf _ ih =>
    cases hf with
    -- The fragments declare one and the same variable, and may differ in the initializers.
    | mk hi => exact hC.bind (hC.option hi) (hC.binder _ ih)

theorem optionStmt (hC : Relational C) {s s' : Option Stmt}
    (h : Option.Rel (fun s s' => C (checkStmt s) (checkStmt s')) s s') :
    C (checkOptionStmt s) (checkOptionStmt s') := by
  cases h with
  | none => exact hC.ok
  | some h => exact h

/-- A list of statements is checked from the first to the last, each in the scope that the one
before it has left. -/
theorem stmts (hC : Relational C) {ss ss' : List Stmt}
    (h : List.Forall₂ (fun s s' => C (checkStmt s) (checkStmt s')) ss ss') :
    C (checkStmts ss) (checkStmts ss') := by
  induction h with
  | nil => exact hC.ok
  | cons hs _ ih => exact hC.bind hs ih

/-- Related statements have related checks if the expressions in them have. The proof follows
the recursion of the check, which takes the expressions of a statement before the statements
inside it. -/
theorem stmt_of_related (hC : Relational C) {steps : StmtSteps} {s s' : Stmt}
    (h : s.Related steps s')
    (hsteps : ∀ t ∈ s.substatements, ∀ e ∈ t.expressions, ∀ e', steps.Any e e' → OfExprs C e e') :
    C (checkStmt s) (checkStmt s') := by
  induction s using Stmt.childInduction generalizing s' with
  | step s ih =>
    -- Of the steps only some are possible at each kind of statement, and each is one of
    -- `steps.Any`.
    have hown : ∀ e ∈ s.expressions, ∀ e', steps.Any e e' → OfExprs C e e' :=
      hsteps s (by rw [Stmt.substatements_eq]; exact List.mem_cons_self)
    have hchild : ∀ c ∈ s.children, ∀ c', c.Related steps c' →
        C (checkStmt c) (checkStmt c') := by
      intro c hc c' hcc'
      refine ih c hc hcc' fun t ht => hsteps t ?_
      rw [Stmt.substatements_eq]
      exact List.mem_cons_of_mem _ (List.mem_flatMap.mpr ⟨c, hc, ht⟩)
    have hplain : ∀ e ∈ s.expressions, ∀ e', steps.plain e e' → OfExprs C e e' :=
      fun e he e' hstep => hown e he e' (.inl hstep)
    have hcondition : ∀ e ∈ s.expressions, ∀ e', steps.condition e e' → OfExprs C e e' :=
      fun e he e' hstep => hown e he e' (.inr (.inr (.inl hstep)))
    cases h with
    | expression he => exact hplain _ List.mem_cons_self _ he _
    | block hss => exact hC.stmts (forall₂_imp_of_mem hss hchild)
    -- The expression of a return statement has a step of its own, and so have the message of an
    -- assertion and the operand of a `throw`.
    | returnValue hv =>
      refine hC.option (optionRel_imp_of_mem hv fun v hv v' hvv' => ?_)
      exact hown v hv v' (.inr (.inl hvv'))
    | conditional hc ha hb =>
      refine hC.bind (hcondition _ List.mem_cons_self _ hc _)
        (hC.bind (hchild _ List.mem_cons_self _ ha) (hC.optionStmt ?_))
      exact optionRel_imp_of_mem hb fun b hb => hchild b (List.mem_cons_of_mem _ hb)
    | whileLoop hc hb =>
      exact hC.bind (hcondition _ List.mem_cons_self _ hc _) (hchild _ List.mem_cons_self _ hb)
    -- The header is checked before the body: initializers, condition, updates.
    | forLoop hi hc hu hb =>
      refine hC.bind (hC.exprs (forall₂_imp_of_mem hi fun e he e' hstep => ?_))
        (hC.bind (hC.option (optionRel_imp_of_mem hc fun e he e' hstep => ?_))
          (hC.bind (hC.exprs (forall₂_imp_of_mem hu fun e he e' hstep => ?_))
            (hchild _ List.mem_cons_self _ hb)))
      · exact hplain e (List.mem_append_left _ (List.mem_append_left _ he)) e' hstep
      · exact hcondition e (List.mem_append_left _ (List.mem_append_right _ he)) e' hstep
      · exact hplain e (List.mem_append_right _ he) e' hstep
    | assertion hc hm =>
      refine hC.bind (hcondition _ List.mem_cons_self _ hc _) (hC.option ?_)
      refine optionRel_imp_of_mem hm fun m hm m' hmm' => hown m ?_ m' ?_
      · exact List.mem_cons_of_mem _ hm
      · exact .inr (.inr (.inr (.inr hmm')))
    | throwValue hv => exact hown _ List.mem_cons_self _ (.inr (.inr (.inr (.inl hv)))) _

end Relational

end Shape

end Lowering
