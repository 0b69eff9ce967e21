import Lowering.Proofs.Tree.Subterms
import Lowering.Tree.Equality

/-!
# Trees that are equal to themselves

A literal that is not a number differs even from itself, and so does every tree
that holds one. All other trees are equal to themselves.

Main statements: `Expr.sameAs_self`, `CompilationUnit.beq_self`.
-/

namespace Lowering

/-! ## Expressions -/

namespace Expr

/-- Literals that are not a number. -/
def isNaNLiteral : Expr → Bool
  | numberLiteral value _ => value.isNaN
  | _ => false

/-- An assertion is never the same as its operand, however many assertions that is under. -/
theorem not_sameAs_operand (e : Expr) : (notNull e).sameAs e = false := by
  induction e using Expr.childInduction with
  | step e ih =>
    cases e with
    | notNull x =>
      rw [sameAs]
      exact ih x List.mem_cons_self
    | _ => rfl

mutual

/-- An expression without not-a-number literals is the same as itself. -/
theorem sameAs_self : ∀ e : Expr, (e.Everywhere fun x => x.isNaNLiteral = false) →
    e.sameAs e = true
  | .nullLiteral _, _ => by simp [sameAs]
  | .boolLiteral _ _, _ => by simp [sameAs]
  | .numberLiteral n _, h => by
    have hn : n.isNaN = false := h.here
    cases n with
    | integer value => simp [sameAs, NumberValue.sameAs]
    | double d =>
      -- Both zeros are equal to themselves, so a double can fail only by not being a number.
      have hd : d.isNaN = false := hn
      simp [sameAs, NumberValue.sameAs, Double.numericEq, hd]
  | .stringLiteral _ _, _ => by simp [sameAs]
  | .thisRef _, _ => by simp [sameAs]
  | .varRef _, _ => by simp [sameAs, BEq.beq, Variable.sameAs]
  | .fieldAccess q _, h => by
    simp [sameAs, sameOption_self q fun _ hc => h.child hc]
  | .call q _ as, h => by
    simp [sameAs, sameOption_self q fun _ hc => h.child (List.mem_append_left _ hc),
      sameList_self as fun _ hc => h.child (List.mem_append_right _ hc)]
  | .newInstance _ as, h => by
    simp [sameAs, sameList_self as fun _ hc => h.child hc]
  | .binary _ l r _, h => by
    simp [sameAs, sameAs_self l (h.child (by simp [children])),
      sameAs_self r (h.child (by simp [children]))]
  | .unary _ _ x _, h => by simp [sameAs, sameAs_self x (h.child (by simp [children]))]
  | .cast _ x, h => by simp [sameAs, sameAs_self x (h.child (by simp [children]))]
  | .conditional _ c a b, h => by
    simp [sameAs, sameAs_self c (h.child (by simp [children])),
      sameAs_self a (h.child (by simp [children])), sameAs_self b (h.child (by simp [children]))]
  | .notNull x, h => by simp [sameAs, sameAs_self x (h.child (by simp [children]))]
  | .multi es, h => by simp [sameAs, sameList_self es fun _ hc => h.child hc]
  | .declare fs, h => by simp [sameAs, sameFragments_self fs fun _ hc => h.child hc]
termination_by structural e => e

theorem sameOption_self : ∀ q : Option Expr,
    (∀ e ∈ q.toList, e.Everywhere fun x => x.isNaNLiteral = false) →
    sameOption q q = true
  | none, _ => rfl
  | some e, h => sameAs_self e (h e (by simp))
termination_by structural q => q

theorem sameList_self : ∀ es : List Expr,
    (∀ e ∈ es, e.Everywhere fun x => x.isNaNLiteral = false) → sameList es es = true
  | [], _ => rfl
  | e :: es, h => by
    rw [sameList, sameAs_self e (h e List.mem_cons_self),
      sameList_self es fun x hx => h x (List.mem_cons_of_mem _ hx), Bool.and_self]
termination_by structural es => es

/-- Declared variables are compared by identity, initializers as expressions. -/
theorem sameFragments_self : ∀ fs : List (Fragment Expr),
    (∀ e ∈ fs.filterMap (·.initializer), e.Everywhere fun x => x.isNaNLiteral = false) →
    sameFragments fs fs = true
  | [], _ => rfl
  | ⟨v, i⟩ :: fs, h => by
    have hi := sameOption_self i fun e he => h e
      (List.mem_filterMap.mpr ⟨_, List.mem_cons_self, Option.mem_toList.mp he⟩)
    have hfs := sameFragments_self fs fun e he =>
      (List.mem_filterMap.mp he).elim fun f hf => h e
        (List.mem_filterMap.mpr ⟨f, List.mem_cons_of_mem _ hf.1, hf.2⟩)
    simp [sameFragments, hi, hfs, BEq.beq, Variable.sameAs]
termination_by structural fs => fs

end

end Expr

/-! ## Statements -/

namespace Stmt

theorem sameList_self {ss : List Stmt} (h : ∀ s ∈ ss, s.sameAs s = true) :
    sameList ss ss = true := by
  induction ss with
  | nil => rfl
  | cons s ss ih =>
    rw [sameList, h s List.mem_cons_self, ih fun t ht => h t (List.mem_cons_of_mem _ ht),
      Bool.and_self]

theorem sameAs_self {s : Stmt} (h : ∀ t ∈ s.substatements, ∀ e ∈ t.expressions,
    e.Everywhere fun x => x.isNaNLiteral = false) : s.sameAs s = true := by
  induction s using Stmt.childInduction with
  | step s ih =>
    rw [substatements_eq] at h
    have hown := h s List.mem_cons_self
    have hsame : ∀ e ∈ s.expressions, (e == e) = true := fun e he => e.sameAs_self (hown e he)
    have hchild : ∀ c ∈ s.children, c.sameAs c = true := fun c hc =>
      ih c hc fun t ht => h t (List.mem_cons_of_mem _ (List.mem_flatMap.mpr ⟨c, hc, ht⟩))
    cases s with
    | expression e span => simp [sameAs, hsame e (by simp [expressions])]
    | block ss span =>
      have hss : sameList ss ss = true := sameList_self hchild
      simp [sameAs, hss]
    | returnValue v span => simp [sameAs, Expr.sameOption_self v hown]
    | conditional c a b span =>
      have hb : sameOption b b = true := by
        cases b with
        | none => rfl
        | some b => exact hchild b (by simp [children])
      simp [sameAs, hsame c (by simp [expressions]), hchild a (by simp [children]), hb]
    | whileLoop c b span =>
      simp [sameAs, hsame c (by simp [expressions]), hchild b (by simp [children])]
    | forLoop i c u b span =>
      have hi := Expr.sameList_self i fun e he => hown e (by simp [expressions, he])
      have hc := Expr.sameOption_self c fun e he => hown e (by
        simp only [expressions, List.mem_append]
        exact .inl (.inr he))
      have hu := Expr.sameList_self u fun e he => hown e (by simp [expressions, he])
      simp [sameAs, hi, hc, hu, hchild b (by simp [children])]
    | assertion c m span =>
      have hm := Expr.sameOption_self m fun e he => hown e (List.mem_cons_of_mem _ he)
      simp [sameAs, hsame c (by simp [expressions]), hm]
    | throwValue v span => simp [sameAs, hsame v (by simp [expressions])]

end Stmt

/-! ## Units -/

/-- For lists and options it is enough to ask for the members that are there. -/
theorem beq_list_self {α : Type} [BEq α] {as : List α} (h : ∀ a ∈ as, (a == a) = true) :
    (as == as) = true := by
  induction as with
  | nil => rfl
  | cons a as ih => simp_all

theorem beq_option_self {α : Type} [BEq α] {a : Option α} (h : ∀ x ∈ a.toList, (x == x) = true) :
    (a == a) = true := by
  cases a with
  | none => rfl
  | some a => exact h a (by simp)

/-- A unit without not-a-number literals is equal to itself. Only expressions could fail here: all
other data of a unit is compared by lawful instances. -/
theorem CompilationUnit.beq_self {u : CompilationUnit}
    (h : u.Everywhere fun x => x.isNaNLiteral = false) : (u == u) = true := by
  -- Every level compares its own data, which is lawful, and the lists of the next level.
  have htypes : (u.types == u.types) = true := by
    refine beq_list_self fun d hd => ?_
    have hfields : (d.fields == d.fields) = true := by
      refine beq_list_self fun f hf => ?_
      have hinitializer : (f.initializer == f.initializer) = true :=
        beq_option_self fun e he => e.sameAs_self (h e (List.mem_flatMap.mpr
          ⟨d, hd, List.mem_append_left _ (List.mem_flatMap.mpr ⟨f, hf, he⟩)⟩))
      show (f.ref == f.ref && f.initializer == f.initializer && f.span == f.span) = true
      simp [hinitializer]
    have hmethods : (d.methods == d.methods) = true := by
      refine beq_list_self fun m hm => ?_
      have hbody : (m.body == m.body) = true := by
        refine beq_option_self fun b hb => ?_
        have hstatements : (b.statements == b.statements) = true := by
          refine beq_list_self fun s hs => s.sameAs_self fun t ht e he => h e ?_
          -- All expressions in the method belong to the unit.
          refine mem_expressions_of_statement (List.mem_flatMap.mpr ⟨d, hd, hm⟩) ?_ he
          exact List.mem_flatMap.mpr ⟨b, hb, List.mem_flatMap.mpr ⟨s, hs, ht⟩⟩
        show (b.statements == b.statements && b.span == b.span) = true
        simp [hstatements]
      have hparameters : (m.parameters == m.parameters) = true :=
        beq_list_self fun v _ => by simp [BEq.beq, Variable.sameAs]
      show (m.ref == m.ref && m.parameters == m.parameters && m.body == m.body &&
        m.span == m.span) = true
      simp [hbody, hparameters]
    show (d.ref == d.ref && d.superclass == d.superclass && d.interfaces == d.interfaces &&
      d.fields == d.fields && d.methods == d.methods && d.span == d.span) = true
    simp [hfields, hmethods]
  show (u.name == u.name && u.types == u.types) = true
  simp [htypes]

end Lowering
