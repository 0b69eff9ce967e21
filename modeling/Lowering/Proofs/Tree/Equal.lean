import Lowering.Proofs.Tree.Correspondence
import Lowering.Tree.Equality

/-!
# Equal trees have equal parts

Equality of units is decided by going through them side by side. So the expressions
of equal units are equal one by one.

Main statement: `CompilationUnit.expressions_of_beq`.
-/

namespace Lowering

/-! ## Lists and options -/

/-- Lists that are equal by `==` are equal member by member. Nothing is asked of the instance, since
equality of trees is not reflexive on not-a-number literals. -/
theorem forall₂_of_beq {α : Type} [BEq α] {as bs : List α} (h : (as == bs) = true) :
    List.Forall₂ (fun a b => (a == b) = true) as bs := by
  induction as generalizing bs with
  | nil =>
    cases bs with
    | nil => exact .nil
    | cons b bs => cases h
  | cons a as ih =>
    cases bs with
    | nil => cases h
    | cons b bs =>
      rw [List.cons_beq_cons, Bool.and_eq_true] at h
      exact .cons h.1 (ih h.2)

/-- Options that are equal by `==` are both empty, or both hold values that are equal by `==`. -/
theorem optionRel_of_beq {α : Type} [BEq α] {a b : Option α} (h : (a == b) = true) :
    Option.Rel (fun x y => (x == y) = true) a b := by
  cases a with
  | none =>
    cases b with
    | none => exact .none
    | some b => cases h
  | some a =>
    cases b with
    | none => cases h
    | some b => exact .some h

/-- Comparing trees uses helpers of its own for the mutual recursion; they agree with the instances
on options and lists. -/
theorem Expr.sameOption_eq_beq (q q' : Option Expr) : sameOption q q' = (q == q') := by
  cases q <;> cases q' <;> rfl

theorem Expr.sameList_eq_beq (es es' : List Expr) : sameList es es' = (es == es') := by
  induction es generalizing es' with
  | nil => cases es' <;> rfl
  | cons e es ih =>
    cases es' with
    | nil => rfl
    | cons e' es' =>
      rw [sameList, ih, List.cons_beq_cons]
      rfl

/-- Statements have the same helpers as expressions, and they agree with the instances too. -/
theorem Stmt.sameOption_eq_beq (s s' : Option Stmt) : sameOption s s' = (s == s') := by
  cases s <;> cases s' <;> rfl

theorem Stmt.sameList_eq_beq (ss ss' : List Stmt) : sameList ss ss' = (ss == ss') := by
  induction ss generalizing ss' with
  | nil => cases ss' <;> rfl
  | cons s ss ih =>
    cases ss' with
    | nil => rfl
    | cons s' ss' =>
      rw [sameList, ih, List.cons_beq_cons]
      rfl

/-! ## Statements -/

namespace Stmt

/-- Equal statements have equal expressions and equal statements inside. -/
theorem parts_of_beq {s s' : Stmt} (h : (s == s') = true) :
    List.Forall₂ (fun e e' => (e == e') = true) s.expressions s'.expressions ∧
      List.Forall₂ (fun c c' => (c == c') = true) s.children s'.children := by
  have hsame : s.sameAs s' = true := h
  -- Statements of different kinds are never equal.
  unfold sameAs at hsame
  simp only [sameOption_eq_beq, sameList_eq_beq, Expr.sameOption_eq_beq,
    Expr.sameList_eq_beq] at hsame
  -- One case for each kind of statement; the last one is that of two different kinds.
  split at hsame
  · rw [Bool.and_eq_true] at hsame
    exact ⟨.cons hsame.1 .nil, .nil⟩
  · rw [Bool.and_eq_true] at hsame
    exact ⟨.nil, forall₂_of_beq hsame.1⟩
  · rw [Bool.and_eq_true] at hsame
    exact ⟨forall₂_toList (optionRel_of_beq hsame.1), .nil⟩
  · simp only [Bool.and_eq_true] at hsame
    obtain ⟨⟨⟨hc, ha⟩, hb⟩, _⟩ := hsame
    exact ⟨.cons hc .nil, .cons ha (forall₂_toList (optionRel_of_beq hb))⟩
  · simp only [Bool.and_eq_true] at hsame
    obtain ⟨⟨hc, hb⟩, _⟩ := hsame
    exact ⟨.cons hc .nil, .cons hb .nil⟩
  · simp only [Bool.and_eq_true] at hsame
    obtain ⟨⟨⟨⟨hi, hc⟩, hu⟩, hb⟩, _⟩ := hsame
    -- A loop has its expressions in three places, in the order in which `Stmt.expressions` lists
    -- them.
    refine ⟨?_, .cons hb .nil⟩
    exact List.rel_append (List.rel_append (forall₂_of_beq hi)
      (forall₂_toList (optionRel_of_beq hc))) (forall₂_of_beq hu)
  · simp only [Bool.and_eq_true] at hsame
    obtain ⟨⟨hc, hm⟩, _⟩ := hsame
    exact ⟨.cons hc (forall₂_toList (optionRel_of_beq hm)), .nil⟩
  · rw [Bool.and_eq_true] at hsame
    exact ⟨.cons hsame.1 .nil, .nil⟩
  · cases hsame

theorem substatements_of_beq {s s' : Stmt} (h : (s == s') = true) :
    List.Forall₂ (fun t t' => List.Forall₂ (fun e e' => (e == e') = true) t.expressions
      t'.expressions) s.substatements s'.substatements := by
  induction s using Stmt.childInduction generalizing s' with
  | step s ih =>
    -- The induction follows the first statement; the second one has children of the same shape.
    obtain ⟨hexpressions, hchildren⟩ := parts_of_beq h
    rw [substatements_eq, substatements_eq]
    refine .cons hexpressions (List.rel_flatMap (forall₂_imp_of_mem hchildren ?_) fun _ _ h => h)
    exact fun c hc c' hcc' => ih c hc hcc'

end Stmt

/-! ## Units -/

/-- Equal methods have equal expressions, in the order of their statements. -/
theorem MethodDecl.expressions_of_beq {d d' : MethodDecl} (h : (d == d') = true) :
    List.Forall₂ (fun e e' => (e == e') = true) (d.statements.flatMap Stmt.expressions)
      (d'.statements.flatMap Stmt.expressions) := by
  have hsame : (d.ref == d'.ref && d.parameters == d'.parameters && d.body == d'.body &&
    d.span == d'.span) = true := h
  simp only [Bool.and_eq_true] at hsame
  -- Of the parts that are compared only the body holds expressions.
  have hstatements : List.Forall₂ (fun t t' => List.Forall₂ (fun e e' => (e == e') = true)
      t.expressions t'.expressions) d.statements d'.statements := by
    refine List.rel_flatMap (forall₂_toList (optionRel_of_beq hsame.1.2)) fun b b' hb => ?_
    have hblock : (b.statements == b'.statements && b.span == b'.span) = true := hb
    rw [Bool.and_eq_true] at hblock
    exact List.rel_flatMap (forall₂_of_beq hblock.1) fun _ _ hs => Stmt.substatements_of_beq hs
  exact List.rel_flatMap hstatements fun _ _ h => h

theorem FieldDecl.expressions_of_beq {f f' : FieldDecl} (h : (f == f') = true) :
    List.Forall₂ (fun e e' => (e == e') = true) f.initializer.toList f'.initializer.toList := by
  have hsame : (f.ref == f'.ref && f.initializer == f'.initializer && f.span == f'.span) = true := h
  simp only [Bool.and_eq_true] at hsame
  exact forall₂_toList (optionRel_of_beq hsame.1.2)

/-- Equal units have equal expressions, one by one in source order. -/
theorem CompilationUnit.expressions_of_beq {u u' : CompilationUnit} (h : (u == u') = true) :
    List.Forall₂ (fun e e' => (e == e') = true) u.expressions u'.expressions := by
  have hunit : (u.name == u'.name && u.types == u'.types) = true := h
  rw [Bool.and_eq_true] at hunit
  refine List.rel_flatMap (forall₂_of_beq hunit.2) fun d d' hd => ?_
  have htype : (d.ref == d'.ref && d.superclass == d'.superclass && d.interfaces == d'.interfaces &&
    d.fields == d'.fields && d.methods == d'.methods && d.span == d'.span) = true := hd
  simp only [Bool.and_eq_true] at htype
  -- Types list the expressions of fields before those of methods.
  obtain ⟨⟨⟨_, hfields⟩, hmethods⟩, _⟩ := htype
  refine List.rel_append ?_ ?_
  · exact List.rel_flatMap (forall₂_of_beq hfields) fun _ _ hf => FieldDecl.expressions_of_beq hf
  · exact List.rel_flatMap (forall₂_of_beq hmethods) fun _ _ hm => MethodDecl.expressions_of_beq hm

end Lowering
