import Lowering.Proofs.Shape.Scope

/-!
# Accepted units

A unit is accepted if each of its fields and method bodies is. Every expression
in it has then passed the check, in some scope, so no assertion of the unit stands
directly on another one.

Main statements:

- `Shape.not_doubled_of_checkShape`
- `Shape.pass_apply_eq_ok`: the pass returns the units that it accepts as they are.
-/

namespace Lowering

namespace Shape

/-! ## Declarations -/

/-- Checks one after the other succeed if each of them does. They share no state, unlike the checks
inside a method. -/
theorem forM_eq_ok {α : Type} {check : α → Except Fault Unit} {as : List α} :
    as.forM check = .ok () ↔ ∀ a ∈ as, check a = .ok () := by
  induction as with
  | nil => simp [List.forM, pure, Except.pure]
  | cons a as ih =>
    have hstep : (a :: as).forM check = check a >>= fun _ => as.forM check := rfl
    rw [hstep, bind_eq_ok, List.forall_mem_cons, ← ih]
    exact ⟨fun ⟨_, ha, has⟩ => ⟨ha, has⟩, fun ⟨ha, has⟩ => ⟨(), ha, has⟩⟩

theorem checkType_eq_ok {d : TypeDecl} :
    checkType d = .ok () ↔
      (∀ f ∈ d.fields, checkField f = .ok ()) ∧ ∀ m ∈ d.methods, checkMethod m = .ok () := by
  rw [← forM_eq_ok, ← forM_eq_ok]
  show (d.fields.forM checkField >>= fun _ => d.methods.forM checkMethod) = .ok () ↔ _
  rw [bind_eq_ok]
  exact ⟨fun ⟨_, hfields, hmethods⟩ => ⟨hfields, hmethods⟩,
    fun ⟨hfields, hmethods⟩ => ⟨(), hfields, hmethods⟩⟩

/-- An initializer is checked with no variable in scope. -/
theorem checkField_eq_ok {f : FieldDecl} :
    checkField f = .ok () ↔ ∃ S, checkOption f.span f.initializer [] = .ok S := by
  show (checkOption f.span f.initializer [] >>= fun _ => pure ()) = .ok () ↔ _
  rw [bind_eq_ok]
  exact ⟨fun ⟨S, h, _⟩ => ⟨S, h⟩, fun ⟨S, h⟩ => ⟨S, h, rfl⟩⟩

/-- A body is checked with the parameters in scope, and a method without a body has nothing to
check. -/
theorem checkMethod_eq_ok {d : MethodDecl} :
    checkMethod d = .ok () ↔
      ∀ b ∈ d.body, ∃ S, checkStmts b.statements (d.parameters.map (·.id)) = .ok S := by
  unfold checkMethod
  cases d.body with
  | none => simp
  | some b =>
    show (checkStmts b.statements (d.parameters.map (·.id)) >>= fun _ => pure ()) = .ok () ↔ _
    rw [bind_eq_ok]
    exact ⟨fun ⟨S, h, _⟩ _ hb => by cases hb; exact ⟨S, h⟩,
      fun h => (h b rfl).elim fun S h => ⟨S, h, rfl⟩⟩

/-! ## Expressions of an accepted unit -/

/-- If a statement passes, each expression that stands directly in it has passed, in the scope that
the check had come to. -/
theorem checked_of_checkStmt {s : Stmt} {S S₁ : Scope} (h : checkStmt s S = .ok S₁) :
    ∀ e ∈ s.expressions, Checked s.span e := by
  intro e he
  cases s with
  | expression x span =>
    obtain rfl := List.mem_singleton.mp he
    exact ⟨S, S₁, h⟩
  | block ss span => cases he
  | returnValue v span => exact checked_of_checkOption h e he
  -- The expression is checked first, so the rest of the check does not matter.
  | conditional c a b span =>
    obtain ⟨S₀, hcondition, _⟩ := bind_eq_ok.mp h
    obtain rfl := List.mem_singleton.mp he
    exact ⟨S, S₀, hcondition⟩
  | whileLoop c b span =>
    obtain ⟨S₀, hcondition, _⟩ := bind_eq_ok.mp h
    obtain rfl := List.mem_singleton.mp he
    exact ⟨S, S₀, hcondition⟩
  -- Each part of the header has been checked in the scope after the parts before it.
  | forLoop i c u b span =>
    obtain ⟨S₀, hinitializers, hrest⟩ := bind_eq_ok.mp h
    obtain ⟨S₀', hcondition, hrest'⟩ := bind_eq_ok.mp hrest
    obtain ⟨S₀'', hupdates, _⟩ := bind_eq_ok.mp hrest'
    simp only [Stmt.expressions, List.mem_append] at he
    rcases he with (he | he) | he
    · exact checked_of_checkExprs hinitializers e he
    · exact checked_of_checkOption hcondition e he
    · exact checked_of_checkExprs hupdates e he
  | assertion c m span =>
    obtain ⟨S₀, hcondition, hmessage⟩ := bind_eq_ok.mp h
    rcases List.mem_cons.mp he with rfl | he
    · exact ⟨S, S₀, hcondition⟩
    · exact checked_of_checkOption hmessage e he
  | throwValue v span =>
    obtain rfl := List.mem_singleton.mp he
    exact ⟨S, S₁, h⟩

/-- In a list of statements that passes, each one passes in some scope. -/
theorem checkStmt_of_checkStmts {ss : List Stmt} {S S₁ : Scope} (h : checkStmts ss S = .ok S₁) :
    ∀ s ∈ ss, ∃ S S₁, checkStmt s S = .ok S₁ := by
  induction ss generalizing S with
  | nil => nofun
  | cons s ss ih =>
    obtain ⟨S₀, hfirst, hrest⟩ := bind_eq_ok.mp h
    intro t ht
    rcases List.mem_cons.mp ht with rfl | ht
    · exact ⟨S, S₀, hfirst⟩
    · exact ih hrest t ht

/-- The statements inside a statement that passes have passed as well. -/
theorem checkStmt_child {s c : Stmt} {S S₁ : Scope} (h : checkStmt s S = .ok S₁)
    (hc : c ∈ s.children) : ∃ S S₁, checkStmt c S = .ok S₁ := by
  cases s with
  -- These have no statements inside.
  | expression | returnValue | assertion | throwValue => cases hc
  | block ss span => exact checkStmt_of_checkStmts h c hc
  | conditional x a b span =>
    obtain ⟨S₀, _, hrest⟩ := bind_eq_ok.mp h
    obtain ⟨S₀', htrue, hfalse⟩ := bind_eq_ok.mp hrest
    rcases List.mem_cons.mp hc with rfl | hc
    · exact ⟨S₀, S₀', htrue⟩
    · cases b with
      | none => cases hc
      | some b =>
        obtain rfl : c = b := by simpa using hc
        exact ⟨S₀', S₁, hfalse⟩
  | whileLoop x b span =>
    obtain ⟨S₀, _, hbody⟩ := bind_eq_ok.mp h
    obtain rfl := List.mem_singleton.mp hc
    exact ⟨S₀, S₁, hbody⟩
  | forLoop i x u b span =>
    obtain ⟨S₀, _, hrest⟩ := bind_eq_ok.mp h
    obtain ⟨S₀', _, hrest'⟩ := bind_eq_ok.mp hrest
    obtain ⟨S₀'', _, hbody⟩ := bind_eq_ok.mp hrest'
    obtain rfl := List.mem_singleton.mp hc
    exact ⟨S₀'', S₁, hbody⟩

/-- Every expression of a statement that passes has passed, however deep it stands. The span is that
of the innermost statement around the expression. -/
theorem checked_of_substatement {s : Stmt} {S S₁ : Scope} (h : checkStmt s S = .ok S₁) :
    ∀ t ∈ s.substatements, ∀ e ∈ t.expressions, ∃ span, Checked span e := by
  induction s using Stmt.childInduction generalizing S S₁ with
  | step s ih =>
    intro t ht e he
    rw [Stmt.substatements_eq] at ht
    -- It stands in the statement itself or below one of the statements inside it.
    rcases List.mem_cons.mp ht with rfl | ht
    · exact ⟨_, checked_of_checkStmt h e he⟩
    · obtain ⟨c, hc, ht⟩ := List.mem_flatMap.mp ht
      obtain ⟨S₀, S₀', hchild⟩ := checkStmt_child h hc
      exact ih c hc hchild t ht e he

/-- Every expression of an accepted unit has passed the check. -/
theorem checked_of_checkShape {u : CompilationUnit} (h : u.checkShape = .ok ()) :
    ∀ e ∈ u.expressions, ∃ span, Checked span e := by
  intro e he
  rw [CompilationUnit.checkShape, forM_eq_ok] at h
  obtain ⟨d, hd, he⟩ := List.mem_flatMap.mp he
  obtain ⟨hfields, hmethods⟩ := checkType_eq_ok.mp (h d hd)
  -- Expressions of a type declaration are those of its fields, then those of its methods.
  rcases List.mem_append.mp he with he | he
  · obtain ⟨f, hf, he⟩ := List.mem_flatMap.mp he
    obtain ⟨S, hS⟩ := checkField_eq_ok.mp (hfields f hf)
    exact ⟨f.span, checked_of_checkOption hS e he⟩
  · obtain ⟨m, hm, he⟩ := List.mem_flatMap.mp he
    obtain ⟨t, ht, he⟩ := List.mem_flatMap.mp he
    obtain ⟨b, hb, ht⟩ := List.mem_flatMap.mp ht
    obtain ⟨s, hs, ht⟩ := List.mem_flatMap.mp ht
    obtain ⟨S, hS⟩ := checkMethod_eq_ok.mp (hmethods m hm) b (Option.mem_toList.mp hb)
    obtain ⟨S₀, S₁, hstmt⟩ := checkStmt_of_checkStmts hS s hs
    exact checked_of_substatement hstmt t ht e he

/-- No assertion of an accepted unit stands directly on another one, in whatever field or method. -/
theorem not_doubled_of_checkShape {u : CompilationUnit} (h : u.checkShape = .ok ()) :
    u.Everywhere fun e => e.isDoubledAssertion = false := by
  intro e he
  obtain ⟨span, hchecked⟩ := checked_of_checkShape h e he
  exact hchecked.not_doubled

/-! ## The pass -/

/-- The pass returns the units that it accepts as they are. -/
theorem pass_apply_eq_ok {u u' : CompilationUnit} {context context' : PassContext} :
    pass.apply u context = (.ok u', context') ↔
      u.checkShape = .ok () ∧ u' = u ∧ context' = context := by
  unfold pass
  cases hcheck : u.checkShape with
  -- A fault is reported as an error, so that there is no unit to return.
  | error fault =>
    simp only [hcheck]
    constructor
    · intro h
      cases h
    · nofun
  | ok _ =>
    simp only [hcheck]
    constructor
    · intro h
      cases h
      exact ⟨trivial, rfl, rfl⟩
    · rintro ⟨_, rfl, rfl⟩
      rfl

/-- The pass reports what the check finds, in its own name. -/
theorem pass_apply_of_fault {u : CompilationUnit} {fault : Fault} (h : u.checkShape = .error fault)
    (context : PassContext) :
    pass.apply u context = (.error (.inconsistent
      { pass := passName, message := fault.violation.message, span := fault.span }), context) := by
  unfold pass
  simp only [h]
  rfl

end Shape

end Lowering
