import Lowering.Proofs.NullSafety.Relation
import Lowering.Proofs.Shape.Correspondence

/-!
# The pass keeps the shape

The shape check accepts the result of the pass exactly when it accepts the input,
provided that the input has no assertions of its own. The scopes of the two
checks stay in step: at each point they differ by temporaries at most, and every
temporary is in scope where it is used.

Main statement: `NullSafety.pass_accepted_iff`.
-/

namespace Lowering

open Conversion Shape

namespace NullSafety

/-! ## Checks in step -/

/-- The scopes differ at most in the identities in `T`. -/
def ScopesAgree (T : VariableId → Prop) (S S' : Scope) : Prop :=
  ∀ id, ¬ T id → (id ∈ S ↔ id ∈ S')

/-- Both checks fail in the same way, or they end in scopes that agree. -/
def Alike (T : VariableId → Prop) : Except Fault Scope → Except Fault Scope → Prop
  | .ok S, .ok S' => ScopesAgree T S S'
  | .error fault, .error fault' => fault = fault'
  | _, _ => False

/-- The two checks have like results from scopes that agree. -/
def InStep (T : VariableId → Prop) (f f' : Scope → Except Fault Scope) : Prop :=
  ∀ S S', ScopesAgree T S S' → Alike T (f S) (f' S')

/-- The checks of the two expressions have like results from scopes that agree. -/
def ChecksAlike (T : VariableId → Prop) (e e' : Expr) : Prop :=
  ∀ span S S', ScopesAgree T S S' → Alike T (checkExpr span e S) (checkExpr span e' S')

/-- The result is also no assertion, so that it may be put under one. -/
structure KeepsShape (T : VariableId → Prop) (e e' : Expr) : Prop where
  checks : ChecksAlike T e e'
  plain : e'.isNotNull = false

/-- What the simulation needs of every node of the input. -/
structure Scoped (T : VariableId → Prop) (e : Expr) : Prop where
  fresh : ∀ v ∈ e.ownVariables, ¬ T v.id
  plain : e.isNotNull = false

section

variable {T : VariableId → Prop} {span : Span}

/-- A variable that both checks declare keeps their scopes in step. -/
theorem ScopesAgree.cons {S S' : Scope} (h : ScopesAgree T S S') (id : VariableId) :
    ScopesAgree T (id :: S) (id :: S') := by
  intro id' hid'
  simp only [List.mem_cons, h id' hid']

/-- A temporary in the second scope goes unnoticed. -/
theorem ScopesAgree.cons_temporary {S S' : Scope} (h : ScopesAgree T S S') {id : VariableId}
    (hid : T id) : ScopesAgree T S (id :: S') := by
  intro id' hid'
  have hne : id' ≠ id := fun heq => hid' (heq ▸ hid)
  simp only [List.mem_cons, hne, false_or, h id' hid']

/-- The second scope may be replaced by one with the same members; order and repetition do not
matter. -/
theorem ScopesAgree.of_subset {S S₁ S₂ : Scope} (h : ScopesAgree T S S₁) (h₁₂ : S₁ ⊆ S₂)
    (h₂₁ : S₂ ⊆ S₁) : ScopesAgree T S S₂ :=
  fun id hid => (h id hid).trans ⟨fun hmem => h₁₂ hmem, fun hmem => h₂₁ hmem⟩

theorem alike_pure {S S' : Scope} (h : ScopesAgree T S S') : Alike T (pure S) (pure S') := h

/-- Checks that run in step may be followed by checks that run in step. -/
theorem Alike.bind {x y : Except Fault Scope} {f g : Scope → Except Fault Scope}
    (hxy : Alike T x y) (hfg : ∀ S S', ScopesAgree T S S' → Alike T (f S) (g S')) :
    Alike T (x >>= f) (y >>= g) := by
  cases x with
  -- Failures end both checks at once, with the same fault.
  | error fault =>
    cases y with
    | error fault' => exact hxy
    | ok S' => cases hxy
  | ok S =>
    cases y with
    | error fault' => cases hxy
    | ok S' => exact hfg S S' hxy

/-- Running in step is a relation of the kind that passes through all parts of statements. -/
theorem alike_relational : Relational (InStep T) where
  ok _ _ hS := hS
  bind hf hg S S' hS := (hf S S' hS).bind hg
  binder id _ _ hf _ _ hS := hf _ _ (hS.cons id)

/-- An assertion adds nothing to the check of its operand, unless this is an assertion itself. -/
theorem checkExpr_of_wrapped {e e' : Expr} (h : Wrapped e e') (hplain : e.isNotNull = false)
    (S : Scope) : checkExpr span e' S = checkExpr span e S := by
  cases h with
  | same => rfl
  | asserted => rw [checkExpr, if_neg (by simp [hplain])]

/-! ## Updates -/

/-- An expression that has just been checked may be checked once more. -/
theorem alike_again {x rest : Scope → Except Fault Scope} {e : Expr}
    {tail : Scope → Except Fault Scope}
    (hx : ∀ S S', ScopesAgree T S S' → Alike T (x S) (checkExpr span e S'))
    (hrest : ∀ S S', ScopesAgree T S S' → Alike T (rest S) (tail S')) {S S' : Scope}
    (hS : ScopesAgree T S S') :
    Alike T (x S >>= rest) (checkExpr span e S' >>= fun S₁ => checkExpr span e S₁ >>= tail) := by
  have hfirst := hx S S' hS
  cases hxS : x S with
  -- The first check fails, so there is no second one.
  | error fault =>
    rw [hxS] at hfirst
    cases he : checkExpr span e S' with
    | error fault' =>
      rw [he] at hfirst
      exact hfirst
    | ok S₁ =>
      rw [he] at hfirst
      cases hfirst
  | ok R =>
    rw [hxS] at hfirst
    cases he : checkExpr span e S' with
    | error fault' =>
      rw [he] at hfirst
      cases hfirst
    | ok S₁ =>
      rw [he] at hfirst
      -- The second check ends in a scope with the same members as the first one.
      obtain ⟨_, hagain⟩ := rechecks_checkExpr e S' S₁ he
      obtain ⟨S₂, hS₂, hsub⟩ := hagain S₁ fun _ hid => hid
      have hR : ScopesAgree T R S₂ :=
        ScopesAgree.of_subset hfirst (rechecks_checkExpr e S₁ S₂ hS₂).1 hsub
      show Alike T (rest R) (checkExpr span e S₁ >>= tail)
      rw [hS₂]
      exact hrest R S₂ hR

/-- Once it is declared, a temporary may be read through a field. -/
theorem checkExpr_temporary (v : Variable) (f : FieldRef) (S : Scope) :
    checkExpr span (.fieldAccess (some (.varRef v)) f) (v.id :: S) = .ok (v.id :: S) := by
  simp [checkExpr, checkOption]

theorem checkExpr_declareOne (v : Variable) (e : Expr) (S : Scope) :
    checkExpr span (.declareOne v (some e)) S =
      checkExpr span e S >>= fun S₁ => .ok (v.id :: S₁) := rfl

/-- An update with its checks is checked like the update alone; `tail` checks what
comes after the target. -/
theorem alike_guarded {update : Expr → Expr} {target e : Expr}
    {x rest tail : Scope → Except Fault Scope} (h : Guarded assertions T update target e)
    (hupdate : ∀ t S, checkExpr span (update t) S = checkExpr span t S >>= tail)
    (hplain : target.isNotNull = false)
    (hx : ∀ S S', ScopesAgree T S S' → Alike T (x S) (checkExpr span target S'))
    (hrest : ∀ S S', ScopesAgree T S S' → Alike T (rest S) (tail S')) {S S' : Scope}
    (hS : ScopesAgree T S S') : Alike T (x S >>= rest) (checkExpr span e S') := by
  cases h with
  | unboxed _ | unchanged _ _ _ =>
    rw [hupdate]
    exact (hx S S' hS).bind hrest
  | checked _ hcheck _ =>
    -- The target is checked twice, once under the assertion and once in the update.
    rw [checkExpr, checkExprs, checkExpr_of_wrapped (wrapped_of_required hcheck) hplain]
    simp only [checkExprs_singleton, hupdate]
    exact alike_again hx hrest hS
  | @bound q _ f v _ _ hv _ _ _ =>
    -- The receiver is checked in the declaration, and from then on the temporary is in scope.
    rw [checkExpr, checkExprs, checkExpr_declareOne, bind_assoc]
    -- Checking the target of the input is checking its receiver, as a field itself needs no check.
    refine (hx S S' hS).bind fun R R' hR => ?_
    show Alike T (rest R) (checkExprs span _ (v.id :: R'))
    rw [checkExprs_singleton, hupdate, checkExpr_temporary]
    exact hrest R _ (hR.cons_temporary hv)
  | @boundChecked q check f v _ _ hv _ hcheck _ =>
    rw [checkExpr, checkExprs, checkExpr_declareOne, bind_assoc]
    refine (hx S S' hS).bind fun R R' hR => ?_
    show Alike T (rest R) (checkExprs span _ (v.id :: R'))
    -- The check of the bound target only reads the temporary, and leaves the scope as it is.
    rw [checkExprs, checkExpr_of_wrapped (wrapped_of_required hcheck) rfl, checkExpr_temporary]
    show Alike T (rest R) (checkExprs span _ (v.id :: R'))
    rw [checkExprs_singleton, hupdate, checkExpr_temporary]
    exact hrest R _ (hR.cons_temporary hv)

/-! ## All kinds of expressions -/

/-- Every node is checked like its result. Checks of parts are composed in the same order on both
sides, so most cases only put the facts about the parts together. -/
theorem keepsShape_congruence :
    WrapCongruence T (Scoped T) (KeepsShape T) (ChecksAlike T) where
  wrap {_ _ _} h hwrapped := fun span S S' hS => by
    rw [checkExpr_of_wrapped hwrapped h.plain]
    exact h.checks span S S' hS
  leaf {e} hleaf he := by
    refine ⟨fun span S S' hS => ?_, he.plain⟩
    cases e with
    | nullLiteral | boolLiteral | numberLiteral | stringLiteral | thisRef => exact hS
    | varRef v =>
      have hmem := hS v.id (he.fresh v List.mem_cons_self)
      -- The variable is no temporary, so the two scopes agree on it.
      rw [checkExpr, checkExpr]
      by_cases hv : v.id ∈ S
      · rw [if_pos hv, if_pos (hmem.mp hv)]
        exact hS
      · rw [if_neg hv, if_neg fun hv' => hv (hmem.mpr hv')]
        rfl
    | _ => cases hleaf
  fieldAccess _ hq := ⟨fun _ => alike_relational.option hq, rfl⟩
  call _ hq has :=
    ⟨fun _ => alike_relational.bind (alike_relational.option hq) (alike_relational.exprs has), rfl⟩
  newInstance _ has := ⟨fun _ => alike_relational.exprs has, rfl⟩
  binary _ _ hl hr := ⟨fun span S S' hS => (hl span S S' hS).bind (hr span), rfl⟩
  assign _ hl hr := ⟨fun span S S' hS => (hl.checks span S S' hS).bind (hr span), rfl⟩
  compound _ _ _ hl hr hguarded := by
    have hplain := hguarded.root (R := fun e => e.isNotNull = false) (fun _ => rfl) fun _ _ => rfl
    refine ⟨fun span S S' hS => ?_, hplain⟩
    exact alike_guarded hguarded (fun _ _ => rfl) hl.plain (hl.checks span) (hr span) hS
  unary _ _ hx := ⟨hx, rfl⟩
  step {op fixity x x₁ e type} _ _ _ hx hguarded := by
    have hplain := hguarded.root (R := fun e => e.isNotNull = false) (fun _ => rfl) fun _ _ => rfl
    refine ⟨fun span S S' hS => ?_, hplain⟩
    have hstep : Alike T (checkExpr span x S >>= pure) (checkExpr span e S') :=
      alike_guarded hguarded (fun _ _ => (bind_pure _).symm) hx.plain (hx.checks span)
        (fun _ _ => alike_pure) hS
    rwa [bind_pure] at hstep
  cast _ hx := ⟨hx, rfl⟩
  conditional _ hc ha hb :=
    ⟨fun span S S' hS => (hc span S S' hS).bind fun S₁ S₁' hS₁ =>
      (ha span S₁ S₁' hS₁).bind (hb span), rfl⟩
  -- The input has none, so that nothing the traversal wraps is an assertion already.
  notNull he _ := by cases he.plain
  -- Neither splicing nor the loss of repeated checks changes what is declared and read, nor in
  -- which order.
  multi _ _ hes := by
    refine ⟨fun span S S' hS => ?_, rfl⟩
    rw [checkExpr, checkExpr, checkExprs_dropRepeated, checkExprs_flatten]
    exact alike_relational.exprs (hes.imp fun _ _ h => h.checks) S S' hS
  declare _ hfs := ⟨fun _ => alike_relational.fragments hfs, rfl⟩

/-! ## Assert messages -/

/-- A choice between a message and its default checks the message twice: once in the condition and
once in the branch. -/
theorem checkExpr_nullChoice (type : Ty) (e : Expr) (S : Scope) :
    checkExpr span (.multi [nullChoice type e messageDefault]) S =
      checkExpr span e S >>= fun S₁ => checkExpr span e S₁ := by
  rw [checkExpr, checkExprs_singleton, nullChoice, checkExpr, Expr.equalsNull, Expr.operation,
    checkExpr, bind_assoc]
  rfl

/-- Giving a message its default keeps the check in step, too. -/
theorem checksAlike_of_defaulted {type : Ty} {e e₁ e' : Expr} (h : ChecksAlike T e e₁)
    (hdefault : Defaulted type T e₁ e') : ChecksAlike T e e' := by
  intro span S S' hS
  have hchecks := h span S S' hS
  cases hdefault with
  | known _ => exact hchecks
  | null hnull =>
    cases e₁ with
    | nullLiteral => exact hchecks
    | _ => cases hnull
  | choice _ _ =>
    -- The message is read in the condition and again in the second branch.
    rw [checkExpr_nullChoice]
    have htwice : Alike T (checkExpr span e S >>= pure)
        (checkExpr span e₁ S' >>= fun S₁ => checkExpr span e₁ S₁ >>= pure) :=
      alike_again (h span) (fun _ _ => alike_pure) hS
    simpa only [bind_pure] using htwice
  | @bound v _ _ hv _ =>
    -- The temporary is in scope for both reads.
    have hread : ∀ R : Scope, checkExpr span (.varRef v) (v.id :: R) = .ok (v.id :: R) :=
      fun R => if_pos List.mem_cons_self
    rw [checkExpr, checkExprs, checkExpr_declareOne, bind_assoc, ← bind_pure (checkExpr span e S)]
    refine hchecks.bind fun R R' hR => ?_
    show Alike T (.ok R) (checkExpr span (.multi [nullChoice type _ _]) (v.id :: R'))
    rw [checkExpr_nullChoice, hread]
    show Alike T (.ok R) (checkExpr span _ (v.id :: R'))
    rw [hread]
    exact hR.cons_temporary hv

/-- Whatever its role in the unit, an expression is checked like its result. -/
theorem checksAlike_of_step {type : Ty} {e e' : Expr} (h : (steps type T).Any e e')
    (he : e.Everywhere (Scoped T)) : ChecksAlike T e e' :=
  keepsShape_congruence.of_step (fun hkeeps => checksAlike_of_defaulted hkeeps.checks) h he

/-! ## Units -/

/-- Checks that are alike agree on success and on the fault. -/
theorem Alike.forget {x y : Except Fault Scope} (h : Alike T x y) :
    (y >>= fun _ => pure ()) = x >>= fun _ => pure () := by
  cases x with
  | error fault =>
    cases y with
    | error fault' => rw [show fault = fault' from h]
    | ok S' => cases h
  | ok S =>
    cases y with
    | error fault' => cases h
    | ok S' => rfl

/-- Lists of members whose checks agree one by one have the same first fault. -/
theorem forM_eq_of_forall₂ {α : Type} {check : α → Except Fault Unit} {as bs : List α}
    (h : List.Forall₂ (fun a b => check b = check a) as bs) : bs.forM check = as.forM check := by
  induction h with
  | nil => rfl
  | cons hab _ ih =>
    show (check _ >>= fun _ => List.forM _ check) = check _ >>= fun _ => List.forM _ check
    rw [hab, ih]

/-- Fields are checked in an empty scope, before and after. -/
theorem checkField_of_related {type : Ty} {f f' : FieldDecl} (h : f.Related (steps type T) f')
    (hf : ∀ e ∈ f.initializer.toList, e.Everywhere (Scoped T)) : checkField f' = checkField f := by
  have hinitializer : Option.Rel (ChecksAlike T) f.initializer f'.initializer :=
    optionRel_imp_of_mem h.initializer fun e he _ hstep =>
      checksAlike_of_step (.inl ⟨f.ref, hstep⟩) (hf e he)
  unfold checkField
  rw [h.span]
  exact (alike_relational.option hinitializer [] [] fun _ _ => Iff.rfl).forget

/-- Methods are checked with their parameters in scope, which the pass leaves alone. -/
theorem checkMethod_of_related {type : Ty} {d d' : MethodDecl} (h : d.Related (steps type T) d')
    (hd : ∀ s ∈ d.statements, ∀ e ∈ s.expressions, e.Everywhere (Scoped T)) :
    checkMethod d' = checkMethod d := by
  unfold checkMethod
  rw [h.parameters]
  unfold MethodDecl.statements at hd
  generalize d.parameters.map (·.id) = scope
  obtain hbody := h.body
  generalize d.body = body, d'.body = body' at hbody hd
  cases hbody with
  | none => rfl
  | @some b b' hb =>
    have hstatements : InStep T (checkStmts b.statements) (checkStmts b'.statements) := by
      refine alike_relational.stmts (forall₂_imp_of_mem hb.statements fun s hs s' hss' => ?_)
      -- Statements keep their form, so only their expressions are in question.
      refine alike_relational.stmt_of_related hss' fun t ht e he e' hstep => ?_
      refine checksAlike_of_step (.inr ⟨d.ref, hstep⟩) (hd t ?_ e he)
      exact List.mem_flatMap.mpr ⟨b, by simp, List.mem_flatMap.mpr ⟨s, hs, ht⟩⟩
    exact (hstatements scope scope fun _ _ => Iff.rfl).forget

/-- The result of the pass has the same first fault as the input, or none like it. Temporaries must
not occur in the input, and neither may assertions. -/
theorem checkShape_of_related {type : Ty} {u u' : CompilationUnit}
    (h : u.Related (steps type T) u') (hu : u.Everywhere (Scoped T)) :
    u'.checkShape = u.checkShape := by
  refine forM_eq_of_forall₂ (forall₂_imp_of_mem h.types fun d hd d' hdd' => ?_)
  have hfields : d'.fields.forM checkField = d.fields.forM checkField := by
    refine forM_eq_of_forall₂ (forall₂_imp_of_mem hdd'.fields fun f hf f' hff' => ?_)
    refine checkField_of_related hff' fun e he => hu e (List.mem_flatMap.mpr ⟨d, hd, ?_⟩)
    exact List.mem_append_left _ (List.mem_flatMap.mpr ⟨f, hf, he⟩)
  have hmethods : d'.methods.forM checkMethod = d.methods.forM checkMethod := by
    refine forM_eq_of_forall₂ (forall₂_imp_of_mem hdd'.methods fun m hm m' hmm' => ?_)
    refine checkMethod_of_related hmm' fun s hs e he => hu e (List.mem_flatMap.mpr ⟨d, hd, ?_⟩)
    exact List.mem_append_right _ (List.mem_flatMap.mpr ⟨m, hm, List.mem_flatMap.mpr ⟨s, hs, he⟩⟩)
  unfold checkType
  rw [hfields, hmethods]

/-- An expression that passes with all variables of the unit in scope has a result that passes. -/
theorem passes_of_checksAlike {known : Scope} (hknown : ∀ id ∈ known, ¬ T id) {e e' : Expr}
    (h : ChecksAlike T e e') (he : e.Everywhere (Unobjectionable known)) :
    Passes known (checkExpr span e') := by
  intro S hS
  -- The input passes from this scope, and the result is checked like the input.
  obtain ⟨R, hR, hknownR⟩ := passes_compositional.holds he S hS
  have halike := h span S S fun _ _ => Iff.rfl
  rw [hR] at halike
  cases hcheck : checkExpr span e' S with
  | error fault =>
    rw [hcheck] at halike
    cases halike
  | ok R' =>
    rw [hcheck] at halike
    exact ⟨R', rfl, fun id hid => (halike id (hknown id hid)).mp (hknownR hid)⟩

/-- With the variables of the input in scope, every expression of the result
passes by itself. -/
theorem checkExpr_of_related {type : Ty} {u u' : CompilationUnit}
    (h : u.Related (steps type T) u') (hu : u.Everywhere (Scoped T))
    (hfresh : ∀ v ∈ u.allVariables, ¬ T v.id) {e' : Expr} (he' : e' ∈ u'.expressions) :
    ∃ scope, checkExpr span e' (u.allVariables.map (·.id)) = .ok scope := by
  obtain ⟨e, he, hstep⟩ := exists_of_mem_forall₂ h.expressions he'
  have halike : ChecksAlike T e e' := checksAlike_of_step hstep (hu e he)
  have hknown : ∀ id ∈ u.allVariables.map (·.id), ¬ T id := by
    intro id hid
    obtain ⟨v, hv, rfl⟩ := List.mem_map.mp hid
    exact hfresh v hv
  have hinput : e.Everywhere (Unobjectionable (u.allVariables.map (·.id))) := fun x hx =>
    ⟨(hu e he x hx).plain,
      fun v hv => List.mem_map.mpr ⟨v, u.everywhere_ownVariables e he x hx v hv, rfl⟩⟩
  obtain ⟨scope, hok, _⟩ := passes_of_checksAlike hknown halike hinput _ fun _ hid => hid
  exact ⟨scope, hok⟩

end

/-- On a unit without assertions whose variables are not issued again, the pass
succeeds, and the shape check accepts its result exactly when it accepts the unit;
a fault is the same in both. Accepted or not, the result has no assertion directly
on another one, and each of its expressions passes the check by itself if the
variables of the unit are in scope: it declares its temporaries before it uses
them. -/
theorem pass_accepted_iff (u : CompilationUnit) (context : PassContext)
    (hplain : u.Everywhere fun e => e.isNotNull = false)
    (hfresh : ∀ v ∈ u.allVariables, ¬ context.supply.CanIssue v.id) :
    ∃ u' context', pass.apply u context = (.ok u', context') ∧
      ((∃ c, Shape.pass.apply u' context' = (.ok u', c)) ↔
        ∃ c, Shape.pass.apply u context = (.ok u, c)) ∧
      u'.checkShape = u.checkShape ∧
      (u'.Everywhere fun e => e.isDoubledAssertion = false) ∧
      ∀ e ∈ u'.expressions, ∀ span, ∃ scope,
        checkExpr span e (u.allVariables.map (·.id)) = .ok scope := by
  obtain ⟨context', happly⟩ := pass_apply u context
  have hrelated := run_related Known.object.toNonNullable context.problems context.supply u
  have hissued : ∀ v ∈ u.allVariables, ¬ context.supply.Issues
      (run Known.object.toNonNullable context.problems context.supply u).supply v.id :=
    fun v hv hid => hfresh v hv hid.canIssue
  -- From here on all that matters of the run is that its temporaries are not in the unit.
  generalize context.supply.Issues _ = T at hrelated hissued
  generalize (run Known.object.toNonNullable context.problems context.supply u).unit = u'
    at happly hrelated
  have hscoped : u.Everywhere (Scoped T) := fun e he x hx =>
    ⟨fun v hv => hissued v (u.everywhere_ownVariables e he x hx v hv), hplain e he x hx⟩
  have hcheck : u'.checkShape = u.checkShape := checkShape_of_related hrelated hscoped
  have hpasses : ∀ e ∈ u'.expressions, ∀ span, ∃ scope,
      checkExpr span e (u.allVariables.map (·.id)) = .ok scope := fun e he span =>
    checkExpr_of_related hrelated hscoped hissued he
  refine ⟨u', context', happly, ?_, hcheck, fun e he => ?_, hpasses⟩
  · rw [pass_accepts_iff, pass_accepts_iff, hcheck]
  · obtain ⟨scope, hok⟩ := hpasses e he {}
    exact Checked.not_doubled ⟨_, scope, hok⟩

theorem nullableHolder_accepted_iff :
    (nullableHolder.Everywhere fun e => e.isNotNull = false) ∧
      (∀ v ∈ nullableHolder.allVariables, ¬ Supply.CanIssue { origin := 1 } v.id) ∧
      ∃ u' context', pass.apply nullableHolder
        { unitName := "Holder.java", supply := { origin := 1 } } = (.ok u', context') ∧
        ((∃ c, Shape.pass.apply u' context' = (.ok u', c)) ↔
          ∃ c, Shape.pass.apply nullableHolder
            { unitName := "Holder.java", supply := { origin := 1 } } = (.ok nullableHolder, c)) ∧
        u'.checkShape = nullableHolder.checkShape ∧
        (u'.Everywhere fun e => e.isDoubledAssertion = false) ∧
        ∀ e ∈ u'.expressions, ∀ span, ∃ scope,
          checkExpr span e (nullableHolder.allVariables.map (·.id)) = .ok scope :=
  ⟨by decide, by decide, pass_accepted_iff nullableHolder _ (by decide) (by decide)⟩

end NullSafety

end Lowering
