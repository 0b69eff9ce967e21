import Lowering.Proofs.NullSafety.Quiet
import Lowering.Proofs.NullSafety.SafeResult

/-!
# Running the pass again

A result of the pass that is null-safe is also settled, so that the first traversal of
another run does nothing to it. The second one does nothing either, because assert
messages have their defaults. Conversely a run that changes nothing shows that its unit is
null-safe: every site holds what the run would put there.

Main statement: `NullSafety.pass_again`. Another run changes nothing exactly if the result is
null-safe, that is on the condition of `NullSafety.pass_nullSafe`. It asks that only variables
and fields are updated, that no expression is of a wildcard or a capture and that no literal
is not-a-number. `NullSafety.pass_again_fails_after_empty` is a unit whose result is changed.
-/

namespace Lowering

open Conversion

namespace NullSafety

/-! ## Messages that have their default -/

/-- The computation returns a value and does nothing else. -/
def pureLogic (m : Type → Type) [Monad m] [LawfulMonad m] : TraceLogic m Unit Empty where
  Holds _ x Q := ∃ a, x = Pure.pure a ∧ Q a
  pure hQ := ⟨_, rfl, hQ⟩
  bind {α β g g' x f Q Q'} hx hf := by
    obtain ⟨a, rfl, hQ⟩ := hx
    obtain ⟨b, hb, hQ'⟩ := hf a hQ
    exact ⟨b, by rw [pure_bind, hb], hQ'⟩

section

variable {type : Ty}

/-- The second traversal gives back all expressions and leaves its state alone. -/
theorem messageDefaults_pureExpr : Transform.TracesExpr (pureLogic (StateM Defaults))
    (messageDefaults type) (fun _ => True) Eq fun _ _ => [] := by
  constructor
  case fieldAccess =>
    intro q q' f _ hq
    exact ⟨_, rfl, by rw [eq_of_optionRel hq]⟩
  case call =>
    intro q q' target as as' _ hq has
    exact ⟨_, rfl, by rw [eq_of_optionRel hq, eq_of_forall₂ has]⟩
  case newInstance =>
    intro target as as' _ has
    exact ⟨_, rfl, by rw [eq_of_forall₂ has]⟩
  case multi =>
    intro es es' _ hes
    exact ⟨_, rfl, by rw [eq_of_forall₂ hes]⟩
  case declare =>
    intro fs fs' _ hfs
    exact ⟨_, rfl, by rw [eq_of_fragments hfs]⟩
  -- Nodes with single parts, for which the equations are simply substituted.
  all_goals
    intros
    exact ⟨_, rfl, by simp_all⟩

/-- The message of an assertion is known to be non-null. -/
def KnownMessage (s : Stmt) : Prop :=
  ∀ condition message span, s = .assertion condition (some message) span →
    message.isKnownNonNull = true

/-- A message that is known to be non-null needs no default. -/
theorem defaultMessage_of_known {message : Option Expr}
    (h : ∀ e ∈ message, e.isKnownNonNull = true) : defaultMessage type message = pure message := by
  cases message with
  | none => rfl
  | some e =>
    funext state
    simp only [defaultMessage, withDefault, h e rfl, if_true]
    rfl

/-- If all messages are known to be non-null, statements are given back too. -/
theorem messageDefaults_pureStmt : Transform.TracesStmt (pureLogic (StateM Defaults))
    (messageDefaults type) KnownMessage Eq Eq .silent := by
  constructor
  case bracketed =>
    rintro s inner g Q ⟨a, rfl, hQ⟩
    exact ⟨a, rfl, hQ⟩
  case expr => exact fun _ _ => Transform.expr_traces messageDefaults_pureExpr _ fun _ _ => trivial
  case returnValue =>
    intro v v' span _ hv
    exact ⟨_, rfl, by rw [eq_of_optionRel hv]⟩
  case block =>
    intro ss ss' span _ hss
    exact ⟨_, rfl, by rw [eq_of_forall₂ hss]⟩
  case conditional =>
    rintro c _ a _ b b' span _ rfl rfl hb
    exact ⟨_, rfl, by rw [eq_of_optionRel hb]⟩
  case forLoop =>
    rintro i i' c c' u u' b _ span _ hi hc hu rfl
    exact ⟨_, rfl, by rw [eq_of_forall₂ hi, eq_of_optionRel hc, eq_of_forall₂ hu]⟩
  case assertion =>
    rintro c _ message message' span hs rfl hmessage
    obtain rfl := eq_of_optionRel hmessage
    have hknown : ∀ e ∈ message, e.isKnownNonNull = true := by
      rintro e ⟨⟩
      exact hs c e span rfl
    show (pureLogic (StateM Defaults)).Holds _ (defaultMessage type message >>= fun message =>
      pure (Stmt.assertion c message span)) _
    rw [defaultMessage_of_known hknown, pure_bind]
    exact (pureLogic (StateM Defaults)).pure rfl
  all_goals
    intros
    exact ⟨_, rfl, by simp_all⟩

/-- The second traversal does nothing at all to a unit whose messages are known to be non-null. -/
theorem messageDefaults_unit {u : CompilationUnit}
    (h : ∀ d ∈ u.methods, ∀ s ∈ d.statements, KnownMessage s) :
    (messageDefaults type).unit u = pure u := by
  have hfield : ∀ f, (pureLogic (StateM Defaults)).Holds (fun _ => [])
      ((messageDefaults type).field f) (Eq f) := by
    intro f
    obtain ⟨i, hi, hrel⟩ := Transform.optionalExpr_traces (t := messageDefaults type)
      messageDefaults_pureExpr f.initializer fun _ _ _ _ => trivial
    refine ⟨{ f with initializer := i }, ?_, by rw [← eq_of_optionRel hrel]⟩
    unfold Transform.field
    rw [hi]
    rfl
  have hmethod : ∀ d ∈ u.methods, (pureLogic (StateM Defaults)).Holds (fun _ => [])
      ((messageDefaults type).method d) (Eq d) := by
    intro d hd
    have hbody : (pureLogic (StateM Defaults)).Holds (fun _ => [])
        ((messageDefaults type).optionalBlock d.body) (Eq d.body) := by
      refine Transform.optionalBlock_keeps (fun b => ⟨b, rfl, rfl⟩) fun b hb => ?_
      refine Transform.stmts_traces messageDefaults_pureStmt b.statements fun s hs => h d hd s ?_
      rw [Stmt.substatementsList_eq_flatMap] at hs
      exact List.mem_flatMap.mpr ⟨b, Option.mem_toList.mpr hb, hs⟩
    obtain ⟨body, hrun, hkept⟩ := hbody
    refine ⟨{ d with body }, ?_, by rw [← hkept]⟩
    unfold Transform.method
    rw [hrun]
    rfl
  have hunit : (pureLogic (StateM Defaults)).Holds (fun _ => []) ((messageDefaults type).unit u)
      (Eq u) :=
    Transform.unit_keeps (fun _ => ⟨(), rfl, trivial⟩) (fun _ => ⟨(), rfl, trivial⟩)
      (fun d => ⟨d, rfl, rfl⟩) (fun u => ⟨u, rfl, rfl⟩) (fun f _ => hfield f) hmethod
  -- The traversal is `pure` of something that equals the unit.
  obtain ⟨_, hrun, rfl⟩ := hunit
  exact hrun

end

/-! ## The pass -/

/-- On a unit that is null-safe and settled both traversals do nothing, so neither does the pass.
The number of asserted values is no part of what is compared. -/
theorem run_of_ready {u : CompilationUnit} (h : ReadyUnit u) (type : Ty) (problems : Problems)
    (supply : Supply) :
    (run type problems supply u).unit = u ∧ (run type problems supply u).problems = problems ∧
      (run type problems supply u).supply = supply := by
  have hfirst := unit_quiet h { supply } { problems } rfl
  generalize hrun : (conversion asserting).unit u { supply } { problems } = first at hfirst
  obtain ⟨⟨u₁, cursor⟩, tally⟩ := first
  obtain ⟨_, hsupply, hproblems, hunit⟩ := hfirst
  -- Messages are not null, as the unit is null-safe, and without wildcards this is known of them.
  have hsecond : (messageDefaults type).unit u₁ = pure u := by
    rw [← show u = u₁ from hunit]
    refine messageDefaults_unit fun d hd s hs condition message span heq => ?_
    subst heq
    have hready := h.statement hd hs
    have hmem : message ∈ (Stmt.assertion condition (some message) span).expressions := by
      simp [Stmt.expressions]
    exact (hready.expressions message hmem).1.here.plain.isKnownNonNull (hready.safe.2 message rfl)
  unfold run
  simp only [StateT.run, hrun, hsecond]
  exact ⟨rfl, hproblems, hsupply⟩

section

variable {T : VariableId → Prop} {u u' : CompilationUnit}

/-- What the pass makes of the expressions of a unit is neat. -/
theorem neat_of_related (h : u.Related (steps Known.object.toNonNullable T) u')
    (hupdatable : u.Everywhere Updatable) : ∀ e ∈ u'.expressions, Neat e := by
  intro e' he'
  obtain ⟨e, he, hstep⟩ := exists_of_mem_forall₂ h.expressions he'
  exact neat_of_step hstep (hupdatable e he)

/-- What the pass makes of a unit is ready for another run, if it is null-safe. -/
theorem ready_of_related (h : u.Related (steps Known.object.toNonNullable T) u')
    (hupdatable : u.Everywhere Updatable) (hplain : u.Everywhere Expr.Plain)
    (hsafe : u'.NullSafe) : ReadyUnit u' := by
  have hplain' := h.everywhere (everywhere_plain_of_step rfl) hplain
  have hneat := neat_of_related h hupdatable
  refine ⟨hsafe, fun e he => ⟨fun x hx => ?_, (hneat e he).pending⟩⟩
  exact ⟨hsafe.expressions e he x hx, (hneat e he).tidy x hx, hplain' e he x hx,
    (hneat e he).number x hx⟩

/-- A unit that a run leaves as it is is null-safe. Its updates bind nothing: in a neat tree
receivers have been bound. -/
theorem nullSafe_of_unchanged (h : u'.Related (steps Known.object.toNonNullable T) u')
    (hneat : ∀ e ∈ u'.expressions, Neat e) : u'.NullSafe := by
  -- No receiver is bound, so the types of variables do not matter.
  refine safe_of_related (Γ := fun _ => .nullType) rfl rfl h fun e he x hx => .inl ?_
  have htidy : x.Tidy := (hneat e he).tidy x hx
  cases hupdated : x.updated? with
  | none => simp [Expr.bindsReceiver, hupdated]
  | some target => exact (Expr.bindsReceiver_eq_false hupdated).mpr (htidy.target target hupdated).2

end

/-- Let only variables and fields be updated, no expression be of a wildcard or a capture and
no literal be not-a-number. Another run over the result of the pass, in any context, returns
the same unit, takes no temporary from the supply and records no diagnostic, exactly if no
update of the unit binds a receiver that is left with the null type. -/
theorem pass_again (u : CompilationUnit) (context : PassContext) (hcoherent : u.Coherent)
    (htarget : u.Everywhere fun e => e.updatesPlace = true) (hplain : u.Everywhere Expr.Plain)
    (hnumber : u.Everywhere fun e => e.isNaNLiteral = false) :
    ∃ u' context', pass.apply u context = (.ok u', context') ∧ (u' == u') = true ∧
      ((∀ context₁, ∃ context₂, pass.apply u' context₁ = (.ok u', context₂) ∧
          context₂.supply = context₁.supply ∧ context₂.problems = context₁.problems) ↔
        u.Everywhere fun e => e.bindsNull = false) := by
  obtain ⟨Γ, htyped⟩ := hcoherent.typed
  obtain ⟨context', happly⟩ := pass_apply u context
  have hrelated := run_related Known.object.toNonNullable context.problems context.supply u
  have hupdatable : u.Everywhere Updatable :=
    fun e he x hx => ⟨htarget e he x hx, hnumber e he x hx⟩
  -- Neatness does not depend on null safety, so both directions may use it.
  have hneat := neat_of_related hrelated hupdatable
  refine ⟨_, context', happly, ?_, fun hagain => ?_, fun hvalues context₁ => ?_⟩
  · exact CompilationUnit.beq_self fun e he => (hneat e he).number
  · obtain ⟨_, hagain, _⟩ := hagain context
    obtain ⟨_, happly₁⟩ := pass_apply
      (run Known.object.toNonNullable context.problems context.supply u).unit context
    -- The second run relates the result of the first one to itself.
    have hsame := run_related Known.object.toNonNullable context.problems context.supply
      (run Known.object.toNonNullable context.problems context.supply u).unit
    have hunit := Except.ok.inj (congrArg Prod.fst (happly₁.symm.trans hagain))
    rw [hunit] at hsame
    exact (nullSafe_iff_of_related hrelated htyped).mp (nullSafe_of_unchanged hsame hneat)
  -- The other direction goes through null safety: safe and neat units are left alone.
  · have hsafe := (nullSafe_iff_of_related hrelated htyped).mpr hvalues
    have hready := ready_of_related hrelated hupdatable hplain hsafe
    obtain ⟨context₂, hagain, hsupply, hproblems⟩ := exists_pass_context
      (run Known.object.toNonNullable context.problems context.supply u).unit context₁
    obtain ⟨hunit, hproblems', hsupply'⟩ :=
      run_of_ready hready Known.object.toNonNullable context₁.problems context₁.supply
    rw [hunit] at hagain
    exact ⟨context₂, hagain, hsupply.trans hsupply', hproblems.trans hproblems'⟩

theorem nullableHolder_again :
    nullableHolder.Coherent ∧ (nullableHolder.Everywhere fun e => e.updatesPlace = true) ∧
      nullableHolder.Everywhere Expr.Plain ∧
      (nullableHolder.Everywhere fun e => e.isNaNLiteral = false) ∧
      (nullableHolder.Everywhere fun e => e.hasNullReceiver = false) ∧
      (nullableHolder.Everywhere fun e => e.hasHollowReceiver = false) ∧
      ∃ u' context', pass.apply nullableHolder
          { unitName := "Holder.java", supply := { origin := 1 } } = (.ok u', context') ∧
        (u' == u') = true ∧
        ∀ context₁, ∃ context₂, pass.apply u' context₁ = (.ok u', context₂) ∧
          context₂.supply = context₁.supply ∧ context₂.problems = context₁.problems := by
  have hnull : nullableHolder.Everywhere fun e => e.hasNullReceiver = false := by decide
  have hhollow : nullableHolder.Everywhere fun e => e.hasHollowReceiver = false := by decide
  refine ⟨by decide, by decide, by decide, by decide, hnull, hhollow, ?_⟩
  obtain ⟨u', context', happly, hself, hagain⟩ :=
    pass_again nullableHolder _ (by decide) (by decide) (by decide) (by decide)
  exact ⟨u', context', happly, hself, hagain.mpr (CompilationUnit.binds_no_null hnull hhollow)⟩

/-- After an empty sequence the second run asserts what the first one could not
see: the temporary of the null type. -/
theorem pass_again_fails_after_empty :
    emptyEnd.Coherent ∧ (emptyEnd.Everywhere fun e => e.updatesPlace = true) ∧
      emptyEnd.Everywhere Expr.Plain ∧ (emptyEnd.Everywhere fun e => e.hasNullReceiver = false) ∧
      (emptyEnd.Everywhere fun e => e.isNaNLiteral = false) ∧
      ∃ u' context' u'' context'', pass.apply emptyEnd
          { unitName := "Holder.java", supply := { origin := 1 } } = (.ok u', context') ∧
        pass.apply u' context' = (.ok u'', context'') ∧ (u'' == u') = false :=
  ⟨by decide, by decide, by decide, by decide, by decide, _, _, _, _, rfl, rfl, by decide⟩

end NullSafety

end Lowering
