import Lowering.NullSafety.Pass
import Lowering.Proofs.Conversion.Runs
import Lowering.Proofs.Conversion.Values

/-!
# What the null-safety pass does to a unit

The first traversal adjusts values by assertions: a value is left as it is, or
wrapped. The second one gives assert messages a default. The module describes
both and the pass as a whole by relations between input and output.

Main statements:

- `NullSafety.run_related`: the unit that the pass returns is related to its
  input, with temporaries among the identities that the pass takes from the supply.
- `NullSafety.pass_apply`: the pass never fails, and returns that unit.
-/

namespace Lowering

open Conversion

/-! ## Assertions -/

/-- The expression under an assertion, unless its value is known to be non-null. -/
def Expr.asserted (e : Expr) : Expr :=
  if e.isKnownNonNull then e else .notNull e

namespace NullSafety

/-- How the first traversal adjusts values. -/
def assertions : Adjustment where
  slot inferred declared e e' := e' = if excludesNull inferred declared then e.asserted else e
  nonNull _ _ e e' := e' = e.asserted

/-- Counting and reporting aside, an inserted assertion is `Expr.asserted`. -/
theorem insert_fst (e : Expr) (site : Site) (tally : Tally) :
    (insert e site tally).1 = e.asserted := by
  unfold insert assertNonNull Expr.asserted
  cases e.isKnownNonNull <;> cases e.isNullLiteral <;> rfl

/-- The handler of the pass answers by `assertions`, whatever it has counted before. From here on
the handler itself is not opened any more, except for its diagnostics. -/
theorem asserting_answers : Answers asserting assertions where
  slot inferred declared e site tally := by
    show ((if excludesNull inferred declared then insert e site else pure e : StateM Tally Expr)
      tally).1 = _
    split
    · exact insert_fst e site tally
    · rfl
  nonNull _ _ e site tally := insert_fst e site tally

/-- The value is as it was, or under an assertion. -/
inductive Wrapped : Expr → Expr → Prop where
  | same (e : Expr) : Wrapped e e
  | asserted (e : Expr) : Wrapped e (.notNull e)

/-- An adjusted value is the value itself or the value under one assertion, never under more. -/
theorem wrapped_asserted (e : Expr) : Wrapped e e.asserted := by
  unfold Expr.asserted
  split
  · exact .same e
  · exact .asserted e

/-- Both hooks wrap their values at most. The lemmas that follow say it for each kind of site. -/
theorem wrapped_within : assertions.Within Wrapped where
  same := .same
  slot {inferred declared e e'} h := by
    obtain rfl : e' = if excludesNull inferred declared then e.asserted else e := h
    split
    · exact wrapped_asserted e
    · exact .same e
  nonNull {_ _ e e'} h := by
    obtain rfl : e' = e.asserted := h
    exact wrapped_asserted e

theorem wrapped_of_required {e e' : Expr} (h : assertions.RequiredValue e e') : Wrapped e e' :=
  wrapped_within.of_required h

theorem wrapped_of_slot {inferred declared : Ty} {e e' : Expr}
    (h : assertions.SlotValue inferred declared e e') : Wrapped e e' :=
  wrapped_within.of_slot h

theorem wrapped_of_operand {e e' : Expr} (h : assertions.OperandValue e e') : Wrapped e e' :=
  wrapped_within.of_operand h

theorem wrapped_of_operandIf {unboxed : Bool} {e e' : Expr}
    (h : assertions.OperandIf unboxed e e') : Wrapped e e' :=
  wrapped_within.of_operandIf h

theorem wrapped_of_cast {type : Ty} {e e' : Expr} (h : assertions.CastValue type e e') :
    Wrapped e e' :=
  wrapped_within.of_cast h

theorem wrapped_of_added {target e e' : Expr} (h : assertions.AddedValue target e e') :
    Wrapped e e' :=
  wrapped_within.of_added h

theorem wrapped_of_receiver {isStatic : Bool} {q q' : Option Expr}
    (h : assertions.ReceiverValue isStatic q q') : Option.Rel Wrapped q q' :=
  wrapped_within.of_receiver h

theorem wrapped_of_arguments {is ds : List Ty} {es es' : List Expr}
    (h : assertions.ArgumentValues is ds es es') : List.Forall₂ Wrapped es es' :=
  wrapped_within.of_arguments h

/-! ## Induction -/

/-- A congruence that does not ask which values are asserted. `P` relates an
expression to what the traversal makes of it, `Q` also to that under an
assertion. -/
abbrev WrapCongruence (T : VariableId → Prop) (H : Expr → Prop) (P Q : Expr → Expr → Prop) : Prop :=
  ValueCongruence assertions Wrapped T H P Q

theorem WrapCongruence.holds {T : VariableId → Prop} {H : Expr → Prop} {P Q : Expr → Expr → Prop}
    (hP : WrapCongruence T H P Q) {e e' : Expr} (h : Converted assertions T e e')
    (hH : e.Everywhere H) : P e e' :=
  (hP.congruence wrapped_within).holds h hH

/-- The traversal keeps up what holds at every depth, if it can fail at leaves
only and holds of references to temporaries. -/
theorem everywhere_congruence {T : VariableId → Prop} {N : Expr → Prop}
    (hinner : ∀ e, e.isLeaf = false → N e) (htemporary : ∀ v : Variable, T v.id → N (.varRef v)) :
    WrapCongruence T N (fun _ e' => e'.Everywhere N) (fun _ e' => e'.Everywhere N) := by
  -- All nodes that the traversal adds are inner nodes, apart from references to temporaries.
  have hinherited : Inherited Wrapped T N := by
    constructor
    case rebuilt =>
      intro e e' hsame _ _
      exact hinner e' (by cases hsame <;> rfl)
    case adjusted =>
      intro e e' hwrapped he
      cases hwrapped with
      | same => exact he
      | asserted =>
        exact Expr.everywhere_iff.mpr ⟨hinner _ rfl, by simpa [Expr.children] using he⟩
    case sequence => exact fun _ => hinner _ rfl
    case temporary => exact fun hv _ _ => htemporary _ hv
    case binding => exact fun _ _ => hinner _ rfl
  exact hinherited.congruence wrapped_within

/-! ## Defaults -/

/-- What the second traversal makes of an assert message. -/
inductive Defaulted (type : Ty) (T : VariableId → Prop) : Expr → Expr → Prop where
  | known {e : Expr} : e.isKnownNonNull = true → Defaulted type T e e
  | null {e : Expr} : e.isNullLiteral = true → Defaulted type T e messageDefault
  -- The value is read for the test and, if it is not null, once more.
  | choice {e : Expr} : e.isKnownNonNull = false → e.isIdempotent = true →
      Defaulted type T e (.multi [nullChoice type e messageDefault])
  -- The value has effects and is evaluated once, into a temporary.
  | bound {e : Expr} {temporary : Variable} : e.isKnownNonNull = false →
      e.isIdempotent = false → T temporary.id → temporary.type = e.type →
      Defaulted type T e (.multi [.declareOne temporary (some e),
        nullChoice type (.varRef temporary) messageDefault])

/-- Judges a computation of the second traversal: the supply moves forward, and
the postcondition may rely on `T` having the identities issued meanwhile. -/
def defaultsLogic (T : VariableId → Prop) : PostLogic (StateM Defaults) where
  Holds x Q := ∀ s : Defaults, s.supply.Later (x s).2.supply ∧
    ((∀ id, s.supply.Issues (x s).2.supply id → T id) → Q (x s).1)
  pure hQ := fun s => ⟨Supply.Later.refl _, fun _ => hQ⟩
  bind {α β x f Q Q'} hx hf := by
    intro s
    obtain ⟨hlater₁, hQ⟩ := hx s
    obtain ⟨hlater₂, hQ'⟩ := hf (x s).1 (x s).2
    refine ⟨hlater₁.trans hlater₂, fun hT => ?_⟩
    exact hQ' (fun id hid => hT id (hid.of_second hlater₁))
      (hQ fun id hid => hT id (hid.of_first hlater₂))
  imp hx h := fun s => ⟨(hx s).1, fun hT => h _ ((hx s).2 hT)⟩

section

variable {type : Ty} {T : VariableId → Prop}

/-- Messages become what the rules of `Defaulted` say. The order of the tests matters: a null
literal is idempotent, but it needs no test at run time. -/
theorem defaultMessage_holds (message : Option Expr) :
    (defaultsLogic T).Holds (defaultMessage type message)
      (Option.Rel (Defaulted type T) message) := by
  cases message with
  | none => exact (defaultsLogic T).pure .none
  | some e =>
    intro s
    simp only [defaultMessage, withDefault]
    split
    · exact ⟨Supply.Later.refl _, fun _ => .some (.known ‹_›)⟩
    · rename_i hknown
      have hknown' : e.isKnownNonNull = false := by simpa using hknown
      split
      · exact ⟨Supply.Later.refl _, fun _ => .some (.null ‹_›)⟩
      -- What remains may be null: it is read twice, or bound to a temporary if it has effects.
      · split
        · exact ⟨Supply.Later.refl _, fun _ => .some (.choice hknown' ‹_›)⟩
        · rename_i hidem
          have hidem' : e.isIdempotent = false := by simpa using hidem
          refine ⟨Supply.later_fresh s.supply defaultedTemporary e.type, fun hT => ?_⟩
          refine .some (.bound hknown' hidem' (hT _ ?_) rfl)
          exact Supply.issues_fresh s.supply defaultedTemporary e.type

/-- The second traversal has no hooks for expressions, so it gives all of them back. -/
theorem messageDefaults_tracksExpr :
    Transform.TracksExpr (defaultsLogic T) (messageDefaults type) Eq where
  nullLiteral _ := (defaultsLogic T).pure rfl
  boolLiteral _ _ := (defaultsLogic T).pure rfl
  numberLiteral _ _ := (defaultsLogic T).pure rfl
  stringLiteral _ _ := (defaultsLogic T).pure rfl
  thisRef _ := (defaultsLogic T).pure rfl
  varRef _ := (defaultsLogic T).pure rfl
  fieldAccess _ _ _ := (defaultsLogic T).pure fun hq => by rw [eq_of_optionRel hq]
  call _ _ _ _ _ := (defaultsLogic T).pure fun hq has => by
    rw [eq_of_optionRel hq, eq_of_forall₂ has]
  newInstance _ _ _ := (defaultsLogic T).pure fun has => by rw [eq_of_forall₂ has]
  binary _ _ _ _ _ _ := (defaultsLogic T).pure fun hl hr => by rw [hl, hr]
  unary _ _ _ _ _ := (defaultsLogic T).pure fun hx => by rw [hx]
  cast _ _ _ := (defaultsLogic T).pure fun hx => by rw [hx]
  conditional _ _ _ _ _ _ _ := (defaultsLogic T).pure fun hc ha hb => by rw [hc, ha, hb]
  notNull _ _ := (defaultsLogic T).pure fun hx => by rw [hx]
  multi _ _ := (defaultsLogic T).pure fun hes => by rw [eq_of_forall₂ hes]
  declare _ _ := (defaultsLogic T).pure fun hfs => by rw [eq_of_fragments hfs]

variable (type T)

/-- What the second traversal makes of the expressions in statements. -/
def defaultSteps : StmtSteps where
  plain := Eq
  result := Eq
  condition := Eq
  thrown := Eq
  message := Defaulted type T

variable {type T}

/-- Of all statements only assertions are changed, and of those only the message. -/
theorem messageDefaults_tracksStmt :
    Transform.TracksStmt (defaultsLogic T) (messageDefaults type) Eq (defaultSteps type T) where
  enter _ := (defaultsLogic T).pure trivial
  exit _ := (defaultsLogic T).pure trivial
  block _ := (defaultsLogic T).pure rfl
  expression _ _ _ := (defaultsLogic T).pure fun he => .expression he
  returnValue _ _ _ := (defaultsLogic T).pure fun hv => .returnValue hv
  conditional _ _ _ _ _ _ _ := (defaultsLogic T).pure fun hc ha hb => .conditional hc ha hb
  whileLoop _ _ _ _ _ := (defaultsLogic T).pure fun hc hb => .whileLoop hc hb
  forLoop _ _ _ _ _ _ _ _ _ :=
    (defaultsLogic T).pure fun hi hc hu hb => .forLoop hi hc hu hb
  assertion _ _ _ message' _ :=
    (defaultsLogic T).bind (defaultMessage_holds message') fun _ =>
      (defaultsLogic T).pure fun hm hc hmessage => by
        -- Expressions have not been changed, so the message is that of the input.
        rw [← eq_of_optionRel hmessage] at hm
        exact .assertion hc hm
  throwValue _ _ _ := (defaultsLogic T).pure fun hv => .throwValue hv

/-- Declarations keep their data and have their members changed by the steps above. -/
theorem messageDefaults_tracksUnit :
    Transform.TracksUnit (defaultsLogic T) (messageDefaults type)
      ⟨fun _ => Eq, fun _ => defaultSteps type T⟩ where
  enterType _ := (defaultsLogic T).pure trivial
  exitType _ := (defaultsLogic T).pure trivial
  field f := by
    have henter : (defaultsLogic T).Holds ((messageDefaults type).enterField f) fun _ => True :=
      (defaultsLogic T).pure trivial
    have hexit : ∀ f', (defaultsLogic T).Holds ((messageDefaults type).exitField f')
        fun _ => True := fun _ => (defaultsLogic T).pure trivial
    have honField : ∀ f', (defaultsLogic T).Holds ((messageDefaults type).onField f') (· = f') :=
      fun _ => (defaultsLogic T).pure rfl
    refine (defaultsLogic T).bind henter fun _ =>
      (defaultsLogic T).bind (Transform.optionalExpr_tracks messageDefaults_tracksExpr
        f.initializer) fun i =>
        (defaultsLogic T).bind (honField { f with initializer := i }) fun f' =>
          (defaultsLogic T).bind (hexit f') fun _ => (defaultsLogic T).pure ?_
    -- What is known of the four computations arrives in reverse order.
    intro _ hf hi _
    subst hf
    exact ⟨rfl, rfl, hi⟩
  method d := by
    have henter : (defaultsLogic T).Holds ((messageDefaults type).enterMethod d) fun _ => True :=
      (defaultsLogic T).pure trivial
    have hexit : ∀ d', (defaultsLogic T).Holds ((messageDefaults type).exitMethod d')
        fun _ => True := fun _ => (defaultsLogic T).pure trivial
    have honMethod : ∀ d', (defaultsLogic T).Holds ((messageDefaults type).onMethod d') (· = d') :=
      fun _ => (defaultsLogic T).pure rfl
    refine (defaultsLogic T).bind henter fun _ =>
      (defaultsLogic T).bind (Transform.optionalBlock_tracks messageDefaults_tracksExpr
        messageDefaults_tracksStmt d.body) fun body =>
        (defaultsLogic T).bind (honMethod { d with body }) fun d' =>
          (defaultsLogic T).bind (hexit d') fun _ => (defaultsLogic T).pure ?_
    intro _ hd hbody _
    subst hd
    exact ⟨rfl, rfl, rfl, hbody⟩
  onType _ := (defaultsLogic T).pure rfl
  onUnit _ := (defaultsLogic T).pure rfl

end

/-! ## The pass -/

/-- What the pass makes of the expressions in a unit. -/
def steps (type : Ty) (T : VariableId → Prop) : UnitSteps where
  initializer := (unitSteps assertions T).initializer
  statement method :=
    { stmtSteps assertions T method with
      message := fun e e' => ∃ e₁, Converted assertions T e e₁ ∧ Defaulted type T e₁ e' }

/-- Whatever its role, an expression is transformed and then adjusted or given a
default. -/
theorem value_of_step {type : Ty} {T : VariableId → Prop} {W : Expr → Expr → Prop}
    (hW : assertions.Within W) {e e' : Expr} (h : (steps type T).Any e e') :
    ∃ e₁, Converted assertions T e e₁ ∧ (W e₁ e' ∨ Defaulted type T e₁ e') := by
  -- Initializers, then the five roles within statements.
  rcases h with ⟨_, e₁, h, hvalue⟩ | ⟨_, h | ⟨e₁, h, hvalue⟩ | ⟨e₁, h, hvalue⟩ | ⟨e₁, h, hvalue⟩ |
    ⟨e₁, h, hdefault⟩⟩
  · exact ⟨e₁, h, .inl (hW.of_slot hvalue)⟩
  · exact ⟨e', h, .inl (hW.same e')⟩
  · exact ⟨e₁, h, .inl (hW.of_slot hvalue)⟩
  · exact ⟨e₁, h, .inl (hW.of_slot hvalue)⟩
  · exact ⟨e₁, h, .inl (hW.of_required hvalue)⟩
  · exact ⟨e₁, h, .inr hdefault⟩

theorem converted_of_step {type : Ty} {T : VariableId → Prop} {e e' : Expr}
    (h : (steps type T).Any e e') :
    ∃ e₁, Converted assertions T e e₁ ∧ (Wrapped e₁ e' ∨ Defaulted type T e₁ e') :=
  value_of_step wrapped_within h

/-- A congruence that goes through defaults holds of expressions in every role. This is how facts
about expressions become facts about units. -/
theorem congruence_of_step {type : Ty} {T : VariableId → Prop} {W : Expr → Expr → Prop}
    {H : Expr → Prop} {P Q : Expr → Expr → Prop} (hW : assertions.Within W)
    (hP : ValueCongruence assertions W T H P Q)
    (hdefaulted : ∀ {e e₁ e' : Expr}, P e e₁ → Defaulted type T e₁ e' → Q e e') {e e' : Expr}
    (h : (steps type T).Any e e') (hH : e.Everywhere H) : Q e e' := by
  obtain ⟨e₁, hconverted, hvalue | hdefault⟩ := value_of_step hW h
  · exact hP.wrap ((hP.congruence hW).holds hconverted hH) hvalue
  · exact hdefaulted ((hP.congruence hW).holds hconverted hH) hdefault

theorem WrapCongruence.of_step {type : Ty} {T : VariableId → Prop} {H : Expr → Prop}
    {P Q : Expr → Expr → Prop} (hP : WrapCongruence T H P Q)
    (hdefaulted : ∀ {e e₁ e' : Expr}, P e e₁ → Defaulted type T e₁ e' → Q e e') {e e' : Expr}
    (h : (steps type T).Any e e') (hH : e.Everywhere H) : Q e e' :=
  congruence_of_step wrapped_within hP hdefaulted h hH

/-- The steps of the pass are those of its two traversals one after the other. Only messages are
touched by both. -/
theorem steps_composes (type : Ty) (T : VariableId → Prop) :
    (unitSteps assertions T).Composes ⟨fun _ => Eq, fun _ => defaultSteps type T⟩
      (steps type T) where
  initializer _ _ _ _ h h' := by
    obtain rfl : _ = _ := h'
    exact h
  statement _ :=
    { plain := fun _ _ _ h h' => by obtain rfl : _ = _ := h'; exact h
      result := fun _ _ _ h h' => by obtain rfl : _ = _ := h'; exact h
      condition := fun _ _ _ h h' => by obtain rfl : _ = _ := h'; exact h
      thrown := fun _ _ _ h h' => by obtain rfl : _ = _ := h'; exact h
      message := fun _ b _ h h' => ⟨b, h, h'⟩ }

/-- The pass relates every unit to its result, with temporaries among the
identities that it takes from the supply. -/
theorem run_related (type : Ty) (problems : Problems) (supply : Supply) (u : CompilationUnit) :
    CompilationUnit.Related (steps type (supply.Issues (run type problems supply u).supply)) u
      (run type problems supply u).unit := by
  have hfirst := unit_converted asserting_answers u { supply } rfl { problems }
  generalize hrun : (conversion asserting).unit u { supply } { problems } = first at hfirst
  obtain ⟨⟨u₁, cursor⟩, tally⟩ := first
  obtain ⟨hlater₁, hconverted⟩ := hfirst
  -- For every `T`: what the second traversal issues is known only once it has run.
  have hsecond := fun T => Transform.unit_tracks
    (messageDefaults_tracksUnit : Transform.TracksUnit (defaultsLogic T) (messageDefaults type) _)
    u₁ { supply := cursor.supply }
  generalize hrun' : (messageDefaults type).unit u₁ { supply := cursor.supply } = second at hsecond
  obtain ⟨u₂, defaults⟩ := second
  have houtcome : (run type problems supply u).unit = u₂ ∧
      (run type problems supply u).supply = defaults.supply := by
    unfold run
    simp only [StateT.run, hrun, hrun', and_self]
  rw [houtcome.1, houtcome.2]
  -- The first traversal issues before the second one starts, and both within the run.
  refine CompilationUnit.Related.comp (steps_composes type _) (hconverted _ ?first)
    ((hsecond _).2 ?second)
  case first => exact fun id hid => hid.of_first (hsecond fun _ => True).1
  case second => exact fun id hid => hid.of_second hlater₁

/-- Interning gives a handle for the type that was asked for, whether or not the table had it. -/
theorem intern_type (table : TypeTable) (t : Ty) : (table.intern t).1.type = t := by
  unfold TypeTable.intern TypeTable.find?
  cases table.entries.idxOf? t <;> rfl

/-- The pass succeeds on every unit. It returns the unit that its two traversals make, and
leaves in the context what they took from the supply and the problems that they saw. -/
theorem exists_pass_context (u : CompilationUnit) (context : PassContext) :
    ∃ context', pass.apply u context =
        (.ok (run Known.object.toNonNullable context.problems context.supply u).unit, context') ∧
      context'.supply = (run Known.object.toNonNullable context.problems context.supply u).supply ∧
      context'.problems =
        (run Known.object.toNonNullable context.problems context.supply u).problems := by
  have htype : (context.types.internNonNullable Known.object).1.type =
      Known.object.toNonNullable := intern_type context.types _
  rw [← htype]
  exact ⟨_, rfl, rfl, rfl⟩

/-- The unit that the pass returns, for proofs that do not look at the context afterwards. -/
theorem pass_apply (u : CompilationUnit) (context : PassContext) :
    ∃ context', pass.apply u context =
      (.ok (run Known.object.toNonNullable context.problems context.supply u).unit, context') := by
  obtain ⟨context', happly, _⟩ := exists_pass_context u context
  exact ⟨context', happly⟩

/-! ## Single expressions -/

/-- What the two traversals of the pass make of an expression that they reach in the given
states; `objectType` is the type of defaulted messages. -/
def runExpr (objectType : Ty) (cursor : Cursor) (tally : Tally) (defaults : Defaults)
    (e : Expr) : Expr :=
  ((messageDefaults objectType).expr ((conversion asserting).expr e cursor tally).1.1 defaults).1

/-- The second traversal changes statements only. -/
theorem runExpr_eq (objectType : Ty) (c : Cursor) (s : Tally) (d : Defaults) (e : Expr) :
    runExpr objectType c s d e = ((conversion asserting).expr e c s).1.1 := by
  have htracks : Transform.TracksExpr (defaultsLogic fun _ => True) (messageDefaults objectType)
      Eq := messageDefaults_tracksExpr
  exact ((Transform.expr_tracks htracks _ d).2 fun _ _ => trivial).symm

end NullSafety

end Lowering
