import Lowering.Proofs.Conversion.Sequence

/-!
# The effects of a tree

The effect trace of a tree lists its effects from left to right, each after those
of its parts: calls, instance creations, assignments, steps and declarations of
variables. It does not depend on how the tree is evaluated, so a transformation
that keeps it neither loses nor repeats nor reorders an effect.

Main statement: `Expr.effects_of_isIdempotent`, an idempotent expression has no
effects at any depth.
-/

namespace Lowering

/-- What an assignment writes: a variable or a field. -/
inductive Written where
  | slot (id : VariableId)
  | field (target : FieldRef)
  deriving DecidableEq

/-- One effect. -/
inductive Effect where
  | call (target : MethodRef)
  | create (target : MethodRef)
  | assign (op : BinaryOp) (written : Option Written)
  | step (op : UnaryOp) (fixity : Fixity) (written : Option Written)
  | declare (id : VariableId)
  deriving DecidableEq

namespace Expr

/-- The variable or field that an expression denotes as an assignment target. -/
def written : Expr → Option Written
  | varRef v => some (.slot v.id)
  | fieldAccess _ target => some (.field target)
  | _ => none

mutual

/-- The effects of an expression, from left to right, each after those of its
parts. -/
def effects : Expr → List Effect
  | fieldAccess q _ => effectsOption q
  | call q m as => effectsOption q ++ effectsList as ++ [.call m]
  | newInstance m as => effectsList as ++ [.create m]
  -- The write comes after the effects of both sides.
  | binary op l r _ =>
    l.effects ++ r.effects ++ if op.isAssignment then [.assign op l.written] else []
  | unary op fixity e _ =>
    e.effects ++ if op.hasSideEffect then [.step op fixity e.written] else []
  | cast _ e => e.effects
  | conditional _ c a b => c.effects ++ a.effects ++ b.effects
  | notNull e => e.effects
  | multi es => effectsList es
  | declare fs => effectsFragments fs
  -- Literals and references are left.
  | _ => []
termination_by structural e => e

def effectsOption : Option Expr → List Effect
  | none => []
  | some e => e.effects
termination_by structural e => e

def effectsList : List Expr → List Effect
  | [] => []
  | e :: es => e.effects ++ effectsList es
termination_by structural es => es

/-- A variable is declared after its initializer. -/
def effectsFragments : List (Fragment Expr) → List Effect
  | [] => []
  | ⟨binder, initializer⟩ :: fs =>
    effectsOption initializer ++ .declare binder.id :: effectsFragments fs
termination_by structural fs => fs

end

/-- The helper for lists is a plain list operation. -/
theorem effectsList_eq_flatMap (es : List Expr) : effectsList es = es.flatMap effects := by
  induction es with
  | nil => rfl
  | cons e es ih => rw [effectsList, ih, List.flatMap_cons]

/-! ## Reads -/

/-- An idempotent expression has no effects. This is what allows checks to repeat a read and
defaults to name a value twice. -/
theorem effects_of_isIdempotent {e : Expr} (h : e.isIdempotent = true) : e.effects = [] := by
  -- The induction is on the evidence that the expression is a read, which has no case for calls and
  -- the other kinds with effects.
  have hread := read_of_isIdempotent h
  clear h
  induction hread with
  | @leaf e hleaf =>
    cases e with
    | nullLiteral | boolLiteral | numberLiteral | stringLiteral | thisRef | varRef => rfl
    | _ => cases hleaf
  | ownField => rfl
  | fieldAccess _ ih | cast _ ih | notNull _ ih => exact ih
  | binary hop _ _ hl hr => simp [effects, hop, hl, hr]
  | unary hop _ hx => simp [effects, hop, hx]
  | conditional _ _ _ hc ha hb => simp [effects, hc, ha, hb]

/-! ## Sequences -/

/-- Splicing the members of a sequence into a surrounding list loses no effect. -/
theorem effects_members (e : Expr) : effectsList e.members = e.effects := by
  cases e with
  | multi inner => rfl
  | _ => simp [members, effectsList]

/-- Flattening nested sequences leaves all effects in their order. -/
theorem effectsList_flatten (es : List Expr) :
    effectsList (Conversion.flatten es) = effectsList es := by
  rw [Conversion.flatten_eq_flatMap]
  induction es with
  | nil => rfl
  | cons e es ih =>
    rw [effectsList_eq_flatMap] at ih ⊢
    rw [List.flatMap_cons, List.flatMap_append, ih, ← effectsList_eq_flatMap, effects_members,
      effectsList]

/-- A repeated check has no effects, so dropping it leaves the trace as it was. -/
theorem effectsList_dropRepeated (es : List Expr) :
    effectsList (Conversion.dropRepeated es) = effectsList es := by
  -- The member that was kept last does not matter for the effects.
  have hafter : ∀ (kept : Expr) (es : List Expr),
      effectsList (Conversion.dropRepeatedAfter kept es) = effectsList es := by
    intro kept es
    induction es generalizing kept with
    | nil => rfl
    | cons e es ih =>
      rw [Conversion.dropRepeatedAfter]
      split
      · rename_i hrepeated
        -- What is dropped is an assertion about a read.
        obtain ⟨_, b, _, rfl, hread⟩ := Conversion.sameRead_of_isRepeatedCheck hrepeated
        have hcheck : (notNull b).effects = [] := effects_of_isIdempotent hread.isIdempotent.2
        rw [ih, effectsList, hcheck, List.nil_append]
      · rw [effectsList, effectsList, ih]
  cases es with
  | nil => rfl
  | cons e es => rw [Conversion.dropRepeated, effectsList, effectsList, hafter]

end Expr

/-! ## Units -/

/-- The effects of all expressions of a unit, in source order. -/
def CompilationUnit.effects (u : CompilationUnit) : List Effect :=
  u.expressions.flatMap Expr.effects

/-- Whether a variable of this identity occurs in the unit. -/
def CompilationUnit.knows (u : CompilationUnit) (id : VariableId) : Bool :=
  u.allVariables.any fun v => v.id == id

/-- Effects other than declarations of variables that are not known. -/
def Effect.isKept (known : VariableId → Bool) : Effect → Bool
  | declare id => known id
  | _ => true

/-- Only declarations are ever left out of a comparison of traces. -/
@[simp] theorem Effect.isKept_assign (known : VariableId → Bool) (op : BinaryOp)
    (written : Option Written) : (assign op written).isKept known = true := rfl

@[simp] theorem Effect.isKept_step (known : VariableId → Bool) (op : UnaryOp) (fixity : Fixity)
    (written : Option Written) : (step op fixity written).isKept known = true := rfl

end Lowering
