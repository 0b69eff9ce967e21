import Lowering.Proofs.Conversion.Sequence
import Lowering.Proofs.Tree.Correspondence

/-!
# What the traversal over conversion sites does to a tree

`Converted A T e e'` says, one rule per kind of node, that the traversal may turn
`e` into `e'`: at every site the value is adjusted as `A` allows, and the
temporaries that hold receivers of updated fields are taken from `T`. The
relation leaves out the state of the run. `Conversion.expr_converted` and
`Conversion.unit_converted` say that every run of the traversal satisfies it, so
that properties of the output need no further look at the computation.
-/

namespace Lowering

/-! ## Adjustments at sites -/

namespace Conversion

/-- What a handler may put in the place of a value, for each of its two hooks. -/
structure Adjustment where
  slot : (inferred declared : Ty) → Expr → Expr → Prop
  nonNull : (inferred declared : Ty) → Expr → Expr → Prop

namespace Adjustment

variable (A : Adjustment)

/-- A value that flows into a slot. -/
def SlotValue (inferred declared : Ty) (e e' : Expr) : Prop :=
  if inferred.isPrimitive && !e.type.isPrimitive then A.nonNull inferred declared e e'
  else A.slot inferred declared e e'

/-- A value that is dereferenced, thrown or unboxed. -/
def RequiredValue (e e' : Expr) : Prop :=
  A.nonNull e.type e.type e e'

/-- A condition. -/
def ConditionValue (e e' : Expr) : Prop :=
  A.SlotValue (.prim .boolean) (.prim .boolean) e e'

/-- An operand of a numeric or logical operator. -/
def OperandValue (e e' : Expr) : Prop :=
  if e.type.isPrimitive then e' = e else A.RequiredValue e e'

/-- An operand that is unboxed only under a condition. -/
def OperandIf (unboxed : Bool) (e e' : Expr) : Prop :=
  if unboxed then A.OperandValue e e' else e' = e

/-- A value that is converted to a type by a cast. -/
def CastValue (type : Ty) (e e' : Expr) : Prop :=
  if type.isPrimitive then A.SlotValue type type e e' else e' = e

/-- The right side of `+=` or `-=`: an operand when the target is unboxed, and
otherwise a value of the target's slot. -/
def AddedValue (target e e' : Expr) : Prop :=
  if target.type.unboxed?.isSome then A.OperandValue e e'
  else A.SlotValue target.type (targetDeclaredType target) e e'

/-- A receiver; that of a static member stays. -/
inductive ReceiverValue (isStatic : Bool) : Option Expr → Option Expr → Prop where
  | absent : ReceiverValue isStatic none none
  | ignored {e : Expr} : isStatic = true → ReceiverValue isStatic (some e) (some e)
  | required {e e' : Expr} : isStatic = false → A.RequiredValue e e' →
      ReceiverValue isStatic (some e) (some e')

/-- Arguments with the parameter types at the call and in the declaration. -/
inductive ArgumentValues : List Ty → List Ty → List Expr → List Expr → Prop where
  | cons {i d : Ty} {is ds : List Ty} {e e' : Expr} {es es' : List Expr} :
      A.SlotValue i d e e' → ArgumentValues is ds es es' →
      ArgumentValues (i :: is) (d :: ds) (e :: es) (e' :: es')
  | rest {is ds : List Ty} {es : List Expr} :
      is = [] ∨ ds = [] ∨ es = [] → ArgumentValues is ds es es

/-- The initializer of a variable. -/
inductive InitializerValue : Fragment Expr → Fragment Expr → Prop where
  | absent {binder : Variable} : InitializerValue ⟨binder, none⟩ ⟨binder, none⟩
  | value {binder : Variable} {e e' : Expr} :
      A.SlotValue binder.type binder.type e e' →
      InitializerValue ⟨binder, some e⟩ ⟨binder, some e'⟩

end Adjustment

/-- Whether an operation unboxes an operand, given the operand on the other side. -/
def unboxesBeside (op : BinaryOp) (type : Ty) (other : Expr) : Bool :=
  match op with
  | .equals | .notEquals => other.type.isPrimitive
  | .plus => type.isPrimitive
  | _ => true

/-- Whether a read of the target can be repeated without repeating effects of its
receiver. -/
def hasRepeatableReceiver : Expr → Bool
  | .fieldAccess (some qualifier) _ => qualifier.isIdempotent
  | _ => true

end Conversion

namespace Expr

/-- The target of `++`, `--`, `+=` or `-=`. -/
def updated? : Expr → Option Expr
  | unary .increment _ target _ | unary .decrement _ target _ => some target
  | binary .plusAssign target _ _ | binary .minusAssign target _ _ => some target
  | _ => none

/-- The target of an update is one of its parts, so that inductions over children reach it. -/
theorem mem_children_of_updated {e target : Expr} (h : e.updated? = some target) :
    target ∈ e.children := by
  unfold updated? at h
  split at h <;> cases h <;> exact List.mem_cons_self

/-- An update that unboxes its target and needs the target's receiver twice, although
the receiver has effects. -/
def bindsReceiver (e : Expr) : Bool :=
  e.updated?.any fun target =>
    target.type.unboxed?.isSome && !Conversion.hasRepeatableReceiver target

/-- No receiver is bound if reading the target twice is harmless, or if the target is not unboxed
and so is not checked. -/
theorem bindsReceiver_eq_false {e target : Expr} (h : e.updated? = some target) :
    e.bindsReceiver = false ↔
      (target.type.unboxed?.isSome = true → Conversion.hasRepeatableReceiver target = true) := by
  simp [bindsReceiver, h]

end Expr

namespace Conversion

/-- The update of any target by the same operation; `others` are its other parts. -/
structure IsUpdate (update : Expr → Expr) (others : List Expr) : Prop where
  updated (t : Expr) : (update t).updated? = some t
  children (t : Expr) : (update t).children = t :: others

/-- Compound assignments are updates, whose added value is their other part. -/
theorem isUpdate_compound {op : BinaryOp} (hop : op = .plusAssign ∨ op = .minusAssign) (r : Expr)
    (type : Ty) : IsUpdate (fun t => .binary op t r type) [r] := by
  rcases hop with rfl | rfl <;> exact ⟨fun _ => rfl, fun _ => rfl⟩

theorem isUpdate_step {op : UnaryOp} (hop : op.hasSideEffect = true) (fixity : Fixity) (type : Ty) :
    IsUpdate (fun t => .unary op fixity t type) [] := by
  cases op with
  | increment | decrement => exact ⟨fun _ => rfl, fun _ => rfl⟩
  -- The other unary operators only read.
  | plus | minus | not => cases hop

/-- What an update of a target becomes: the update alone, or a sequence that
binds the receiver of the target and checks a read of it before. -/
inductive Guarded (A : Adjustment) (T : VariableId → Prop) (update : Expr → Expr) :
    Expr → Expr → Prop where
  -- Nothing is unboxed, so there is nothing to check.
  | unboxed {target : Expr} : target.type.unboxed? = none →
      Guarded A T update target (update target)
  -- The read may stand twice, and the check says no more than the read.
  | unchanged {target check : Expr} : hasRepeatableReceiver target = true →
      A.RequiredValue target check → (check == target) = true →
      Guarded A T update target (update target)
  | checked {target check : Expr} : hasRepeatableReceiver target = true →
      A.RequiredValue target check → (check == target) = false →
      Guarded A T update target (.multi [check, update target])
  -- The receiver has effects, so a temporary holds it for the check and the update.
  | bound {q check : Expr} {f : FieldRef} {temporary : Variable} :
      f.type.unboxed?.isSome = true → q.isIdempotent = false → T temporary.id →
      temporary.type = q.type →
      A.RequiredValue (.fieldAccess (some (.varRef temporary)) f) check →
      (check == .fieldAccess (some (.varRef temporary)) f) = true →
      Guarded A T update (.fieldAccess (some q) f)
        (.multi [.declareOne temporary (some q),
          update (.fieldAccess (some (.varRef temporary)) f)])
  | boundChecked {q check : Expr} {f : FieldRef} {temporary : Variable} :
      f.type.unboxed?.isSome = true → q.isIdempotent = false → T temporary.id →
      temporary.type = q.type →
      A.RequiredValue (.fieldAccess (some (.varRef temporary)) f) check →
      (check == .fieldAccess (some (.varRef temporary)) f) = false →
      Guarded A T update (.fieldAccess (some q) f)
        (.multi [.declareOne temporary (some q), check,
          update (.fieldAccess (some (.varRef temporary)) f)])

end Conversion

open Conversion

/-! ## The relation -/

/-- What the traversal makes of an expression. -/
inductive Converted (A : Adjustment) (T : VariableId → Prop) : Expr → Expr → Prop where
  | leaf {e : Expr} : e.isLeaf = true → Converted A T e e
  | fieldAccess {q q₁ q₂ : Option Expr} {f : FieldRef} :
      Option.Rel (Converted A T) q q₁ → A.ReceiverValue f.isStatic q₁ q₂ →
      Converted A T (.fieldAccess q f) (.fieldAccess q₂ f)
  | call {q q₁ q₂ : Option Expr} {target : MethodRef} {as as₁ as₂ : List Expr} :
      Option.Rel (Converted A T) q q₁ → List.Forall₂ (Converted A T) as as₁ →
      A.ReceiverValue target.isStatic q₁ q₂ →
      A.ArgumentValues target.parameters target.declaration.parameters as₁ as₂ →
      Converted A T (.call q target as) (.call q₂ target as₂)
  | newInstance {target : MethodRef} {as as₁ as₂ : List Expr} :
      List.Forall₂ (Converted A T) as as₁ →
      A.ArgumentValues target.parameters target.declaration.parameters as₁ as₂ →
      Converted A T (.newInstance target as) (.newInstance target as₂)
  -- Each side is adjusted by the type that the other side has before its adjustment.
  | binary {op : BinaryOp} {l l₁ l₂ r r₁ r₂ : Expr} {type : Ty} : op.isAssignment = false →
      Converted A T l l₁ → Converted A T r r₁ →
      A.OperandIf (unboxesBeside op type r₁) l₁ l₂ → A.OperandIf (unboxesBeside op type l₁) r₁ r₂ →
      Converted A T (.binary op l r type) (.binary op l₂ r₂ type)
  -- The target of an assignment is a place and is not adjusted itself.
  | assign {l l₁ r r₁ r₂ : Expr} {type : Ty} :
      Converted A T l l₁ → Converted A T r r₁ →
      A.SlotValue l₁.type (targetDeclaredType l₁) r₁ r₂ →
      Converted A T (.binary .assign l r type) (.binary .assign l₁ r₂ type)
  | compound {op : BinaryOp} {l l₁ r r₁ r₂ e : Expr} {type : Ty} :
      op = .plusAssign ∨ op = .minusAssign → Converted A T l l₁ → Converted A T r r₁ →
      A.AddedValue l₁ r₁ r₂ → Guarded A T (fun target => .binary op target r₂ type) l₁ e →
      Converted A T (.binary op l r type) e
  | unary {op : UnaryOp} {fixity : Fixity} {x x₁ x₂ : Expr} {type : Ty} :
      op.hasSideEffect = false → Converted A T x x₁ → A.OperandValue x₁ x₂ →
      Converted A T (.unary op fixity x type) (.unary op fixity x₂ type)
  | step {op : UnaryOp} {fixity : Fixity} {x x₁ e : Expr} {type : Ty} :
      op.hasSideEffect = true → Converted A T x x₁ →
      Guarded A T (fun target => .unary op fixity target type) x₁ e →
      Converted A T (.unary op fixity x type) e
  | cast {type : Ty} {x x₁ x₂ : Expr} : Converted A T x x₁ → A.CastValue type x₁ x₂ →
      Converted A T (.cast type x) (.cast type x₂)
  | conditional {type : Ty} {c c₁ c₂ a a₁ a₂ b b₁ b₂ : Expr} :
      Converted A T c c₁ → Converted A T a a₁ → Converted A T b b₁ →
      A.ConditionValue c₁ c₂ → A.OperandIf type.isPrimitive a₁ a₂ →
      A.OperandIf type.isPrimitive b₁ b₂ →
      Converted A T (.conditional type c a b) (.conditional type c₂ a₂ b₂)
  | notNull {x x₁ : Expr} : Converted A T x x₁ → Converted A T (.notNull x) (.notNull x₁)
  -- The members of inner sequences, those that stand for updates among them, move up.
  | multi {es es₁ : List Expr} : List.Forall₂ (Converted A T) es es₁ →
      Converted A T (.multi es) (.multi (dropRepeated (flatten es₁)))
  | declare {fs fs₁ fs₂ : List (Fragment Expr)} :
      List.Forall₂ (Fragment.Rel (Converted A T)) fs fs₁ →
      List.Forall₂ A.InitializerValue fs₁ fs₂ → Converted A T (.declare fs) (.declare fs₂)

/-- What holds of all updates, and of all sequences that end in an update, holds of
what an update becomes. -/
theorem Conversion.Guarded.root {A : Adjustment} {T : VariableId → Prop} {update : Expr → Expr}
    {target e : Expr} {R : Expr → Prop} (h : Guarded A T update target e)
    (hupdate : ∀ t, R (update t)) (hmulti : ∀ es t, R (.multi (es ++ [update t]))) : R e := by
  cases h with
  | unboxed _ | unchanged _ _ _ => exact hupdate _
  | checked _ _ _ => exact hmulti [_] _
  | bound _ _ _ _ _ _ => exact hmulti [_] _
  | boundChecked _ _ _ _ _ _ => exact hmulti [_, _] _

/-! ## Induction -/

/-- A relation between expressions and their results that passes from the parts
of a node to the node, provided that the node of the input satisfies `H`. The
cases of updates and sequences look into their parts, so they may use all that is
known of them. -/
structure Conversion.Congruence (A : Adjustment) (T : VariableId → Prop) (H : Expr → Prop)
    (P : Expr → Expr → Prop) : Prop where
  leaf {e : Expr} : e.isLeaf = true → H e → P e e
  fieldAccess {q q₁ q₂ : Option Expr} {f : FieldRef} : H (.fieldAccess q f) →
    Option.Rel P q q₁ → A.ReceiverValue f.isStatic q₁ q₂ →
    P (.fieldAccess q f) (.fieldAccess q₂ f)
  call {q q₁ q₂ : Option Expr} {target : MethodRef} {as as₁ as₂ : List Expr} :
    H (.call q target as) → Option.Rel P q q₁ → List.Forall₂ P as as₁ →
    A.ReceiverValue target.isStatic q₁ q₂ →
    A.ArgumentValues target.parameters target.declaration.parameters as₁ as₂ →
    P (.call q target as) (.call q₂ target as₂)
  newInstance {target : MethodRef} {as as₁ as₂ : List Expr} : H (.newInstance target as) →
    List.Forall₂ P as as₁ →
    A.ArgumentValues target.parameters target.declaration.parameters as₁ as₂ →
    P (.newInstance target as) (.newInstance target as₂)
  binary {op : BinaryOp} {l l₁ l₂ r r₁ r₂ : Expr} {type : Ty} : H (.binary op l r type) →
    op.isAssignment = false → P l l₁ → P r r₁ → A.OperandIf (unboxesBeside op type r₁) l₁ l₂ →
    A.OperandIf (unboxesBeside op type l₁) r₁ r₂ →
    P (.binary op l r type) (.binary op l₂ r₂ type)
  assign {l l₁ r r₁ r₂ : Expr} {type : Ty} : H (.binary .assign l r type) → P l l₁ → P r r₁ →
    A.SlotValue l₁.type (targetDeclaredType l₁) r₁ r₂ →
    P (.binary .assign l r type) (.binary .assign l₁ r₂ type)
  compound {op : BinaryOp} {l l₁ r r₁ r₂ e : Expr} {type : Ty} : H (.binary op l r type) →
    op = .plusAssign ∨ op = .minusAssign → Converted A T l l₁ → P l l₁ → P r r₁ →
    A.AddedValue l₁ r₁ r₂ → Guarded A T (fun target => .binary op target r₂ type) l₁ e →
    P (.binary op l r type) e
  unary {op : UnaryOp} {fixity : Fixity} {x x₁ x₂ : Expr} {type : Ty} :
    H (.unary op fixity x type) → op.hasSideEffect = false → P x x₁ → A.OperandValue x₁ x₂ →
    P (.unary op fixity x type) (.unary op fixity x₂ type)
  step {op : UnaryOp} {fixity : Fixity} {x x₁ e : Expr} {type : Ty} :
    H (.unary op fixity x type) → op.hasSideEffect = true → Converted A T x x₁ → P x x₁ →
    Guarded A T (fun target => .unary op fixity target type) x₁ e →
    P (.unary op fixity x type) e
  cast {type : Ty} {x x₁ x₂ : Expr} : H (.cast type x) → P x x₁ → A.CastValue type x₁ x₂ →
    P (.cast type x) (.cast type x₂)
  conditional {type : Ty} {c c₁ c₂ a a₁ a₂ b b₁ b₂ : Expr} : H (.conditional type c a b) →
    P c c₁ → P a a₁ → P b b₁ → A.ConditionValue c₁ c₂ → A.OperandIf type.isPrimitive a₁ a₂ →
    A.OperandIf type.isPrimitive b₁ b₂ → P (.conditional type c a b) (.conditional type c₂ a₂ b₂)
  notNull {x x₁ : Expr} : H (.notNull x) → P x x₁ → P (.notNull x) (.notNull x₁)
  multi {es es₁ : List Expr} : (Expr.multi es).Everywhere H →
    List.Forall₂ (Converted A T) es es₁ → List.Forall₂ P es es₁ →
    P (.multi es) (.multi (dropRepeated (flatten es₁)))
  declare {fs fs₁ fs₂ : List (Fragment Expr)} : H (.declare fs) →
    List.Forall₂ (Fragment.Rel P) fs fs₁ → List.Forall₂ A.InitializerValue fs₁ fs₂ →
    P (.declare fs) (.declare fs₂)

/-- A congruence holds between every expression and its result. -/
theorem Conversion.Congruence.holds {A : Adjustment} {T : VariableId → Prop} {H : Expr → Prop}
    {P : Expr → Expr → Prop} (hP : Congruence A T H P) {e e' : Expr} (h : Converted A T e e')
    (hH : e.Everywhere H) : P e e' := by
  -- The induction is on the input; what an update becomes does not have its shape.
  induction e using Expr.childInduction generalizing e' with
  | step e ih =>
    have ih' : ∀ c ∈ e.children, ∀ c', Converted A T c c' → P c c' :=
      fun c hc c' hcc' => ih c hc hcc' (hH.child hc)
    -- The rules follow the kinds of nodes, so the rule that was used gives the kind of the input.
    cases h with
    | leaf hleaf => exact hP.leaf hleaf hH.here
    | fieldAccess hq hq₂ => exact hP.fieldAccess hH.here (optionRel_imp_of_mem hq ih') hq₂
    | call hq has hq₂ has₂ =>
      refine hP.call hH.here (optionRel_imp_of_mem hq fun c hc => ?_)
        (forall₂_imp_of_mem has fun c hc => ?_) hq₂ has₂
      · exact ih' c (List.mem_append_left _ hc)
      · exact ih' c (List.mem_append_right _ hc)
    | newInstance has has₂ => exact hP.newInstance hH.here (forall₂_imp_of_mem has ih') has₂
    | binary hop hl hr hl₂ hr₂ =>
      exact hP.binary hH.here hop (ih' _ (by simp [Expr.children]) _ hl)
        (ih' _ (by simp [Expr.children]) _ hr) hl₂ hr₂
    | assign hl hr hr₂ =>
      exact hP.assign hH.here (ih' _ (by simp [Expr.children]) _ hl)
        (ih' _ (by simp [Expr.children]) _ hr) hr₂
    | compound hop hl hr hr₂ hguarded =>
      exact hP.compound hH.here hop hl (ih' _ (by simp [Expr.children]) _ hl)
        (ih' _ (by simp [Expr.children]) _ hr) hr₂ hguarded
    | unary hop hx hx₂ => exact hP.unary hH.here hop (ih' _ List.mem_cons_self _ hx) hx₂
    | step hop hx hguarded =>
      exact hP.step hH.here hop hx (ih' _ List.mem_cons_self _ hx) hguarded
    | cast hx hx₂ => exact hP.cast hH.here (ih' _ List.mem_cons_self _ hx) hx₂
    | conditional hc ha hb hc₂ ha₂ hb₂ =>
      exact hP.conditional hH.here (ih' _ (by simp [Expr.children]) _ hc)
        (ih' _ (by simp [Expr.children]) _ ha) (ih' _ (by simp [Expr.children]) _ hb) hc₂ ha₂ hb₂
    | notNull hx => exact hP.notNull hH.here (ih' _ List.mem_cons_self _ hx)
    | multi hes => exact hP.multi hH hes (forall₂_imp_of_mem hes ih')
    | declare hfs hfs₂ =>
      refine hP.declare hH.here (forall₂_imp_of_mem hfs fun f hf f' hff' => ?_) hfs₂
      cases hff' with
      | mk hi =>
        -- An initializer is a child of the declaration, not of the fragment that holds it.
        refine .mk (optionRel_imp_of_mem hi fun c hc => ih' c ?_)
        exact List.mem_filterMap.mpr ⟨_, hf, Option.mem_toList.mp hc⟩

/-! ## Empty sequences -/

section

variable {A : Adjustment} {T : VariableId → Prop}

/-- Only the empty sequence becomes empty, if no sequence ends in an empty one. -/
theorem Converted.eq_empty {e e' : Expr} (h : Converted A T e e') (hempty : e' = .multi [])
    (he : e.Everywhere fun x => x.endsInEmpty = false) : e = .multi [] := by
  induction e using Expr.childInduction generalizing e' with
  | step e ih =>
    cases h with
    | leaf hleaf =>
      subst hempty
      cases hleaf
    | compound _ _ _ _ hguarded =>
      exact absurd hempty (hguarded.root (R := (· ≠ .multi [])) nofun (by simp))
    | step _ _ hguarded =>
      exact absurd hempty (hguarded.root (R := (· ≠ .multi [])) nofun (by simp))
    | @multi es es₁ hes =>
      -- An empty result had no members before repeated checks were left out either.
      have hflat : flatten es₁ = [] := dropRepeated_eq_nil.mp (Expr.multi.inj hempty)
      cases hlast : es.getLast? with
      | none => rw [List.getLast?_eq_none_iff.mp hlast]
      | some last =>
        -- The last member would have become empty, so it was empty.
        have hlast₁ := forall₂_getLast? hes
        rw [hlast] at hlast₁
        generalize hes₁ : es₁.getLast? = last' at hlast₁
        cases hlast₁ with
        | @some _ last₁ hconverted =>
          have hempty₁ : last₁ = .multi [] := by
            by_contra hne
            obtain ⟨x, hx, _⟩ := Expr.exists_getLast?_members hne
            rw [← getLast?_flatten hes₁ hne, hflat] at hx
            cases hx
          have hmem : last ∈ (Expr.multi es).children := List.mem_of_getLast? hlast
          rw [ih last hmem hconverted hempty₁ (he.child hmem)] at hlast
          exact absurd hlast (Expr.endsInEmpty_eq_false he.here)
    | _ => cases hempty

/-- Members of a sequence that were not empty are not empty after the traversal, which matters for
the last one: it decides on the type. -/
theorem Converted.getLast?_ne_empty {es es₁ : List Expr} (h : List.Forall₂ (Converted A T) es es₁)
    (hes : (Expr.multi es).Everywhere fun x => x.endsInEmpty = false) :
    es₁.getLast? ≠ some (.multi []) := by
  intro hlast₁
  have hlast := forall₂_getLast? h
  rw [hlast₁] at hlast
  generalize hes' : es.getLast? = last at hlast
  cases hlast with
  | some hconverted =>
    have hmem := List.mem_of_getLast? hes'
    rw [hconverted.eq_empty rfl (hes.child hmem)] at hes'
    exact Expr.endsInEmpty_eq_false hes.here hes'

end

/-! ## Statements and declarations -/

/-- What the traversal makes of the expressions in the statements of a method. -/
def Conversion.stmtSteps (A : Adjustment) (T : VariableId → Prop) (method : MethodRef) :
    StmtSteps where
  plain := Converted A T
  result e e' := ∃ e₁, Converted A T e e₁ ∧
    A.SlotValue method.returnType method.declaration.returnType e₁ e'
  condition e e' := ∃ e₁, Converted A T e e₁ ∧ A.ConditionValue e₁ e'
  thrown e e' := ∃ e₁, Converted A T e e₁ ∧ A.RequiredValue e₁ e'
  message := Converted A T

/-- What the traversal makes of the expressions in a unit. -/
def Conversion.unitSteps (A : Adjustment) (T : VariableId → Prop) : UnitSteps where
  initializer f e e' := ∃ e₁, Converted A T e e₁ ∧ A.SlotValue f.type f.declaration.type e₁ e'
  statement := Conversion.stmtSteps A T

end Lowering
