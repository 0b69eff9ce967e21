import Lowering.Proofs.Conversion.Values

/-!
# Static types after the traversal

Whatever a handler puts in the place of values, the traversal decides on the static type of
its result alone. A node has its type from its own data or from parts that are not adjusted,
and keeps it. The type of a sequence is that of its last member, and there are two ways to
lose this member. It may repeat the check before it: two checks of one read have one type if
the variables in it have. A check that a handler has made up may have any type, but its
update follows it, and updates are never lost. Or it may be a sequence without members,
which is spliced away, so that the member before it decides on the type.

`Expr.splicedType` is the type that is left in this way.

Main statements:

- `Conversion.type_of_converted`: the result has this type.
- `Expr.splicedType_of_value`: the type of a value is left as it is; only a sequence of type
  `void` can get another type.
- `Conversion.keepsType`: without empty sequences every type is kept.
-/

namespace Lowering

open Conversion

/-! ## Spliced sequences -/

namespace Expr

mutual

/-- The type of what comes last when the expression is spliced into a sequence, with its
inner sequences spliced in before. Nothing is left of a sequence in which all members are
such sequences. -/
def splicedType? : Expr → Option Ty
  | notNull e => some (e.splicedType?.getD (.prim .void)).toNonNullable
  | multi es => splicedTypeOfLast? es
  | e => some e.type
termination_by structural e => e

/-- The type of the last member that leaves something. -/
def splicedTypeOfLast? : List Expr → Option Ty
  | [] => none
  | e :: es => (splicedTypeOfLast? es).or e.splicedType?
termination_by structural es => es

end

/-- The static type that is left of an expression once all sequences in it are spliced, `void`
if nothing is left. -/
def splicedType (e : Expr) : Ty := e.splicedType?.getD (.prim .void)

/-- A last member that leaves something decides. -/
theorem splicedTypeOfLast?_of_getLast? {es : List Expr} {last : Expr} {t : Ty}
    (hlast : es.getLast? = some last) (h : last.splicedType? = some t) :
    splicedTypeOfLast? es = some t := by
  induction es with
  | nil => cases hlast
  | cons e es ih =>
    rw [splicedTypeOfLast?]
    -- A last member is last in the tail as well, unless the tail is empty.
    cases es with
    | nil =>
      obtain rfl : e = last := by simpa using hlast
      exact h
    | cons e' es =>
      rw [List.getLast?_cons_cons] at hlast
      rw [ih hlast]
      rfl

/-- Splicing keeps the type where the last member of every sequence on the way down has one to
keep. Under an assertion nothing may be left as well: the type is `void` in either case. -/
theorem splicedType?_eq_some {P : Expr → Prop}
    (hnotNull : ∀ e, P (notNull e) → P e ∨ e = multi [])
    (hmulti : ∀ es, P (multi es) → ∃ last, es.getLast? = some last ∧ P last) {e : Expr} (he : P e) :
    e.splicedType? = some e.type := by
  induction e using childInduction with
  | step e ih =>
    cases e with
    | notNull x =>
      -- An assertion about the empty sequence has type `void`, like the sequence itself.
      rcases hnotNull x he with hx | rfl
      · rw [splicedType?, ih x List.mem_cons_self hx]
        rfl
      · rfl
    | multi es =>
      obtain ⟨last, hlast, hP⟩ := hmulti es he
      -- Only the last member matters: what comes before it is not looked at.
      have hmember := ih last (List.mem_of_getLast? hlast) hP
      rw [splicedType?, splicedTypeOfLast?_of_getLast? hlast hmember, type_multi, hlast]
      rfl
    | _ => rfl

/-- The type of a value is kept: a sequence of such a type ends in a member of this type. -/
theorem splicedType_of_value {e : Expr} (h : e.type ≠ .prim .void) : e.splicedType = e.type := by
  have hsome : e.splicedType? = some e.type := by
    refine splicedType?_eq_some (P := fun e => e.type ≠ .prim .void) ?_ ?_ h
    · intro x hx
      -- If the operand had type `void`, so would the assertion.
      refine .inl fun hvoid => hx ?_
      show x.type.toNonNullable = .prim .void
      rw [hvoid]
      rfl
    · intro es hes
      rw [type_multi] at hes
      cases hlast : es.getLast? with
      | none =>
        rw [hlast] at hes
        exact absurd rfl hes
      | some last =>
        rw [hlast] at hes
        exact ⟨last, rfl, hes⟩
  rw [splicedType, hsome]
  rfl

/-- Where no sequence ends in an empty one, every type is kept. -/
theorem splicedType_of_endsInEmpty {e : Expr} (h : e.Everywhere fun x => x.endsInEmpty = false) :
    e.splicedType = e.type := by
  -- The empty sequence itself leaves nothing, but its type is `void` before and after.
  by_cases hempty : e = multi []
  · rw [hempty]
    rfl
  have hsome : e.splicedType? = some e.type := by
    refine splicedType?_eq_some
      (P := fun e => (e.Everywhere fun x => x.endsInEmpty = false) ∧ e ≠ multi []) ?_ ?_ ⟨h, hempty⟩
    · intro x hx
      by_cases hnil : x = multi []
      · exact .inr hnil
      · exact .inl ⟨hx.1.child List.mem_cons_self, hnil⟩
    · rintro es ⟨hes, hne⟩
      have hlast := List.getLast?_eq_some_getLast fun hnil : es = [] => hne (congrArg multi hnil)
      refine ⟨_, hlast, hes.child (List.mem_of_getLast? hlast), fun hnil => ?_⟩
      rw [hnil] at hlast
      exact endsInEmpty_eq_false hes.here hlast
  rw [splicedType, hsome]
  rfl

/-- The type of an expression is that of its last contribution to a sequence. -/
theorem type_eq_members (e : Expr) :
    e.type = (e.members.getLast?.map type).getD (.prim .void) := by
  cases e with
  | multi es => exact type_multi es
  | _ => rfl

end Expr

/-! ## Typed reads -/

namespace Expr

/-- What is left of an expression without the assertions around it. -/
def stem : Expr → Expr
  | notNull e => e.stem
  | e => e

/-- Under its assertions the expression is no variable, or one with its type from
`Γ`. -/
def TypedStem (Γ : VariableId → Ty) (e : Expr) : Prop :=
  ∀ v, e.stem = .varRef v → v.type = Γ v.id

variable {Γ : VariableId → Ty}

/-- Equal reads of typed variables have the same type. Equality does not look at the types of
variables, so these have to come from `Γ`; all other reads carry their type. -/
theorem SameRead.type_eq {x y : Expr} (h : x.SameRead y) (hx : x.TypedStem Γ) (hy : y.TypedStem Γ) :
    x.type = y.type := by
  induction h with
  | @varRef v w hid =>
    have hv : v.type = Γ v.id := hx v rfl
    have hw : w.type = Γ w.id := hy w rfl
    show v.type = w.type
    rw [hv, hw, hid]
  -- Assertions are the only reads that have their type from their parts.
  | notNull _ ih => exact congrArg Ty.toNonNullable (ih hx hy)
  | _ => rfl

end Expr

namespace Conversion

open Lowering.Expr

/-- The member that takes the last place has the type of the one that was left out. -/
theorem type_eq_of_isRepeatedCheck {Γ : VariableId → Ty} {x y : Expr} (hx : x.TypedStem Γ)
    (hy : y.TypedStem Γ) (h : isRepeatedCheck y x = true) : y.type = x.type := by
  obtain ⟨a, b, rfl, rfl, hread⟩ := sameRead_of_isRepeatedCheck h
  exact congrArg Ty.toNonNullable (hread.type_eq hy hx)

/-! ## Sequences with checks -/

/-- A sequence of typed members, among them checks that a handler has made up.
Such a check stands directly before its update, which is no check itself. -/
inductive Sequenced (Γ : VariableId → Ty) : List Expr → Prop where
  | nil : Sequenced Γ []
  | typed {e : Expr} {es : List Expr} : e.TypedStem Γ → Sequenced Γ es → Sequenced Γ (e :: es)
  | checked {check update : Expr} {es : List Expr} : update.isNotNull = false →
      update.TypedStem Γ → Sequenced Γ es → Sequenced Γ (check :: update :: es)

namespace Sequenced

variable {Γ : VariableId → Ty} {es es' : List Expr}

/-- Sequences of this kind may follow each other, since each of them keeps its checks and updates
together. -/
theorem append (h : Sequenced Γ es) (h' : Sequenced Γ es') : Sequenced Γ (es ++ es') := by
  induction h with
  | nil => exact h'
  | typed he _ ih => exact .typed he ih
  | checked hcheck hupdate _ ih => exact .checked hcheck hupdate ih

/-- Splicing the members of inner sequences gives a sequence of this kind again. -/
theorem flatten (h : ∀ e ∈ es, Sequenced Γ e.members) : Sequenced Γ (flatten es) := by
  rw [flatten_eq_flatMap]
  induction es with
  | nil => exact .nil
  | cons e es ih =>
    exact (h e List.mem_cons_self).append (ih fun x hx => h x (List.mem_cons_of_mem _ hx))

/-- The last member is typed: a check is never the last one. -/
theorem getLast (h : Sequenced Γ es) {x : Expr} (hx : es.getLast? = some x) : x.TypedStem Γ := by
  induction h with
  | nil => cases hx
  | @typed e es he hes ih =>
    cases es with
    | nil =>
      obtain rfl : e = x := by simpa using hx
      exact he
    | cons e' es =>
      rw [List.getLast?_cons_cons] at hx
      exact ih hx
  | @checked check update es _ hupdate _ ih =>
    rw [List.getLast?_cons_cons] at hx
    cases es with
    | nil =>
      obtain rfl : update = x := by simpa using hx
      exact hupdate
    | cons e es =>
      rw [List.getLast?_cons_cons] at hx
      exact ih hx

theorem not_repeated {kept e : Expr} (h : e.isNotNull = false) :
    isRepeatedCheck kept e = false := by
  by_contra hne
  obtain ⟨_, _, _, rfl, _⟩ := sameRead_of_isRepeatedCheck (Bool.not_eq_false _ ▸ hne)
  cases h

/-- Leaving out repeated checks keeps the order of checks and updates, whatever was kept before. -/
theorem dropRepeatedAfter (h : Sequenced Γ es) (kept : Expr) :
    Sequenced Γ (dropRepeatedAfter kept es) := by
  induction h generalizing kept with
  | nil => exact .nil
  | typed he _ ih =>
    rw [Conversion.dropRepeatedAfter]
    split
    · exact ih kept
    · exact .typed he (ih _)
  | @checked check update es hcheck hupdate _ ih =>
    -- The update stays, so a check that is left out leaves a typed member behind.
    have hstays : ∀ kept, Conversion.dropRepeatedAfter kept (update :: es) =
        update :: Conversion.dropRepeatedAfter update es := by
      intro kept
      rw [Conversion.dropRepeatedAfter, not_repeated hcheck]
      rfl
    rw [Conversion.dropRepeatedAfter]
    split
    · rw [hstays]
      exact .typed hupdate (ih update)
    · rw [hstays]
      exact .checked hcheck hupdate (ih update)

/-- The same for a whole sequence. If the sequence starts with a made-up check, the update after it
is kept, as it is no check. -/
theorem dropRepeated (h : Sequenced Γ es) : Sequenced Γ (dropRepeated es) := by
  cases h with
  | nil => exact .nil
  | typed he hes => exact .typed he (hes.dropRepeatedAfter _)
  | @checked check update es hcheck hupdate hes =>
    rw [Conversion.dropRepeated, Conversion.dropRepeatedAfter, not_repeated hcheck]
    exact .checked hcheck hupdate (hes.dropRepeatedAfter _)

/-- The type of the last member outlives the loss of repeated checks. -/
theorem getLast?_dropRepeated_type (h : Sequenced Γ es) :
    (Conversion.dropRepeated es).getLast?.map type = es.getLast?.map type := by
  cases hlast : es.getLast? with
  | none =>
    obtain rfl := List.getLast?_eq_none_iff.mp hlast
    rfl
  | some x =>
    -- Both last members are typed, so that their types may be compared.
    obtain ⟨y, hy, hyx⟩ := getLast?_dropRepeated hlast
    rw [hy]
    refine congrArg some ?_
    rcases hyx with rfl | hrepeated
    · rfl
    · exact type_eq_of_isRepeatedCheck (h.getLast hlast) (h.dropRepeated.getLast hy) hrepeated

/-- What contributes typed members to a sequence is typed itself. -/
theorem typedStem {e : Expr} (h : Sequenced Γ e.members) : e.TypedStem Γ := by
  cases e with
  | multi es => nofun
  | _ => exact h.getLast rfl

end Sequenced

/-! ## All kinds of expressions -/

/-- What the traversal makes of an expression ends, as a contribution to a sequence, in the
type that is left of the expression. -/
structure Spliced (Γ : VariableId → Ty) (e e' : Expr) : Prop where
  last : e'.members.getLast?.map type = e.splicedType?
  members : Sequenced Γ e'.members

section

variable {Γ : VariableId → Ty} {A : Adjustment} {T : VariableId → Prop}

/-- What a sequence around it would see last gives the type of the expression too. -/
theorem Spliced.type {e e' : Expr} (h : Spliced Γ e e') : e'.type = e.splicedType := by
  rw [type_eq_members, h.last]
  rfl

/-- A node of a kind that has its type from its own data. -/
theorem Spliced.node {e e' : Expr} (hsame : e.SameNode e') (hcheck : e'.isNotNull = false) :
    Spliced Γ e e' := by
  cases hsame with
  | notNull => cases hcheck
  | fieldAccess | call | newInstance | binary | unary | cast | conditional | declare =>
    exact ⟨rfl, .typed nofun .nil⟩

/-- An update with its checks ends in the update. -/
theorem Spliced.guarded {update : Expr → Expr} {target e e' : Expr}
    (h : Guarded A T update target e') (hnode : ∀ t, Spliced Γ e (update t))
    (hmembers : ∀ t, (update t).members = [update t])
    (hcheck : ∀ t, (update t).isNotNull = false) : Spliced Γ e e' := by
  have hsequence : ∀ (es : List Expr) {t : Expr}, Sequenced Γ (es ++ [update t]) →
      Spliced Γ e (.multi (es ++ [update t])) := by
    intro es t hes
    refine ⟨Eq.trans ?_ (hnode t).last, hes⟩
    rw [hmembers]
    simp [Expr.members]
  -- Checks may have any type, but the update and the declared temporary may not.
  have htyped : ∀ t, (update t).TypedStem Γ := fun t => (hnode t).members.typedStem
  have hbinding : ∀ v i, (Expr.declareOne v i).TypedStem Γ := by
    intro v i w hw
    cases hw
  -- The update comes last, after what is bound and checked before it.
  cases h with
  | unboxed _ | unchanged _ _ _ => exact hnode _
  | checked _ _ _ => exact hsequence [_] (.checked (hcheck _) (htyped _) .nil)
  | bound _ _ _ _ _ _ => exact hsequence [_] (.typed (hbinding _ _) (.typed (htyped _) .nil))
  | boundChecked _ _ _ _ _ _ =>
    exact hsequence [_, _] (.typed (hbinding _ _) (.checked (hcheck _) (htyped _) .nil))

/-- The contributions of the members, one after the other, end in the type of the last member
that leaves something. -/
theorem getLast?_flatten_type {es es' : List Expr} (h : List.Forall₂ (Spliced Γ) es es') :
    (flatten es').getLast?.map type = splicedTypeOfLast? es := by
  rw [flatten_eq_flatMap]
  induction h with
  | nil => rfl
  | cons he _ ih =>
    rw [List.flatMap_cons, List.getLast?_append, Option.map_or, ih, he.last, splicedTypeOfLast?]

/-- A sequence has the type of the last member that leaves something, with all members spliced
in. -/
theorem Spliced.multi {es es' : List Expr} (h : List.Forall₂ (Spliced Γ) es es') :
    Spliced Γ (.multi es) (.multi (dropRepeated (flatten es'))) := by
  have hmembers : Sequenced Γ (flatten es') := .flatten fun e' he' =>
    (exists_of_mem_forall₂ h he').elim fun _ he => he.2.members
  refine ⟨?_, hmembers.dropRepeated⟩
  show (dropRepeated (flatten es')).getLast?.map Expr.type = (Expr.multi es).splicedType?
  rw [hmembers.getLast?_dropRepeated_type, getLast?_flatten_type h, splicedType?]

/-- The property passes from parts to nodes for every adjustment: none of the rules asks what the
handler has done. -/
theorem spliced_congruence (A : Adjustment) (T : VariableId → Prop) :
    ValueCongruence A (fun _ _ => True) T (Typed Γ) (Spliced Γ) fun _ _ => True := by
  constructor
  case wrap => exact fun _ _ => trivial
  case leaf =>
    intro e hleaf he
    cases e with
    | varRef v =>
      refine ⟨rfl, .typed ?_ .nil⟩
      intro w hw
      cases hw
      exact he v rfl
    | nullLiteral | boolLiteral | numberLiteral | stringLiteral | thisRef =>
      exact ⟨rfl, .typed nofun .nil⟩
    | _ => cases hleaf
  case fieldAccess => exact fun _ _ => .node .fieldAccess rfl
  case call => exact fun _ _ _ => .node .call rfl
  case newInstance => exact fun _ _ => .node .newInstance rfl
  case binary => exact fun _ _ _ _ => .node .binary rfl
  case assign => exact fun _ _ _ => .node .binary rfl
  case compound =>
    intro op l l₁ r r' e type _ _ _ _ _ hguarded
    exact .guarded hguarded (fun _ => .node .binary rfl) (fun _ => rfl) fun _ => rfl
  case unary => exact fun _ _ _ => .node .unary rfl
  case step =>
    intro op fixity x x₁ e type _ _ _ _ hguarded
    exact .guarded hguarded (fun _ => .node .unary rfl) (fun _ => rfl) fun _ => rfl
  case cast => exact fun _ _ => .node .cast rfl
  case conditional => exact fun _ _ _ _ => .node .conditional rfl
  -- An assertion takes its type from its operand, and operands of assertions are not adjusted.
  case notNull =>
    intro x x' _ hx
    have hstem : (Expr.notNull x').TypedStem Γ := hx.members.typedStem
    refine ⟨?_, .typed hstem .nil⟩
    show some x'.type.toNonNullable = (Expr.notNull x).splicedType?
    rw [hx.type, splicedType?, splicedType]
  case multi => exact fun _ _ hes => .multi hes
  case declare => exact fun _ _ => .node .declare rfl

/-- The traversal leaves the type of an expression with all sequences spliced, whatever the
handler does. -/
theorem type_of_converted {e e' : Expr} (h : Converted A T e e') (he : e.Everywhere (Typed Γ)) :
    e'.type = e.splicedType := by
  have hwithin : A.Within fun _ _ => True :=
    ⟨fun _ => trivial, fun _ => trivial, fun _ => trivial⟩
  exact (((spliced_congruence A T).congruence hwithin).holds h he).type

/-! ## Kept types -/

/-- What a tree must be like to keep its types: variables have them from `Γ`, and no sequence
is empty. -/
structure Typable (Γ : VariableId → Ty) (e : Expr) : Prop where
  typed : e.Typed Γ
  nonempty : e ≠ .multi []

/-- The traversal keeps static types, whatever the handler does. -/
theorem keepsType {e e' : Expr} (h : Converted A T e e') (he : e.Everywhere (Typable Γ)) :
    e'.type = e.type :=
  (type_of_converted h (he.imp fun _ hx => hx.typed)).trans
    (splicedType_of_endsInEmpty (everywhere_endsInEmpty (he.imp fun _ hx => hx.nonempty)))

/-- The traversal keeps the types of values, also beside empty sequences. -/
theorem keepsValueType {e e' : Expr} (h : Converted A T e e') (he : e.Everywhere (Typed Γ))
    (hvalue : e.type ≠ .prim .void) : e'.type = e.type :=
  (type_of_converted h he).trans (splicedType_of_value hvalue)

/-- With its type an assignment target keeps the type that its declaration gives it: a field
stays the same field. -/
theorem targetDeclaredType_of_converted {e e' : Expr} (h : Converted A T e e')
    (htype : e'.type = e.type) : targetDeclaredType e' = targetDeclaredType e := by
  cases h with
  | fieldAccess _ _ => rfl
  -- What an update becomes is no field or variable, and so declares what its type says.
  | compound _ _ _ _ hguarded =>
    exact (hguarded.root (R := fun x => targetDeclaredType x = x.type) (fun _ => rfl)
      fun _ _ => rfl).trans htype
  | step _ _ hguarded =>
    exact (hguarded.root (R := fun x => targetDeclaredType x = x.type) (fun _ => rfl)
      fun _ _ => rfl).trans htype
  | leaf _ => rfl
  | _ => exact htype

end

end Conversion

end Lowering
