import Lowering.Proofs.Layout.Inheritance

/-!
# Fields along a chain of superclasses

The struct of a class continues the struct of its superclass, so code that knows
an object by a superclass finds every field of that superclass in its place. The
one exception is the last field of the array container, which the container's
direct subclasses declare again with a more special type.

`Continued` compares the fields of two classes of a chain. One class on top of
another gives it (`continued_of_create`), it is transitive, and so it holds
between any two classes of a chain (`continued_extend`). The main theorem is
`fields_of_chain`: field names of a superclass come first, only its last field may
be another one, and no field is lost or added on the way.
-/

namespace Lowering.TypeLayout

/-! ## One class -/

/-- The fields that a subclass starts from. -/
def inheritedFields (above : Option TypeLayout) : List FieldRef :=
  (above.map (·.fields)).getD []

/-- A layout is its class's, with the fields that were placed for the class. -/
theorem placeFields_of_create {c : ClassSummary} {above : Option TypeLayout} {l : TypeLayout}
    (hcreated : create c above = .ok l) :
    placeFields c (above.map (·.qualifiedName)) (inheritedFields above) = .ok l.fields ∧
      l.summary = c := by
  rw [create] at hcreated
  cases hplaced : placeFields c (above.map (·.qualifiedName)) ((above.map (·.fields)).getD []) with
  | error fault => simp [hplaced, bind, Except.bind] at hcreated
  | ok fields =>
    simp only [hplaced, bind, Except.bind, pure, Except.pure, Except.ok.injEq] at hcreated
    subst hcreated
    exact ⟨hplaced, rfl⟩

theorem superName_of_array {c : ClassRef} {superName : Option String}
    (harray : Known.extendsArrayContainer c superName = true) :
    superName = some Known.arrayContainerName :=
  beq_iff_eq.mp (Bool.and_eq_true_iff.mp harray).2

theorem endsInElements_iff (fields : List FieldRef) :
    endsInElements fields = true ↔
      ∃ front last, fields = front ++ [last] ∧ last.name = Known.elementsField := by
  rcases List.eq_nil_or_concat' fields with rfl | ⟨front, last, rfl⟩
  · simp [endsInElements]
  · simp [endsInElements]

theorem startsWithElements_iff (fields : List FieldRef) :
    startsWithElements fields = true ↔
      ∃ first rest, fields = first :: rest ∧ first.name = Known.elementsField := by
  cases fields with
  | nil => simp [startsWithElements]
  | cons first rest => simp [startsWithElements]

/-- What placing the fields of a class can do: they follow the inherited ones, or,
below the array container, the first of them replaces the last inherited one. -/
theorem placeFields_eq_ok {c : ClassSummary} {superName : Option String}
    {inherited fields : List FieldRef} (hplaced : placeFields c superName inherited = .ok fields) :
    (Known.extendsArrayContainer c.ref superName = false ∧ fields = inherited ++ c.fields) ∨
      (Known.extendsArrayContainer c.ref superName = true ∧
        ∃ front old new rest, inherited = front ++ [old] ∧ c.fields = new :: rest ∧
          old.name = Known.elementsField ∧ new.name = Known.elementsField ∧
          fields = front ++ new :: rest) := by
  rw [placeFields] at hplaced
  split at hplaced
  -- A direct subclass of the container has to pass both tests, or there are no fields.
  · rename_i harray
    split at hplaced
    · cases hplaced
    · rename_i hdeclared
      split at hplaced
      · cases hplaced
      · rename_i hends
        obtain ⟨new, rest, hown, hnewName⟩ :=
          (startsWithElements_iff _).mp (by simpa using hdeclared)
        obtain ⟨front, old, rfl, holdName⟩ := (endsInElements_iff _).mp (by simpa using hends)
        cases hplaced
        exact .inr ⟨harray, front, old, new, rest, rfl, hown, holdName, hnewName, by simp [hown]⟩
  · rename_i hplain
    cases hplaced
    exact .inl ⟨by simpa using hplain, rfl⟩

/-! ## Two classes of a chain -/

/-- The fields of a subclass against those of a superclass. `narrowed` says whether
the array elements may have been declared again in between. -/
inductive Continued (narrowed : Bool) (upper lower : List FieldRef) : Prop where
  /-- The superclass's fields come first. -/
  | extended (hfirst : upper <+: lower)
  /-- The superclass's last field, the array elements, has been replaced. -/
  | replaced (front : List FieldRef) (old new : FieldRef) (rest : List FieldRef)
      (hallowed : narrowed = true) (hupper : upper = front ++ [old])
      (hlower : lower = front ++ new :: rest)
      (holdName : old.name = Known.elementsField) (hnewName : new.name = Known.elementsField)

namespace Continued

theorem refl (fields : List FieldRef) : Continued false fields fields :=
  .extended List.prefix_rfl

theorem weaken {narrowed further : Bool} {upper lower : List FieldRef}
    (hcontinued : Continued narrowed upper lower) (hwider : narrowed = true → further = true) :
    Continued further upper lower := by
  cases hcontinued with
  -- Nothing was replaced, so nothing has to be allowed.
  | extended hfirst => exact .extended hfirst
  | replaced front old new rest hallowed hupper hlower holdName hnewName =>
    exact .replaced front old new rest (hwider hallowed) hupper hlower holdName hnewName

theorem append {narrowed : Bool} {upper lower : List FieldRef}
    (hcontinued : Continued narrowed upper lower) (more : List FieldRef) :
    Continued narrowed upper (lower ++ more) := by
  cases hcontinued with
  | extended hfirst => exact .extended (hfirst.trans (List.prefix_append _ _))
  | replaced front old new rest hallowed hupper hlower holdName hnewName =>
    exact .replaced front old new (rest ++ more) hallowed hupper (by simp [hlower]) holdName
      hnewName

/-- Replacing the last field of the lower class. The upper class sees it only when
it has no field less. -/
theorem replaceLast {narrowed : Bool} {upper front : List FieldRef} {old new : FieldRef}
    (hcontinued : Continued narrowed upper (front ++ [old]))
    (holdName : old.name = Known.elementsField) (hnewName : new.name = Known.elementsField) :
    Continued true upper (front ++ [new]) := by
  cases hcontinued with
  | extended hfirst =>
    -- The upper class has all fields, or it ends before the last.
    rcases List.prefix_concat_iff.mp hfirst with rfl | hshorter
    · exact .replaced front old new [] rfl rfl rfl holdName hnewName
    · exact .extended (hshorter.trans (List.prefix_append _ _))
  | replaced before first second rest hallowed hupper hlower hfirstName hsecondName =>
    -- The field that was replaced before is the last one again, or stands further in front.
    rcases List.eq_nil_or_concat' rest with rfl | ⟨between, last, rfl⟩
    · obtain ⟨rfl, -⟩ := List.append_inj' hlower rfl
      exact .replaced front first new [] rfl hupper rfl hfirstName hnewName
    · have hsplit : front ++ [old] = (before ++ second :: between) ++ [last] := by
        simpa using hlower
      obtain ⟨rfl, -⟩ := List.append_inj' hsplit rfl
      exact .replaced before first second (between ++ [new]) rfl hupper (by simp) hfirstName
        hsecondName

/-- The names of a superclass's fields come first even where the elements have been replaced,
because the new field has the same name. -/
theorem names_prefix {narrowed : Bool} {upper lower : List FieldRef}
    (hcontinued : Continued narrowed upper lower) :
    upper.map (·.name) <+: lower.map (·.name) := by
  cases hcontinued with
  | extended hfirst => exact hfirst.map _
  | replaced front old new rest hallowed hupper hlower holdName hnewName =>
    rw [hupper, hlower]
    exact ⟨rest.map (·.name), by simp [holdName, hnewName]⟩

/-- Two classes have different fields at an index of the upper one only at its
end, where both have the array elements. -/
theorem eq_or_last {narrowed : Bool} {upper lower : List FieldRef}
    (hcontinued : Continued narrowed upper lower) {i : Nat} (hinside : i < upper.length)
    (hdifferent : lower[i]? ≠ upper[i]?) :
    narrowed = true ∧ i + 1 = upper.length ∧
      upper[i]?.map (·.name) = some Known.elementsField ∧
      lower[i]?.map (·.name) = some Known.elementsField := by
  cases hcontinued with
  | extended hfirst =>
    obtain ⟨rest, rfl⟩ := hfirst
    exact absurd (List.getElem?_append_left hinside) hdifferent
  | replaced front old new rest hallowed hupper hlower holdName hnewName =>
    subst hupper hlower
    rw [List.length_append, List.length_singleton] at hinside
    -- Before the last field both classes have what is in `front`.
    rcases Nat.lt_succ_iff_lt_or_eq.mp hinside with hearlier | rfl
    · rw [List.getElem?_append_left hearlier, List.getElem?_append_left hearlier] at hdifferent
      exact absurd rfl hdifferent
    · exact ⟨hallowed, by simp, by simp [holdName], by simp [hnewName]⟩

end Continued

/-! ## Chains -/

/-- Whether a class of a chain extends the array container directly, where the
class above the chain has the given name. -/
def narrows : Option String → List ClassSummary → Bool
  | _, [] => false
  | superName, c :: below =>
    Known.extendsArrayContainer c.ref superName || narrows (some c.qualifiedName) below

/-- A chain that does not meet the container has no direct subclass of it. -/
theorem narrows_eq_false {superName : Option String} {chain : List ClassSummary}
    (hunmet : Known.arrayContainerName ∉ superName.toList ++ chain.map (·.qualifiedName)) :
    narrows superName chain = false := by
  induction chain generalizing superName with
  | nil => rfl
  | cons c below ih =>
    -- A direct subclass would have the container directly above it.
    have hthis : Known.extendsArrayContainer c.ref superName = false := by
      cases superName with
      | none => simp [Known.extendsArrayContainer]
      | some name =>
        have hother : name ≠ Known.arrayContainerName := fun hsame => hunmet (by simp [hsame])
        simp [Known.extendsArrayContainer, hother]
    have hfurther : Known.arrayContainerName ∉
        (some c.qualifiedName).toList ++ below.map (·.qualifiedName) :=
      fun hmet => hunmet (List.mem_append_right _ hmet)
    rw [narrows, hthis, ih hfurther, Bool.or_self]

/-- The fields of a class on top of its superclass's. -/
theorem continued_of_create {c : ClassSummary} {above : Option TypeLayout} {l : TypeLayout}
    {narrowed : Bool} {upper : List FieldRef} (hcreated : create c above = .ok l)
    (hcontinued : Continued narrowed upper (inheritedFields above)) :
    Continued (narrowed || Known.extendsArrayContainer c.ref (above.map (·.qualifiedName))) upper
      l.fields := by
  rcases placeFields_eq_ok (placeFields_of_create hcreated).1 with
    ⟨hplain, hplaced⟩ |
    ⟨harray, front, old, new, rest, hinherited, hown, holdName, hnewName, hplaced⟩
  · rw [hplain, hplaced, Bool.or_false]
    exact hcontinued.append c.fields
  -- The replaced field was the last that was inherited, so this is a replacement at the end, with
  -- more fields after it.
  · rw [hinherited] at hcontinued
    have hlast := (hcontinued.replaceLast holdName hnewName).append rest
    rw [harray, hplaced, Bool.or_true]
    simpa using hlast

/-- The name of the class that a layout belongs to, from the chain it was made on. -/
theorem map_qualifiedName_of_create {c : ClassSummary} {above : Option TypeLayout} {l : TypeLayout}
    (hcreated : create c above = .ok l) :
    (some l).map (·.qualifiedName) = some c.qualifiedName := by
  rw [Option.map_some, qualifiedName, (placeFields_of_create hcreated).2]

/-- Every class of a chain continues the fields of every class above it. -/
theorem continued_extend {above below : Option TypeLayout} {chain : List ClassSummary}
    (hextended : extend above chain = .ok below) {narrowed : Bool} {upper : List FieldRef}
    (hcontinued : Continued narrowed upper (inheritedFields above)) :
    Continued (narrowed || narrows (above.map (·.qualifiedName)) chain) upper
      (inheritedFields below) := by
  induction chain generalizing above narrowed with
  | nil =>
    cases hextended
    -- An empty chain narrows nothing.
    exact hcontinued.weaken (by simp +contextual)
  | cons c rest ih =>
    obtain ⟨l, hcreated, hfurther⟩ := extend_cons_eq_ok hextended
    -- The superclass of the rest of the chain is `c`, whose layout is `l`.
    have hstep := ih hfurther (continued_of_create hcreated hcontinued)
    rw [map_qualifiedName_of_create hcreated] at hstep
    rwa [narrows, ← Bool.or_assoc]

/-- A class adds the fields it declares, less the one it replaces. -/
theorem length_fields_of_create {c : ClassSummary} {above : Option TypeLayout} {l : TypeLayout}
    (hcreated : create c above = .ok l) :
    l.fields.length + (Known.extendsArrayContainer c.ref (above.map (·.qualifiedName))).toNat =
      (inheritedFields above).length + c.fields.length := by
  rcases placeFields_eq_ok (placeFields_of_create hcreated).1 with
    ⟨hplain, hplaced⟩ | ⟨harray, front, old, new, rest, hinherited, hown, -, -, hplaced⟩
  · simp [hplain, hplaced]
  · simp only [harray, hplaced, hinherited, hown, List.length_append, List.length_cons,
      List.length_nil, Bool.toNat_true]
    omega

/-- A chain of distinct classes adds the fields its classes declare, less one if it
passes below the array container. -/
theorem length_fields_extend {above below : Option TypeLayout} {chain : List ClassSummary}
    (hdistinct : ((above.map (·.qualifiedName)).toList ++ chain.map (·.qualifiedName)).Nodup)
    (hextended : extend above chain = .ok below) :
    (inheritedFields below).length + (narrows (above.map (·.qualifiedName)) chain).toNat =
      (inheritedFields above).length + (chain.flatMap (·.fields)).length := by
  induction chain generalizing above with
  | nil =>
    cases hextended
    rfl
  | cons c rest ih =>
    obtain ⟨l, hcreated, hfurther⟩ := extend_cons_eq_ok hextended
    have hthis := length_fields_of_create hcreated
    -- Below `c` the chain is distinct as well.
    have hrestDistinct : (c.qualifiedName :: rest.map (·.qualifiedName)).Nodup :=
      (List.nodup_append.mp hdistinct).2.1
    have hstep := ih (by rw [map_qualifiedName_of_create hcreated]; exact hrestDistinct) hfurther
    rw [map_qualifiedName_of_create hcreated] at hstep
    have hown : (inheritedFields (some l)).length = l.fields.length := rfl
    cases harray : Known.extendsArrayContainer c.ref (above.map (·.qualifiedName)) with
    | false =>
      simp only [narrows, harray, Bool.false_or, Bool.toNat_false, List.flatMap_cons,
        List.length_append] at hthis ⊢
      omega
    | true =>
      -- The container is above, so it does not come again.
      have honce : narrows (some c.qualifiedName) rest = false := by
        apply narrows_eq_false
        rw [superName_of_array harray] at hdistinct
        exact (List.nodup_cons.mp hdistinct).1
      simp only [narrows, harray, honce, Bool.or_false, Bool.toNat_true, Bool.toNat_false,
        List.flatMap_cons, List.length_append] at hthis hstep ⊢
      omega

/-- Struct layouts along a chain of distinct classes. The field names of a class
further up come first, in the same order. The fields themselves are the same too,
except that the last one may be another when a class in between, or the lowest one,
extends the array container directly; both are then called `elements`. The lowest
class has all fields declared along the chain, one less if some class of the chain
extends the container directly. -/
theorem fields_of_chain {above below : List ClassSummary} {a l : TypeLayout}
    (hdistinct : ((above ++ below).map (·.qualifiedName)).Nodup)
    (hlaidOutAbove : ofChain above = .ok (some a))
    (hlaidOut : ofChain (above ++ below) = .ok (some l)) :
    a.fields.map (·.name) <+: l.fields.map (·.name) ∧
      (∀ i, i < a.fields.length → l.fields[i]? ≠ a.fields[i]? →
        i + 1 = a.fields.length ∧ narrows (some a.qualifiedName) below = true ∧
          a.fields[i]?.map (·.name) = some Known.elementsField ∧
          l.fields[i]?.map (·.name) = some Known.elementsField) ∧
      l.fields.length + (if narrows none (above ++ below) then 1 else 0) =
        ((above ++ below).flatMap (·.fields)).length := by
  -- The lower part of the chain is laid out on top of the layout of the upper part.
  have hlower : extend (some a) below = .ok (some l) := by
    rw [ofChain, extend_append,
      show extend none above = .ok (some a) from hlaidOutAbove] at hlaidOut
    exact hlaidOut
  have hcontinued : Continued (narrows (some a.qualifiedName) below) a.fields l.fields := by
    simpa [inheritedFields] using continued_extend hlower (.refl a.fields)
  refine ⟨hcontinued.names_prefix, ?_, ?_⟩
  · intro i hinside hdifferent
    obtain ⟨hnarrowed, hlast, hnames⟩ := hcontinued.eq_or_last hinside hdifferent
    exact ⟨hlast, hnarrowed, hnames⟩
  · have htotal := length_fields_extend (by simpa using hdistinct) hlaidOut
    cases hnarrowed : narrows none (above ++ below) with
    | false => simpa [inheritedFields, hnarrowed] using htotal
    | true => simpa [inheritedFields, hnarrowed] using htotal

/-- The array container with two fields. -/
def container : ClassSummary :=
  let ref : ClassRef := { qualifiedName := Known.arrayContainerName }
  .ofMembers ref none []
    [{ enclosing := ref, name := "length", type := .prim .int },
      { enclosing := ref, name := Known.elementsField, type := Known.object }] []

/-- A direct subclass of the container, which declares the elements again. -/
def intArray : ClassSummary :=
  let ref : ClassRef := { qualifiedName := "app.IntArray" }
  .ofMembers ref (some container.ref) []
    [{ enclosing := ref, name := Known.elementsField, type := .array (.prim .int) false }] []

/-- A subclass of `intArray` with a field of its own. -/
def packedInts : ClassSummary :=
  let ref : ClassRef := { qualifiedName := "app.PackedInts" }
  .ofMembers ref (some intArray.ref) []
    [{ enclosing := ref, name := "width", type := .prim .int }] []

/-- Two levels below the container its elements are still in their place, with the
type that the level in between gave them. -/
theorem fields_of_packedInts :
    ∃ a l, ofChain [container] = .ok (some a) ∧
      ofChain ([container] ++ [intArray, packedInts]) = .ok (some l) ∧
      a.fields.map (·.name) <+: l.fields.map (·.name) ∧
      l.fields[1]? ≠ a.fields[1]? ∧ narrows (some a.qualifiedName) [intArray, packedInts] = true ∧
      l.fields.length + 1 = 4 := by
  have hdistinct : (([container] ++ [intArray, packedInts]).map (·.qualifiedName)).Nodup := by
    decide
  obtain ⟨hnames, hlast, htotal⟩ := fields_of_chain hdistinct rfl rfl
  exact ⟨_, _, rfl, rfl, hnames, by decide, (hlast 1 (by decide) (by decide)).2.1, htotal⟩

end Lowering.TypeLayout
