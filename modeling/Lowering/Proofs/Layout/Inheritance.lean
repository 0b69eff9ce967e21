import Mathlib.Data.List.Nodup
import Lowering.Layout.Basic

/-!
# Dispatch along a chain of superclasses

Layouts are made from the root of a chain of superclasses downwards, each on top
of the one before. This module says what the dispatch table at the lower end
holds, in terms of the chain alone.

The table of a chain is one table to which the slots of all its classes were
added in order (`dispatch_extend`). What one more method does to a table is said
once, by `WellFormed.add`, `names_prefix_add` and `implementation_add`, and
carries over to any number of methods. The main theorem is
`dispatch_of_chain`: slots are distinct and never move from a class to its
subclasses, and a call runs the declaration nearest to the receiver's class.
-/

namespace Lowering

/-! ## One table -/

namespace DispatchTable

/-- Every mangled name has one slot, filled by a method of that name. -/
structure WellFormed (table : DispatchTable) : Prop where
  nodup : table.names.Nodup
  mangled : ∀ entry ∈ table.entries, entry.2.mangledName = entry.1

theorem wellFormed_empty : ({} : DispatchTable).WellFormed :=
  ⟨List.nodup_nil, by simp⟩

/-- A method whose mangled name has a slot takes this slot, any other gets a new one at the end. -/
theorem names_add (table : DispatchTable) (method : MethodRef) :
    (table.add method).names =
      if method.mangledName ∈ table.names then table.names
      else table.names ++ [method.mangledName] :=
  Keyed.names_put method.mangledName method table.entries

/-- No slot moves when a method is added. -/
theorem names_prefix_add (table : DispatchTable) (method : MethodRef) :
    table.names <+: (table.add method).names := by
  rw [names_add]
  split
  · exact List.prefix_rfl
  · exact List.prefix_append _ _

/-- An added method answers its own mangled name; other names are answered as
before. -/
theorem implementation_add (table : DispatchTable) (method m : MethodRef) :
    (table.add method).implementation m =
      if m.mangledName = method.mangledName then some method else table.implementation m :=
  Keyed.lookup_put method.mangledName m.mangledName method table.entries

/-- A slot holds the added method or what it held before. -/
theorem mem_entries_add {table : DispatchTable} {method : MethodRef} {entry : String × MethodRef}
    (hmem : entry ∈ (table.add method).entries) :
    entry = (method.mangledName, method) ∨ entry ∈ table.entries :=
  Keyed.mem_put hmem

/-- Adding a method keeps the table well-formed: its name has one slot, which holds a method of this
name. -/
theorem WellFormed.add {table : DispatchTable} (hwf : table.WellFormed) (method : MethodRef) :
    (table.add method).WellFormed where
  nodup := by
    rw [names_add]
    -- The name has its slot already, or is appended.
    split
    · exact hwf.nodup
    · rename_i hnew
      rw [← List.concat_eq_append, List.nodup_concat]
      exact ⟨hnew, hwf.nodup⟩
  mangled := by
    intro entry hmem
    rcases mem_entries_add hmem with rfl | hold
    · rfl
    · exact hwf.mangled entry hold

/-! ## Any number of methods -/

theorem addAll_append (table : DispatchTable) (first second : List MethodRef) :
    table.addAll (first ++ second) = (table.addAll first).addAll second :=
  List.foldl_append

theorem WellFormed.addAll {table : DispatchTable} (hwf : table.WellFormed)
    (methods : List MethodRef) : (table.addAll methods).WellFormed := by
  induction methods generalizing table with
  | nil => exact hwf
  | cons method rest ih => exact ih (hwf.add method)

/-- The slots of a table keep their places, however many methods are added after it. -/
theorem names_prefix_addAll (table : DispatchTable) (methods : List MethodRef) :
    table.names <+: (table.addAll methods).names := by
  induction methods generalizing table with
  | nil => exact List.prefix_rfl
  | cons method rest ih => exact (names_prefix_add table method).trans (ih (table.add method))

/-- The last of the added methods that has the name answers it. -/
theorem implementation_addAll (table : DispatchTable) (methods : List MethodRef) (m : MethodRef) :
    (table.addAll methods).implementation m =
      (methods.reverse.find? fun method => method.mangledName == m.mangledName).or
        (table.implementation m) := by
  induction methods generalizing table with
  | nil => rfl
  | cons method rest ih =>
    have hstep : (table.addAll (method :: rest)).implementation m =
        ((table.add method).addAll rest).implementation m := rfl
    -- The later methods are asked first, then this one, then the table before it.
    rw [hstep, ih, implementation_add, List.reverse_cons, List.find?_append, Option.or_assoc]
    congr 1
    -- Whether this method answers depends on its mangled name alone.
    by_cases hsame : m.mangledName = method.mangledName
    · simp [hsame]
    · have hdiffers : (method.mangledName == m.mangledName) = false := by
        simpa using fun hequal => hsame hequal.symm
      simp [hsame, hdiffers]

/-- A slot keeps its index when the table grows behind it. -/
theorem slotOf_of_prefix {table longer : DispatchTable} (hgrown : table.names <+: longer.names)
    {m : MethodRef} {slot : Nat} (hfound : table.slotOf m = some slot) :
    longer.slotOf m = some slot := by
  obtain ⟨more, happended⟩ := hgrown
  -- The search for a name goes from the front, and ends before it comes to what was appended.
  rw [slotOf, ← happended, List.idxOf?, List.findIdx?_append]
  rw [slotOf, List.idxOf?] at hfound
  rw [hfound, Option.some_or]

end DispatchTable

/-! ## What a class declares -/

namespace ClassSummary

/-- A summary lists no method that is not dispatched. -/
def OnlyPolymorphic (c : ClassSummary) : Prop :=
  ∀ method ∈ c.methods, method.isPolymorphic = true

/-- The summary of a class keeps the polymorphic methods and drops all others. -/
theorem onlyPolymorphic_ofMembers (ref : ClassRef) (superclass : Option ClassRef)
    (interfaces : List ClassRef) (fields : List FieldRef) (methods : List MethodRef) :
    (ofMembers ref superclass interfaces fields methods).OnlyPolymorphic :=
  fun _ hmem => (List.mem_filter.mp hmem).2

theorem onlyPolymorphic_ofDecl (d : TypeDecl) : (ofDecl d).OnlyPolymorphic :=
  fun _ hmem => (List.mem_filter.mp hmem).2

/-- The polymorphic methods of a class. A class that is no interface has one more
after those it declares, the method that answers its class object. -/
def polymorphicMethods (c : ClassSummary) : List MethodRef :=
  c.methods.filter (·.isPolymorphic) ++
    if c.isInterface then [] else [MethodRef.classObject c.ref]

/-- The last polymorphic method of a class with the mangled name of the given
one. -/
def declarationOf (c : ClassSummary) (m : MethodRef) : Option MethodRef :=
  c.polymorphicMethods.reverse.find? fun method => method.mangledName == m.mangledName

/-- Of such a class every method gets a slot, in the order of declaration. -/
theorem OnlyPolymorphic.slotMethods_eq {c : ClassSummary} (honly : c.OnlyPolymorphic) :
    TypeLayout.slotMethods c = c.polymorphicMethods := by
  rw [TypeLayout.slotMethods, polymorphicMethods, List.filter_eq_self.mpr honly]

end ClassSummary

/-! ## Chains -/

namespace TypeLayout

/-- Lays out further subclasses, the nearest first, on top of a layout. -/
def extend (above : Option TypeLayout) (chain : List ClassSummary) :
    Except LayoutError (Option TypeLayout) :=
  chain.foldlM (fun above c => some <$> create c above) above

/-- The layout at the lower end of a chain that starts with its root. -/
def ofChain (chain : List ClassSummary) : Except LayoutError (Option TypeLayout) :=
  extend none chain

/-- The slots that a subclass starts from. -/
def inheritedDispatch (above : Option TypeLayout) : DispatchTable :=
  (above.map (·.dispatch)).getD {}

/-- The levels that a subclass has above its own. -/
def inheritedLevels (above : Option TypeLayout) : List LayoutLevel :=
  (above.map (·.levels)).getD []

/-- What a layout takes over from the one above it. -/
theorem create_eq_ok {c : ClassSummary} {above : Option TypeLayout} {l : TypeLayout}
    (hcreated : create c above = .ok l) :
    l.dispatch = (inheritedDispatch above).addAll (slotMethods c) ∧
      l.ancestors = inheritedLevels above := by
  rw [create] at hcreated
  cases hplaced : placeFields c (above.map (·.qualifiedName)) ((above.map (·.fields)).getD []) with
  -- No layout is made if the fields cannot be placed.
  | error fault => simp [hplaced, bind, Except.bind] at hcreated
  | ok fields =>
    simp only [hplaced, bind, Except.bind, pure, Except.pure, Except.ok.injEq] at hcreated
    subst hcreated
    exact ⟨rfl, rfl⟩

/-- One more subclass is laid out on top of the layout before it. -/
theorem extend_cons_eq_ok {above below : Option TypeLayout} {c : ClassSummary}
    {chain : List ClassSummary} (hextended : extend above (c :: chain) = .ok below) :
    ∃ l, create c above = .ok l ∧ extend (some l) chain = .ok below := by
  rw [extend, List.foldlM_cons] at hextended
  cases hcreated : create c above with
  | error fault => simp [hcreated, bind, Except.bind, Functor.map, Except.map] at hextended
  | ok l =>
    simp only [hcreated, bind, Except.bind, Functor.map, Except.map] at hextended
    exact ⟨l, rfl, hextended⟩

/-- The chain's slots are added to the inherited ones in the order of the chain,
and the levels pile up. -/
theorem dispatch_extend {above below : Option TypeLayout} {chain : List ClassSummary}
    (hextended : extend above chain = .ok below) :
    inheritedDispatch below = (inheritedDispatch above).addAll (chain.flatMap slotMethods) ∧
      inheritedLevels above <:+ inheritedLevels below := by
  induction chain generalizing above with
  | nil =>
    cases hextended
    exact ⟨rfl, List.suffix_rfl⟩
  | cons c rest ih =>
    -- The first class is laid out on `above`, and the rest of the chain on its layout.
    obtain ⟨l, hcreated, hfurther⟩ := extend_cons_eq_ok hextended
    obtain ⟨hslots, hlevels⟩ := create_eq_ok hcreated
    obtain ⟨hrestSlots, hrestLevels⟩ := ih hfurther
    have hthis : inheritedDispatch (some l) = l.dispatch := rfl
    have hown : inheritedLevels (some l) = l.toLayoutLevel :: l.ancestors := rfl
    constructor
    · rw [hrestSlots, hthis, hslots, List.flatMap_cons, DispatchTable.addAll_append]
    · rw [hown, hlevels] at hrestLevels
      exact (List.suffix_cons _ _).trans hrestLevels

/-- A chain can be laid out in two parts. -/
theorem extend_append (above : Option TypeLayout) (chain further : List ClassSummary) :
    extend above (chain ++ further) = extend above chain >>= (extend · further) :=
  List.foldlM_append

/-- The declaration that a call runs on an instance of the lowest class of a
chain: that of the class nearest to it that has one. -/
def nearestDeclaration (chain : List ClassSummary) (m : MethodRef) : Option MethodRef :=
  chain.reverse.findSome? (·.declarationOf m)

theorem flatMap_slotMethods {chain : List ClassSummary} (honly : ∀ c ∈ chain, c.OnlyPolymorphic) :
    chain.flatMap slotMethods = chain.flatMap (·.polymorphicMethods) := by
  apply List.flatMap_congr
  intro c hmem
  exact (honly c hmem).slotMethods_eq

/-- Searching all the slots of a chain from the last one backwards finds the
nearest declaration. -/
theorem find?_slots (chain : List ClassSummary) (honly : ∀ c ∈ chain, c.OnlyPolymorphic)
    (m : MethodRef) :
    ((chain.flatMap slotMethods).reverse.find? fun method => method.mangledName == m.mangledName) =
      nearestDeclaration chain m := by
  rw [flatMap_slotMethods honly, List.reverse_flatMap, List.find?_flatMap]
  rfl

/-- Dispatch along a chain of classes. In the layout of its lowest class every
mangled name has one slot, filled by a method of that name. The layout of any
class further up is one of its ancestors, whose slots it has in the same places.
A call runs the last polymorphic method of the name in the nearest class that
declares one, and there is no implementation if none does. -/
theorem dispatch_of_chain {above below : List ClassSummary} {l : TypeLayout}
    (honly : ∀ c ∈ above ++ below, c.OnlyPolymorphic)
    (hlaidOut : ofChain (above ++ below) = .ok (some l)) :
    l.dispatch.names.Nodup ∧
      (∀ entry ∈ l.dispatch.entries, entry.2.mangledName = entry.1) ∧
      (∀ a, ofChain above = .ok (some a) →
        a.levels <:+ l.levels ∧ a.dispatch.names <+: l.dispatch.names ∧
          ∀ m slot, a.dispatch.slotOf m = some slot → l.dispatch.slotOf m = some slot) ∧
      ∀ m, l.dispatch.implementation m = nearestDeclaration (above ++ below) m := by
  -- The whole table comes from an empty one by adding the methods of the chain from the root down.
  have hslots : l.dispatch = ({} : DispatchTable).addAll ((above ++ below).flatMap slotMethods) :=
    (dispatch_extend hlaidOut).1
  have hwf : l.dispatch.WellFormed := hslots ▸ DispatchTable.wellFormed_empty.addAll _
  refine ⟨hwf.nodup, hwf.mangled, ?_, ?_⟩
  · intro a hlaidOutAbove
    -- The rest of the chain is laid out on top of the ancestor's layout.
    rw [ofChain, extend_append,
      show extend none above = .ok (some a) from hlaidOutAbove] at hlaidOut
    obtain ⟨hfurther, hlevels⟩ := dispatch_extend hlaidOut
    have hgrown : a.dispatch.names <+: l.dispatch.names := by
      have hlower : l.dispatch = a.dispatch.addAll (below.flatMap slotMethods) := hfurther
      rw [hlower]
      exact DispatchTable.names_prefix_addAll _ _
    exact ⟨hlevels, hgrown, fun _ _ => DispatchTable.slotOf_of_prefix hgrown⟩
  · intro m
    rw [hslots, DispatchTable.implementation_addAll, find?_slots _ honly]
    exact Option.or_none

/-- A class with two dispatched methods, a private one and a static one. -/
def shape : ClassSummary :=
  let ref : ClassRef := { qualifiedName := "app.Shape" }
  .ofMembers ref none [] []
    [{ enclosing := ref, name := "area" }, { enclosing := ref, name := "edges" },
      { enclosing := ref, name := "area", visibility := .privateAccess },
      { enclosing := ref, name := "count", isStatic := true }]

/-- The method of `shape` that its subclass overrides. -/
def shapeArea : MethodRef := { enclosing := shape.ref, name := "area" }

/-- A subclass of `shape` that has a method of its own and declares an inherited
one twice. -/
def circle : ClassSummary :=
  let ref : ClassRef := { qualifiedName := "app.Circle" }
  .ofMembers ref (some shape.ref) [] []
    [{ enclosing := ref, name := "radius" },
      { enclosing := ref, name := "area", isAbstract := true },
      { enclosing := ref, name := "area" }]

/-- The overridden method keeps its slot, and its last declaration fills it. -/
theorem dispatch_of_circle :
    ∃ a l, ofChain [shape] = .ok (some a) ∧ ofChain ([shape] ++ [circle]) = .ok (some l) ∧
      a.dispatch.names <+: l.dispatch.names ∧
      a.dispatch.slotOf shapeArea = some 0 ∧ l.dispatch.slotOf shapeArea = some 0 ∧
      l.dispatch.implementation shapeArea = some (shapeArea.within circle.ref) := by
  have honly : ∀ c ∈ [shape] ++ [circle], c.OnlyPolymorphic := by
    -- Both summaries are made from members.
    intro c hmem
    simp only [List.cons_append, List.nil_append, List.mem_cons, List.not_mem_nil, or_false] at hmem
    rcases hmem with rfl | rfl
    · exact ClassSummary.onlyPolymorphic_ofMembers _ _ _ _ _
    · exact ClassSummary.onlyPolymorphic_ofMembers _ _ _ _ _
  obtain ⟨-, -, habove, hnearest⟩ := dispatch_of_chain honly rfl
  obtain ⟨-, hgrown, hkept⟩ := habove _ rfl
  refine ⟨_, _, rfl, rfl, hgrown, ?_, hkept _ _ ?_, (hnearest _).trans ?_⟩ <;> decide

end TypeLayout

end Lowering
