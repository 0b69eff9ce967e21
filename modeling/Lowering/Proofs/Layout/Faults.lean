import Mathlib.Data.List.Induction
import Lowering.Proofs.Layout.Fields

/-!
# Chains without a layout

A chain of distinct classes has a layout unless one of its classes breaks the rule
for array elements. `elementsFault` reads the rule off the declarations alone: a
direct subclass of the array container has to declare `elements` first, and the
classes above it have to declare `elements` last. A chain that keeps the rule has a
layout (`ofChain_of_keepsRule`); of one that does not, the class nearest to the root
that breaks it is reported (`ofChain_of_firstFault`).
-/

namespace Lowering.TypeLayout

/-! ## The rule -/

/-- How a class breaks the rule for array elements, given the classes above it from
the root on. -/
def elementsFault (above : List ClassSummary) (c : ClassSummary) : Option ElementsFault :=
  if Known.extendsArrayContainer c.ref (above.getLast?.map (·.qualifiedName)) then
    if !startsWithElements c.fields then some .notDeclaredFirst
    else if !endsInElements (above.flatMap (·.fields)) then some .notInheritedLast
    else none
  else none

/-- No class of a chain breaks the rule. -/
def KeepsRule (chain : List ClassSummary) : Prop :=
  ∀ above c below, chain = above ++ c :: below → elementsFault above c = none

/-- The class nearest to the root that breaks the rule, and how it breaks it. -/
def FirstFault (chain : List ClassSummary) (c : ClassSummary) (fault : ElementsFault) : Prop :=
  ∃ above below, chain = above ++ c :: below ∧ KeepsRule above ∧ elementsFault above c = some fault

theorem keepsRule_nil : KeepsRule [] := by
  intro above c below hsplit
  simp at hsplit

theorem KeepsRule.concat {chain : List ClassSummary} {c : ClassSummary} (hkeeps : KeepsRule chain)
    (hlast : elementsFault chain c = none) : KeepsRule (chain ++ [c]) := by
  intro above d below hsplit
  -- The class in question is the last one, or stands in the chain before it.
  rcases List.eq_nil_or_concat' below with rfl | ⟨between, e, rfl⟩
  · obtain ⟨rfl, hsame⟩ := List.append_inj' hsplit rfl
    cases hsame
    exact hlast
  · have hshorter : chain ++ [c] = (above ++ d :: between) ++ [e] := by simpa using hsplit
    exact hkeeps above d between (List.append_inj' hshorter rfl).1

/-- The rule looks upwards only, so that the classes above do not depend on what is below them. -/
theorem KeepsRule.of_concat {chain : List ClassSummary} {c : ClassSummary}
    (hkeeps : KeepsRule (chain ++ [c])) : KeepsRule chain ∧ elementsFault chain c = none := by
  constructor
  · intro above d below hsplit
    exact hkeeps above d (below ++ [c]) (by simp [hsplit])
  · exact hkeeps chain c [] rfl

theorem FirstFault.append {chain : List ClassSummary} {c : ClassSummary} {fault : ElementsFault}
    (hfirst : FirstFault chain c fault) (more : List ClassSummary) :
    FirstFault (chain ++ more) c fault := by
  obtain ⟨above, below, rfl, hkeeps, hbreaks⟩ := hfirst
  exact ⟨above, below ++ more, by simp, hkeeps, hbreaks⟩

/-- A chain keeps the rule or has a first class that breaks it. -/
theorem keepsRule_or_firstFault (chain : List ClassSummary) :
    KeepsRule chain ∨ ∃ c fault, FirstFault chain c fault := by
  -- The chain is extended downwards, and a fault further up comes first.
  induction chain using List.reverseRecOn with
  | nil => exact .inl keepsRule_nil
  | append_singleton above c ih =>
    rcases ih with hkeeps | ⟨d, fault, hfirst⟩
    · cases hthis : elementsFault above c with
      | none => exact .inl (hkeeps.concat hthis)
      | some fault => exact .inr ⟨c, fault, above, [], rfl, hkeeps, hthis⟩
    · exact .inr ⟨d, fault, hfirst.append [c]⟩

/-! ## The layout above a class -/

/-- The last class of a chain is laid out on top of the others. -/
theorem extend_concat {start above : Option TypeLayout} {chain : List ClassSummary}
    (hextended : extend start chain = .ok above) (c : ClassSummary) :
    extend start (chain ++ [c]) = (create c above).map some := by
  rw [extend_append, hextended]
  change extend above [c] = _
  -- The chain of one class is a fold with one step.
  cases hcreated : create c above <;>
    simp [extend, hcreated, bind, Except.bind, Functor.map, Except.map, pure, Except.pure]

/-- A chain has no layout when its upper part has none. -/
theorem extend_append_of_error {start : Option TypeLayout} {chain : List ClassSummary}
    {e : LayoutError} (hfailed : extend start chain = .error e) (more : List ClassSummary) :
    extend start (chain ++ more) = .error e := by
  rw [extend_append, hfailed]
  rfl

theorem ofChain_concat_eq_ok {chain : List ClassSummary} {c : ClassSummary}
    {below : Option TypeLayout} (hlaidOut : ofChain (chain ++ [c]) = .ok below) :
    ∃ above l, ofChain chain = .ok above ∧ create c above = .ok l ∧ below = some l := by
  cases hupper : ofChain chain with
  | error e =>
    rw [ofChain, extend_append_of_error hupper] at hlaidOut
    cases hlaidOut
  | ok above =>
    rw [ofChain, extend_concat hupper] at hlaidOut
    cases hcreated : create c above with
    | error e =>
      rw [hcreated] at hlaidOut
      cases hlaidOut
    | ok l =>
      rw [hcreated] at hlaidOut
      cases hlaidOut
      exact ⟨above, l, rfl, hcreated, rfl⟩

/-- The layout of a chain is that of its last class. -/
theorem name_of_ofChain {chain : List ClassSummary} {below : Option TypeLayout}
    (hlaidOut : ofChain chain = .ok below) :
    below.map (·.qualifiedName) = chain.getLast?.map (·.qualifiedName) := by
  rcases List.eq_nil_or_concat' chain with rfl | ⟨above, c, rfl⟩
  · cases hlaidOut
    rfl
  · obtain ⟨upper, l, -, hcreated, rfl⟩ := ofChain_concat_eq_ok hlaidOut
    rw [map_qualifiedName_of_create hcreated, List.getLast?_concat, Option.map_some]

/-- Above the first direct subclass of the container nothing has been replaced, so
the fields are all those declared. -/
theorem fields_of_ofChain {chain : List ClassSummary} {below : Option TypeLayout}
    (hunmet : Known.arrayContainerName ∉ chain.dropLast.map (·.qualifiedName))
    (hlaidOut : ofChain chain = .ok below) :
    inheritedFields below = chain.flatMap (·.fields) := by
  induction chain using List.reverseRecOn generalizing below with
  | nil =>
    cases hlaidOut
    rfl
  | append_singleton above c ih =>
    rw [List.dropLast_concat] at hunmet
    obtain ⟨upper, l, hlaidOutAbove, hcreated, rfl⟩ := ofChain_concat_eq_ok hlaidOut
    -- The container is not met above either, so no field there has been replaced.
    have hinherited : inheritedFields upper = above.flatMap (·.fields) := by
      refine ih (fun hmet => hunmet ?_) hlaidOutAbove
      exact (List.dropLast_sublist above).map _ |>.subset hmet
    have hplain : Known.extendsArrayContainer c.ref (upper.map (·.qualifiedName)) = false := by
      rw [name_of_ofChain hlaidOutAbove]
      refine Bool.eq_false_iff.mpr fun harray => hunmet ?_
      obtain ⟨last, hisLast, hnamed⟩ := Option.map_eq_some_iff.mp (superName_of_array harray)
      exact List.mem_map.mpr ⟨last, List.mem_of_getLast? hisLast, hnamed⟩
    -- The fields of the class were appended, since it is no direct subclass of the container.
    rcases placeFields_eq_ok (placeFields_of_create hcreated).1 with ⟨-, hplaced⟩ | ⟨harray, -⟩
    · change l.fields = _
      rw [hplaced, hinherited, List.flatMap_append, List.flatMap_singleton]
    · rw [hplain] at harray
      cases harray

/-- The container does not occur above the class that a direct subclass of it is
laid out on. -/
theorem container_unmet {above : List ClassSummary} {c : ClassSummary}
    (hdistinct : (above.map (·.qualifiedName)).Nodup)
    (harray : Known.extendsArrayContainer c.ref (above.getLast?.map (·.qualifiedName)) = true) :
    Known.arrayContainerName ∉ above.dropLast.map (·.qualifiedName) := by
  have hcontainer := superName_of_array harray
  rcases List.eq_nil_or_concat' above with rfl | ⟨front, last, rfl⟩
  · simp at hcontainer
  -- The class directly above is the container, and no class occurs twice.
  · rw [List.getLast?_concat, Option.map_some, Option.some.injEq] at hcontainer
    rw [List.map_append, List.map_singleton, ← List.concat_eq_append, List.nodup_concat,
      hcontainer] at hdistinct
    rw [List.dropLast_concat]
    exact hdistinct.1

/-- The fields of a class are placed, or refused, by the rule. -/
theorem placeFields_of_chain {above : List ClassSummary} {upper : Option TypeLayout}
    (hdistinct : (above.map (·.qualifiedName)).Nodup) (hlaidOut : ofChain above = .ok upper)
    (c : ClassSummary) :
    (∀ fault, elementsFault above c = some fault →
        placeFields c (upper.map (·.qualifiedName)) (inheritedFields upper) =
          .error (.arrayElements c.qualifiedName fault)) ∧
      (elementsFault above c = none → ∃ fields,
        placeFields c (upper.map (·.qualifiedName)) (inheritedFields upper) = .ok fields) := by
  rw [elementsFault, placeFields, name_of_ofChain hlaidOut]
  split
  · rename_i harray
    -- The code looks at the fields in the layout, the rule at those declared.
    rw [fields_of_ofChain (container_unmet hdistinct harray) hlaidOut]
    cases startsWithElements c.fields
    · simp
    · cases endsInElements (above.flatMap (·.fields)) <;> simp
  · simp

theorem create_of_fault {above : List ClassSummary} {upper : Option TypeLayout}
    (hdistinct : (above.map (·.qualifiedName)).Nodup) (hlaidOut : ofChain above = .ok upper)
    {c : ClassSummary} {fault : ElementsFault} (hbreaks : elementsFault above c = some fault) :
    create c upper = .error (.arrayElements c.qualifiedName fault) := by
  have hplaced := (placeFields_of_chain hdistinct hlaidOut c).1 fault hbreaks
  rw [inheritedFields] at hplaced
  rw [create, hplaced]
  rfl

theorem create_of_rule {above : List ClassSummary} {upper : Option TypeLayout}
    (hdistinct : (above.map (·.qualifiedName)).Nodup) (hlaidOut : ofChain above = .ok upper)
    {c : ClassSummary} (hkeeps : elementsFault above c = none) :
    ∃ l, create c upper = .ok l := by
  obtain ⟨fields, hplaced⟩ := (placeFields_of_chain hdistinct hlaidOut c).2 hkeeps
  rw [inheritedFields] at hplaced
  rw [create, hplaced]
  exact ⟨_, rfl⟩

/-! ## Whole chains -/

/-- A chain of distinct classes that keep the rule has a layout. -/
theorem ofChain_of_keepsRule {chain : List ClassSummary}
    (hdistinct : (chain.map (·.qualifiedName)).Nodup) (hkeeps : KeepsRule chain) :
    ∃ below, ofChain chain = .ok below := by
  induction chain using List.reverseRecOn with
  | nil => exact ⟨none, rfl⟩
  | append_singleton above c ih =>
    rw [List.map_append] at hdistinct
    obtain ⟨hkeepsAbove, hlast⟩ := hkeeps.of_concat
    have hdistinctAbove := (List.nodup_append.mp hdistinct).1
    obtain ⟨upper, hlaidOut⟩ := ih hdistinctAbove hkeepsAbove
    obtain ⟨l, hcreated⟩ := create_of_rule hdistinctAbove hlaidOut hlast
    exact ⟨some l, by rw [ofChain, extend_concat hlaidOut, hcreated]; rfl⟩

/-- A chain of distinct classes is refused at the first of them that breaks the rule. -/
theorem ofChain_of_firstFault {chain : List ClassSummary} {c : ClassSummary}
    {fault : ElementsFault} (hdistinct : (chain.map (·.qualifiedName)).Nodup)
    (hfirst : FirstFault chain c fault) :
    ofChain chain = .error (.arrayElements c.qualifiedName fault) := by
  obtain ⟨above, below, rfl, hkeeps, hbreaks⟩ := hfirst
  rw [List.map_append] at hdistinct
  have hdistinctAbove := (List.nodup_append.mp hdistinct).1
  obtain ⟨upper, hlaidOut⟩ := ofChain_of_keepsRule hdistinctAbove hkeeps
  have hrefused : ofChain (above ++ [c]) = .error (.arrayElements c.qualifiedName fault) := by
    rw [ofChain, extend_concat hlaidOut, create_of_fault hdistinctAbove hlaidOut hbreaks]
    rfl
  -- The classes below are not reached.
  simpa [ofChain] using extend_append_of_error hrefused below

/-- A chain of distinct classes has a layout exactly if its classes keep the rule. -/
theorem ofChain_eq_ok_iff {chain : List ClassSummary}
    (hdistinct : (chain.map (·.qualifiedName)).Nodup) :
    (∃ below, ofChain chain = .ok below) ↔ KeepsRule chain := by
  refine ⟨?_, ofChain_of_keepsRule hdistinct⟩
  rintro ⟨below, hlaidOut⟩
  rcases keepsRule_or_firstFault chain with hkeeps | ⟨c, fault, hfirst⟩
  · exact hkeeps
  -- A chain with a fault has been refused.
  · rw [ofChain_of_firstFault hdistinct hfirst] at hlaidOut
    cases hlaidOut

end Lowering.TypeLayout
