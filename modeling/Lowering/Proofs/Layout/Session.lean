import Lowering.Proofs.Layout.Cache

/-!
# Sessions

A session is a sequence of registrations and queries, in any order. That a registry
keeps layouts between queries is not to be seen from its answers: `answers_of_session`
compares a registry after any session with a new one of the same classes, and says which
queries share one layout. `answers_of_classes` says what a new registry answers, by the
walk along superclass names, and that a query that fails leaves no trace.

Each request is described once (`Sound.perform`, `perform_numbered`, `perform_adds`,
`perform_congr`); what holds of a session follows by induction.
-/

namespace Lowering.LayoutRegistry

/-! ## Requests -/

/-- What a registry can be asked for. -/
inductive Request where
  | register (c : ClassSummary)
  | layoutOf (name : String)
  | allLayouts

/-- The name under which a request registers a class. -/
def Request.registered? : Request → Option String
  | .register c => some c.qualifiedName
  | .layoutOf _ => none
  | .allLayouts => none

/-- What a registry answers; layouts are values of `α`. -/
inductive Answer (α : Type) where
  | registered (previous : Option ClassSummary)
  | layout (result : Except LayoutError α)
  | layouts (result : Except LayoutError (List α))

namespace Answer

/-- Whether a registration has replaced a class. -/
def replaces {α : Type} : Answer α → Bool
  | .registered previous => previous.isSome
  | .layout _ => false
  | .layouts _ => false

/-- What the layouts of an answer contain. -/
def contents : Answer KeptLayout → Answer TypeLayout
  | .registered previous => .registered previous
  | .layout result => .layout (result.map (·.layout))
  | .layouts result => .layouts (result.map (List.map (·.layout)))

end Answer

/-- Does what a request asks for. -/
def perform (r : LayoutRegistry) : Request → Answer KeptLayout × LayoutRegistry
  | .register c => (.registered (r.register c).1, (r.register c).2)
  | .layoutOf name => (.layout (r.layoutOf name).1.result, (r.layoutOf name).2)
  | .allLayouts => (.layouts r.allLayouts.1.result, r.allLayouts.2)

/-- Does what a session asks for, request by request. -/
def performAll (r : LayoutRegistry) : List Request → List (Answer KeptLayout) × LayoutRegistry
  | [] => ([], r)
  | request :: rest =>
    ((r.perform request).1 :: ((r.perform request).2.performAll rest).1,
      ((r.perform request).2.performAll rest).2)

/-- The layouts that a request creates. -/
def created (r : LayoutRegistry) : Request → List KeptLayout
  | .register _ => []
  | .layoutOf name => r.creationsOf name
  | .allLayouts => r.creationsOfAll r.names

/-- The layouts that a session creates, in order. -/
def createdAll (r : LayoutRegistry) : List Request → List KeptLayout
  | [] => []
  | request :: rest => r.created request ++ (r.perform request).2.createdAll rest

/-- The layouts that a request gets, with the names of their classes. -/
def served (r : LayoutRegistry) : Request → List (String × KeptLayout)
  | .register _ => []
  | .layoutOf name => (given (r.layoutOf name).1.result).map fun kept => (name, kept)
  | .allLayouts => r.names.zip (r.allLayouts.1.result.toOption.getD [])

/-- The layouts that the requests of a session get. -/
def servedAll (r : LayoutRegistry) : List Request → List (String × KeptLayout)
  | [] => []
  | request :: rest => r.served request ++ (r.perform request).2.servedAll rest

variable {r r' : LayoutRegistry} {name : String}

/-! ## Registrations -/

/-- A class that is registered again stands where it stood, and a new one comes last. -/
theorem names_register (r : LayoutRegistry) (c : ClassSummary) :
    (r.register c).2.names =
      if c.qualifiedName ∈ r.names then r.names else r.names ++ [c.qualifiedName] :=
  Keyed.names_put c.qualifiedName c r.classes

/-- After a registration the name stands for the new class, and other names for what they did. -/
theorem find?_register (r : LayoutRegistry) (c : ClassSummary) (name : String) :
    (r.register c).2.find? name = if name = c.qualifiedName then some c else r.find? name :=
  Keyed.lookup_put c.qualifiedName name c r.classes

/-- Classes stay registered under their own names, each name once. -/
theorem WellNamed.register (hnamed : r.WellNamed) (c : ClassSummary) :
    (r.register c).2.WellNamed where
  distinct := by
    rw [names_register]
    -- The class replaces one of its name, or is added.
    split
    · exact hnamed.distinct
    · rename_i hnew
      rw [← List.concat_eq_append, List.nodup_concat]
      exact ⟨hnew, hnamed.distinct⟩
  own := by
    intro entry hmem
    rcases Keyed.mem_put hmem with rfl | hold
    · rfl
    · exact hnamed.own entry hold

/-- A registration leaves the registry sound: a replaced class takes all kept layouts
with it, and a new one is part of no walk that has led to a kept layout. -/
theorem Sound.register (hsound : r.Sound) (c : ClassSummary) : (r.register c).2.Sound := by
  cases hreplaced : r.find? c.qualifiedName with
  | some previous =>
    have hdropped : (r.register c).2.kept = [] := by simp [LayoutRegistry.register, hreplaced]
    refine ⟨hsound.named.register c, ?_, by rw [hdropped]; exact List.nodup_nil⟩
    intro name kept hlookup
    rw [hdropped] at hlookup
    cases hlookup
  | none =>
    have hstays : (r.register c).2.kept = r.kept := by simp [LayoutRegistry.register, hreplaced]
    refine ⟨hsound.named.register c, ?_, by rw [hstays]; exact hsound.once⟩
    intro name kept hlookup
    rw [hstays] at hlookup
    -- Every name on the walk was registered before, so it is not the new one.
    obtain ⟨walked, hwalk, hlaidOut⟩ := hsound.current name kept hlookup
    refine ⟨walked, hwalk.mono ?_, hlaidOut⟩
    intro other d hfound
    have hdiffers : other ≠ c.qualifiedName := by
      rintro rfl
      rw [hreplaced] at hfound
      cases hfound
    rwa [find?_register, if_neg hdiffers]

theorem Sound.registerAll (hsound : r.Sound) (classes : List ClassSummary) :
    (r.registerAll classes).Sound := by
  induction classes generalizing r with
  | nil => exact hsound
  | cons c rest ih => exact ih (hsound.register c)

/-- Distinct classes, registered in order, are the classes of the registry in that order. -/
theorem classes_registerAll {entries : List (String × ClassSummary)}
    (hdistinct : (Keyed.names entries).Nodup)
    (hown : ∀ entry ∈ entries, entry.2.qualifiedName = entry.1) :
    (empty.registerAll (entries.map (·.2))).classes = entries := by
  -- Registration adds at the end, so the induction goes from the end as well.
  induction entries using List.reverseRecOn with
  | nil => rfl
  | append_singleton front entry ih =>
    rw [Keyed.names, List.map_append, List.map_singleton, ← List.concat_eq_append,
      List.nodup_concat] at hdistinct
    have hbefore := ih hdistinct.2 fun other hmem => hown other (List.mem_append_left _ hmem)
    have hnamed : entry.2.qualifiedName = entry.1 := hown entry (by simp)
    rw [List.map_append, registerAll, List.foldl_append]
    change Keyed.put entry.2.qualifiedName entry.2 (empty.registerAll (front.map (·.2))).classes = _
    rw [hbefore, hnamed, Keyed.put_of_not_mem hdistinct.1]

/-- A new registry with the classes of a given one, registered in the same order. -/
def fresh (r : LayoutRegistry) : LayoutRegistry :=
  empty.registerAll (r.classes.map (·.2))

/-- The new registry has the same classes in the same order. It has kept nothing so far. -/
theorem WellNamed.classes_fresh (hnamed : r.WellNamed) : r.fresh.classes = r.classes :=
  classes_registerAll hnamed.distinct hnamed.own

/-! ## One request -/

theorem Sound.perform (hsound : r.Sound) (request : Request) : (r.perform request).2.Sound := by
  cases request with
  | register c => exact hsound.register c
  | layoutOf name => exact (hsound.layoutOf name).1
  | allLayouts => exact (hsound.layoutsOf r.names).1

/-- The keys of the layouts that a request creates have not been used before. -/
theorem perform_numbered (r : LayoutRegistry) (request : Request) :
    Numbered r (r.created request) (r.perform request).2 := by
  cases request with
  | register c => exact ⟨Nat.le_refl _, by simp [created], List.Pairwise.nil⟩
  | layoutOf name => exact (layoutOf_grown r name).toNumbered
  | allLayouts => exact (layoutsOf_grown r r.names).toNumbered

/-- A request that replaces no class keeps all layouts, and those it creates too. -/
theorem perform_adds {request : Request} (hkeeps : (r.perform request).1.replaces = false) :
    Adds r (r.created request) (r.perform request).2 := by
  cases request with
  | register c =>
    -- A registration drops the kept layouts only if it replaces a class.
    have hnew : (r.find? c.qualifiedName).isSome = false := hkeeps
    simp [Adds, created, perform, register, hnew]
  | layoutOf name => exact (layoutOf_grown r name).adds
  | allLayouts => exact (layoutsOf_grown r r.names).adds

/-- What a request gets is kept. -/
theorem Sound.lookup_of_served (hsound : r.Sound) {request : Request} {kept : KeptLayout}
    (hgot : (name, kept) ∈ r.served request) :
    (r.perform request).2.kept.lookup name = some kept := by
  cases request with
  | register c => cases hgot
  | layoutOf asked =>
    obtain ⟨layout, hanswered, hsame⟩ := List.mem_map.mp hgot
    cases hsame
    exact (hsound.layoutOf _).2 _ (mem_given.mp hanswered)
  -- Each name of the registry is paired with the layout at its place in the answer.
  | allLayouts =>
    have hkept := (hsound.layoutsOf r.names).2
    cases hanswered : r.allLayouts.1.result with
    | error e => simp [served, hanswered, Except.toOption] at hgot
    | ok layouts =>
      simp only [served, hanswered, Except.toOption, Option.getD_some] at hgot
      exact (List.forall₂_iff_zip.mp (hkept layouts hanswered)).2 hgot

/-- Registries of the same classes answer a request alike and have the same classes
afterwards. -/
theorem perform_congr (hsound : r.Sound) (hsound' : r'.Sound) (hsame : r'.classes = r.classes)
    (request : Request) :
    (r'.perform request).1.contents = (r.perform request).1.contents ∧
      (r'.perform request).2.classes = (r.perform request).2.classes := by
  cases request with
  -- The answer is the class that was replaced, which is the same since the classes are.
  | register c =>
    have hprevious : r'.find? c.qualifiedName = r.find? c.qualifiedName := by
      rw [find?, hsame, find?]
    exact ⟨congrArg Answer.registered hprevious, congrArg (Keyed.put c.qualifiedName c) hsame⟩
  | layoutOf name =>
    refine ⟨congrArg Answer.layout (layoutOf_congr hsound hsound' hsame name), ?_⟩
    exact (layoutOf_grown r' name).classes.trans
      (hsame.trans (layoutOf_grown r name).classes.symm)
  | allLayouts =>
    have hnames : r'.names = r.names := congrArg Keyed.names hsame
    refine ⟨congrArg Answer.layouts ?_, ?_⟩
    · rw [allLayouts, allLayouts, hnames]
      exact layoutsOf_congr hsound hsound' hsame r.names
    · exact (layoutsOf_grown r' r'.names).classes.trans
        (hsame.trans (layoutsOf_grown r r.names).classes.symm)

/-! ## Sessions -/

/-- A session leaves the registry sound, whatever it asks for. -/
theorem Sound.performAll (hsound : r.Sound) (requests : List Request) :
    (r.performAll requests).2.Sound := by
  induction requests generalizing r with
  | nil => exact hsound
  | cons request rest ih => exact ih (hsound.perform request)

theorem performAll_append (r : LayoutRegistry) (first second : List Request) :
    (r.performAll (first ++ second)).2 = ((r.performAll first).2.performAll second).2 := by
  induction first generalizing r with
  | nil => rfl
  | cons request rest ih => exact ih (r.perform request).2

/-- The keys of layouts grow along a session, over registrations that drop the layouts as well. -/
theorem performAll_numbered (r : LayoutRegistry) (requests : List Request) :
    Numbered r (r.createdAll requests) (r.performAll requests).2 := by
  induction requests generalizing r with
  | nil => exact ⟨Nat.le_refl _, by simp [createdAll], List.Pairwise.nil⟩
  | cons request rest ih => exact (perform_numbered r request).trans (ih (r.perform request).2)

/-- While no class is replaced, all that a session creates is kept. -/
theorem performAll_adds {requests : List Request}
    (hkeeps : ∀ answer ∈ (r.performAll requests).1, answer.replaces = false) :
    Adds r (r.createdAll requests) (r.performAll requests).2 := by
  induction requests generalizing r with
  | nil => rfl
  | cons request rest ih =>
    obtain ⟨hthis, hfurther⟩ := List.forall_mem_cons.mp hkeeps
    exact (perform_adds hthis).trans (ih hfurther)

/-- While no class is replaced, what a session gets stays kept to its end. -/
theorem Sound.lookup_of_servedAll (hsound : r.Sound) {requests : List Request} {kept : KeptLayout}
    (hkeeps : ∀ answer ∈ (r.performAll requests).1, answer.replaces = false)
    (hgot : (name, kept) ∈ r.servedAll requests) :
    (r.performAll requests).2.kept.lookup name = some kept := by
  induction requests generalizing r with
  | nil => cases hgot
  | cons request rest ih =>
    obtain ⟨-, hfurther⟩ := List.forall_mem_cons.mp hkeeps
    have hsoundAfter := hsound.perform request
    -- What the first request gets is kept after it, and the rest of the session drops nothing.
    rcases List.mem_append.mp hgot with hnow | hlater
    · exact (performAll_adds hfurther).lookup_of_hit (hsoundAfter.performAll rest).once
        (hsound.lookup_of_served hnow)
    · exact ih hsoundAfter hfurther hlater

/-- Registries of the same classes give the same answers through a whole session. -/
theorem performAll_congr (hsound : r.Sound) (hsound' : r'.Sound) (hsame : r'.classes = r.classes)
    (requests : List Request) :
    (r'.performAll requests).1.map (·.contents) = (r.performAll requests).1.map (·.contents) := by
  induction requests generalizing r r' with
  | nil => rfl
  | cons request rest ih =>
    -- The classes are the same again after the first request, so the induction goes on from there.
    obtain ⟨hanswer, hclasses⟩ := perform_congr hsound hsound' hsame request
    exact congrArg₂ List.cons hanswer
      (ih (hsound.perform request) (hsound'.perform request) hclasses)

/-- The first occurrences of the names of a list with one more name. -/
theorem eraseDups_concat (names : List String) (name : String) :
    (names ++ [name]).eraseDups =
      if name ∈ names.eraseDups then names.eraseDups else names.eraseDups ++ [name] := by
  rw [List.eraseDups_append]
  by_cases hold : name ∈ names <;> simp [hold, List.removeAll, List.eraseDups_cons]

/-- The names of the classes stand in the order of their first registration. -/
theorem names_performAll (requests : List Request) :
    (empty.performAll requests).2.names =
      (requests.filterMap Request.registered?).eraseDups := by
  induction requests using List.reverseRecOn with
  | nil => rfl
  | append_singleton front request ih =>
    rw [performAll_append]
    cases request with
    | register c =>
      rw [List.filterMap_append, show [Request.register c].filterMap Request.registered? =
        [c.qualifiedName] from rfl, eraseDups_concat, ← ih]
      exact names_register (empty.performAll front).2 c
    -- Queries register nothing.
    | layoutOf name =>
      rw [List.filterMap_append, show [Request.layoutOf name].filterMap Request.registered? =
        [] from rfl, List.append_nil, ← ih]
      exact congrArg Keyed.names (layoutOf_grown _ name).classes
    | allLayouts =>
      rw [List.filterMap_append, show [Request.allLayouts].filterMap Request.registered? =
        [] from rfl, List.append_nil, ← ih]
      exact congrArg Keyed.names (layoutsOf_grown _ _).classes

/-! ## What a session shows -/

/-- The registry after a session. -/
def after (requests : List Request) : LayoutRegistry :=
  (empty.performAll requests).2

/-- All registries that there can be are sound. -/
theorem sound_after (requests : List Request) : (after requests).Sound :=
  sound_empty.performAll requests

/-- Kept layouts do not show. After any session a query answers what a new registry of
the same classes answers, layout or error, and a query of all layouts lists the classes
in the order of their first registration. No two layouts created in a session have the
same key. As long as a session that follows replaces no class, all the layouts it gets
for one name are one and the same, and it creates no second layout for any class. -/
theorem answers_of_session (requests : List Request) :
    (∀ name, ((after requests).layoutOf name).1.result.map (·.layout) =
        ((after requests).fresh.layoutOf name).1.result.map (·.layout)) ∧
      (∀ layouts, (after requests).allLayouts.1.result = .ok layouts →
        layouts.map (·.layout.qualifiedName) =
          (requests.filterMap Request.registered?).eraseDups) ∧
      ((empty.createdAll requests).map (·.key)).Nodup ∧
      ∀ further, (∀ answer ∈ ((after requests).performAll further).1, answer.replaces = false) →
        (∀ name kept kept', (name, kept) ∈ (after requests).servedAll further →
          (name, kept') ∈ (after requests).servedAll further → kept = kept') ∧
        (((after requests).createdAll further).map (·.layout.qualifiedName)).Nodup := by
  have hsound := sound_after requests
  refine ⟨?_, ?_, ?_, ?_⟩
  · intro name
    -- Both registries are sound and have the same classes.
    have hsoundFresh : (after requests).fresh.Sound := sound_empty.registerAll _
    exact layoutOf_congr hsoundFresh hsound hsound.named.classes_fresh.symm name
  · intro layouts hanswered
    rw [hsound.qualifiedNames_of_layoutsOf hanswered]
    exact names_performAll requests
  · have hordered := (performAll_numbered empty requests).ordered
    -- Keys that grow are distinct.
    exact List.pairwise_map.mpr (hordered.imp Nat.ne_of_lt)
  · intro further hkeeps
    constructor
    · intro name kept kept' hgot hgot'
      have hlookup := hsound.lookup_of_servedAll hkeeps hgot
      rw [hsound.lookup_of_servedAll hkeeps hgot'] at hlookup
      exact (Option.some.inj hlookup).symm
    · exact (performAll_adds hkeeps).nodup (hsound.performAll further).once

/-- Two queries of a class and one of all layouts in between get one layout for it. -/
theorem circle_served_once :
    ∃ kept, ("app.Circle", kept) ∈ (after [.register TypeLayout.shape,
        .register TypeLayout.circle]).servedAll
          [.layoutOf "app.Circle", .allLayouts, .layoutOf "app.Circle"] ∧
      ∀ kept', ("app.Circle", kept') ∈ (after [.register TypeLayout.shape,
        .register TypeLayout.circle]).servedAll
          [.layoutOf "app.Circle", .allLayouts, .layoutOf "app.Circle"] → kept' = kept := by
  obtain ⟨-, -, -, hshared⟩ :=
    answers_of_session [.register TypeLayout.shape, .register TypeLayout.circle]
  obtain ⟨hsame, -⟩ := hshared [.layoutOf "app.Circle", .allLayouts, .layoutOf "app.Circle"] (by
    intro answer hmem
    simp only [performAll, perform, List.mem_cons, List.not_mem_nil, or_false] at hmem
    rcases hmem with rfl | rfl | rfl <;> rfl)
  have hsound := sound_after [.register TypeLayout.shape, .register TypeLayout.circle]
  -- The query succeeds, since the walk from the class ends and the chain keeps the rule.
  have hrooted : (after [.register TypeLayout.shape, .register TypeLayout.circle]).ReachesRoot
      "app.Circle" [TypeLayout.shape, TypeLayout.circle] := .up rfl rfl (.root rfl rfl)
  obtain ⟨kept, hanswered, -⟩ := layoutOf_of_keepsRule hsound.named hsound.current hrooted
    ((TypeLayout.ofChain_eq_ok_iff (hrooted.distinct hsound.named)).mp ⟨_, rfl⟩)
  have hgot : ("app.Circle", kept) ∈ (after [.register TypeLayout.shape,
      .register TypeLayout.circle]).servedAll
        [.layoutOf "app.Circle", .allLayouts, .layoutOf "app.Circle"] :=
    List.mem_append_left _ (List.mem_map.mpr ⟨kept, mem_given.mpr hanswered, rfl⟩)
  exact ⟨kept, hgot, fun kept' hgot' => hsame _ _ _ hgot' hgot⟩

/-- What a new registry answers. The walk from a name along superclass names comes to
its end, after as many steps as there are classes at most. The answer is that a name is
not registered, if the walk comes to it before it repeats one; the names walked, if it
repeats one; otherwise the layout of the classes walked, or the class nearest to the root
that breaks the rule for array elements. Whatever the answer, the classes stay, and a
session that follows gets the answers that it would have got without the query. -/
theorem answers_of_classes (classes : List ClassSummary) (name : String) :
    let r := empty.registerAll classes
    let answer := (r.layoutOf name).1.result
    (∃ walked next, Walk r name walked next ∧ Complete r walked next ∧ walked.length ≤ r.size) ∧
      (∀ stop, answer = .error (.unknownType stop) ↔ r.ReachesUnknown name stop) ∧
      (∀ names, answer = .error (.cyclicInheritance names) ↔ r.Repeats name names) ∧
      (∀ typeName fault, answer = .error (.arrayElements typeName fault) ↔
        ∃ chain c, r.ReachesRoot name chain ∧ TypeLayout.FirstFault chain c fault ∧
          c.qualifiedName = typeName) ∧
      (∀ layout, (∃ kept, answer = .ok kept ∧ kept.layout = layout) ↔
        ∃ chain, r.ReachesRoot name chain ∧ TypeLayout.KeepsRule chain ∧
          TypeLayout.ofChain chain = .ok (some layout)) ∧
      (r.layoutOf name).2.classes = r.classes ∧
      ∀ later, ((r.layoutOf name).2.performAll later).1.map (·.contents) =
        (r.performAll later).1.map (·.contents) := by
  intro r answer
  have hsound : r.Sound := sound_empty.registerAll classes
  have hstays := (layoutOf_grown r name).classes
  obtain ⟨walked, next, hwalk, hcomplete, -⟩ := layoutOf_outcome hsound.named hsound.current name
  -- A complete walk meets no class twice.
  have hbounded := hwalk.length_le_size hsound.named hcomplete.distinct
  exact ⟨⟨walked, next, hwalk, hcomplete, hbounded⟩,
    layoutOf_unknown_iff hsound.named hsound.current,
    layoutOf_cyclic_iff hsound.named hsound.current, layoutOf_fault_iff hsound.named hsound.current,
    layoutOf_ok_iff hsound.named hsound.current, hstays,
    performAll_congr hsound (hsound.layoutOf name).1 hstays⟩

/-- A class with the given superclass and no members. -/
def bareClass (name superName : String) : ClassSummary :=
  { ref := { qualifiedName := name }, superclass := some { qualifiedName := superName } }

/-- A class that leads into a circle of two others has no layout; all the names on the
way are reported. -/
theorem answer_of_circular :
    ((empty.registerAll [bareClass "app.Tail" "app.Head", bareClass "app.Head" "app.Body",
        bareClass "app.Body" "app.Head"]).layoutOf "app.Tail").1.result =
      .error (.cyclicInheritance ["app.Tail", "app.Head", "app.Body", "app.Head"]) := by
  obtain ⟨-, -, hcyclic, -⟩ := answers_of_classes
    [bareClass "app.Tail" "app.Head", bareClass "app.Head" "app.Body",
      bareClass "app.Body" "app.Head"] "app.Tail"
  refine (hcyclic _).mpr
    ⟨_, "app.Head", .up rfl rfl (.up rfl rfl (.up rfl rfl (.here _))), ?_, ?_, rfl⟩
  · decide
  · decide

end Lowering.LayoutRegistry
