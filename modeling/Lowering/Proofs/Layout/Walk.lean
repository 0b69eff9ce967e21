import Mathlib.Data.List.Perm.Subperm
import Lowering.Layout.Registry
import Lowering.Proofs.Layout.Faults

/-!
# The walk along superclass names

Whether a class has a layout, and which, is decided by following superclass names
from it. `Walk` is that walk, without kept layouts and without a bound. It ends at a
class without superclass, or it comes to a name that is not registered, or to one
that it has met before.

A walk that cannot go on never meets a name twice (`Walk.distinct_of_stuck`), and a
name has only one complete walk (`Walk.complete_unique`).
-/

namespace Lowering.LayoutRegistry

/-! ## Registered classes -/

/-- The classes are registered under their own names, each name once. -/
structure WellNamed (r : LayoutRegistry) : Prop where
  distinct : r.names.Nodup
  own : ∀ entry ∈ r.classes, entry.2.qualifiedName = entry.1

theorem wellNamed_empty : empty.WellNamed :=
  ⟨List.nodup_nil, by simp [empty]⟩

theorem WellNamed.qualifiedName {r : LayoutRegistry} (hnamed : r.WellNamed) {name : String}
    {c : ClassSummary} (hfound : r.find? name = some c) : c.qualifiedName = name := by
  obtain ⟨before, after, hentries, -⟩ := List.lookup_eq_some_iff.mp hfound
  exact hnamed.own (name, c) (by simp [hentries])

/-! ## Walks -/

/-- The walk from a name: the classes it meets, nearest first, and the name it comes
to next. There is no next name after a class without superclass. -/
inductive Walk (r : LayoutRegistry) : String → List ClassSummary → Option String → Prop where
  | here (name : String) : Walk r name [] (some name)
  | root {name : String} {c : ClassSummary} (hfound : r.find? name = some c)
      (htop : c.superName = none) : Walk r name [c] none
  | up {name superName : String} {c : ClassSummary} {walked : List ClassSummary}
      {next : Option String} (hfound : r.find? name = some c)
      (hsuper : c.superName = some superName) (hfurther : Walk r superName walked next) :
      Walk r name (c :: walked) next

/-- The names of the classes that a walk meets. -/
def walkedNames (walked : List ClassSummary) : List String :=
  walked.map (·.qualifiedName)

/-- A walk has come to its end: it met no name twice, and what comes next is not
registered or has been met. -/
structure Complete (r : LayoutRegistry) (walked : List ClassSummary) (next : Option String) :
    Prop where
  distinct : (walkedNames walked).Nodup
  stop : ∀ name, next = some name → r.find? name = none ∨ name ∈ walkedNames walked

namespace Walk

variable {r : LayoutRegistry} {name : String} {walked : List ClassSummary} {next : Option String}

/-- Registering more classes keeps the walks there are. -/
theorem mono {r' : LayoutRegistry}
    (hkept : ∀ name c, r.find? name = some c → r'.find? name = some c)
    (hwalk : Walk r name walked next) : Walk r' name walked next := by
  induction hwalk with
  | here name => exact .here name
  | root hfound htop => exact .root (hkept _ _ hfound) htop
  | up hfound hsuper _ ih => exact .up (hkept _ _ hfound) hsuper ih

theorem congr {r' : LayoutRegistry} (hwalk : Walk r name walked next)
    (hsame : r'.classes = r.classes) : Walk r' name walked next := by
  refine hwalk.mono fun name c hfound => ?_
  rwa [find?, hsame]

/-- A walk that has met no class stands at the name that it began with. -/
theorem eq_of_nil {stop : String} (hwalk : Walk r name [] (some stop)) : stop = name := by
  generalize hreached : some stop = next at hwalk
  cases hwalk with
  | here =>
    cases hreached
    rfl

theorem append {between : String} {further : List ClassSummary}
    (hfirst : Walk r name walked (some between)) (hsecond : Walk r between further next) :
    Walk r name (walked ++ further) next := by
  generalize hreached : some between = stop at hfirst
  induction hfirst with
  | here name =>
    cases hreached
    exact hsecond
  -- This walk has ended, so there is nothing to go on from.
  | root => cases hreached
  | up hfound hsuper _ ih => exact .up hfound hsuper (ih hreached)

/-- A walk to a class without superclass starts at the class of the name. -/
theorem head?_name (hnamed : r.WellNamed) (hwalk : Walk r name walked none) :
    walked.head?.map (·.qualifiedName) = some name := by
  cases hwalk with
  | root hfound => simp [hnamed.qualifiedName hfound]
  | up hfound => simp [hnamed.qualifiedName hfound]

/-- The classes of a walk are registered under their names. -/
theorem find?_of_mem (hnamed : r.WellNamed) (hwalk : Walk r name walked next) {c : ClassSummary}
    (hmem : c ∈ walked) : r.find? c.qualifiedName = some c := by
  induction hwalk with
  | here => cases hmem
  | root hfound =>
    obtain rfl := List.mem_singleton.mp hmem
    rwa [hnamed.qualifiedName hfound]
  | up hfound hsuper _ ih =>
    rcases List.mem_cons.mp hmem with rfl | habove
    · rwa [hnamed.qualifiedName hfound]
    · exact ih habove

/-- A walk that meets no name twice meets no more classes than are registered. -/
theorem length_le_size (hnamed : r.WellNamed) (hwalk : Walk r name walked next)
    (hdistinct : (walkedNames walked).Nodup) : walked.length ≤ r.size := by
  have hregistered : walkedNames walked ⊆ r.names := by
    intro met hmem
    obtain ⟨c, hwalkedClass, rfl⟩ := List.mem_map.mp hmem
    exact mem_names_of_find? (hwalk.find?_of_mem hnamed hwalkedClass)
  -- Distinct names among the registered ones are not more than these.
  have hbound := (List.Nodup.subperm hdistinct hregistered).length_le
  rwa [walkedNames, List.length_map, names, Keyed.names, List.length_map] at hbound

/-- From each of its classes on, a walk is the walk of that class. -/
theorem suffix (hnamed : r.WellNamed) {front back : List ClassSummary} {c : ClassSummary}
    (hwalk : Walk r name (front ++ c :: back) next) : Walk r c.qualifiedName (c :: back) next := by
  induction front generalizing name with
  | nil =>
    cases hwalk with
    | root hfound htop => exact hnamed.qualifiedName hfound ▸ .root hfound htop
    | up hfound hsuper hfurther => exact hnamed.qualifiedName hfound ▸ .up hfound hsuper hfurther
  | cons d front ih =>
    rw [List.cons_append] at hwalk
    -- The list of classes has to be a variable for the walk to be taken apart.
    generalize hrest : front ++ c :: back = above at hwalk
    cases hwalk with
    | root => simp at hrest
    | up hfound hsuper hfurther => exact ih (hrest ▸ hfurther)

/-- Up to each of its classes, a walk is a walk to the name of that class. -/
theorem upTo (hnamed : r.WellNamed) {front back : List ClassSummary} {c : ClassSummary}
    (hwalk : Walk r name (front ++ c :: back) next) : Walk r name front (some c.qualifiedName) := by
  induction front generalizing name with
  | nil =>
    have hown : c.qualifiedName = name := by
      cases hwalk with
      | root hfound => exact hnamed.qualifiedName hfound
      | up hfound => exact hnamed.qualifiedName hfound
    rw [hown]
    exact .here name
  | cons d front ih =>
    rw [List.cons_append] at hwalk
    generalize hrest : front ++ c :: back = above at hwalk
    cases hwalk with
    | root => simp at hrest
    | up hfound hsuper hfurther => exact .up hfound hsuper (ih (hrest ▸ hfurther))

/-- Of two walks from one name, one goes on from where the other stands. Names have one class and
classes one superclass, so two walks can only differ in where they stop. -/
theorem comparable {walked' : List ClassSummary} {next' : Option String}
    (hfirst : Walk r name walked next) (hsecond : Walk r name walked' next') :
    (∃ stop further, next = some stop ∧ walked' = walked ++ further ∧ Walk r stop further next') ∨
      (∃ stop further, next' = some stop ∧ walked = walked' ++ further ∧ Walk r stop further next) ∨
      (walked = walked' ∧ next = next') := by
  induction hfirst generalizing walked' with
  | here name => exact .inl ⟨name, walked', rfl, rfl, hsecond⟩
  | root hfound htop =>
    cases hsecond with
    | here => exact .inr (.inl ⟨_, _, rfl, rfl, .root hfound htop⟩)
    | root hfound' =>
      -- The two walks have found the same class for the name.
      cases hfound.symm.trans hfound'
      exact .inr (.inr ⟨rfl, rfl⟩)
    | up hfound' hsuper =>
      cases hfound.symm.trans hfound'
      cases htop.symm.trans hsuper
  | up hfound hsuper habove ih =>
    cases hsecond with
    | here => exact .inr (.inl ⟨_, _, rfl, rfl, .up hfound hsuper habove⟩)
    | root hfound' htop =>
      cases hfound.symm.trans hfound'
      cases htop.symm.trans hsuper
    | up hfound' hsuper' habove' =>
      cases hfound.symm.trans hfound'
      cases hsuper.symm.trans hsuper'
      -- Above the common class the walks compare as before.
      rcases ih habove' with ⟨stop, further, rfl, rfl, hwalk⟩ | ⟨stop, further, rfl, rfl, hwalk⟩ |
        ⟨rfl, rfl⟩
      · exact .inl ⟨stop, further, rfl, rfl, hwalk⟩
      · exact .inr (.inl ⟨stop, further, rfl, rfl, hwalk⟩)
      · exact .inr (.inr ⟨rfl, rfl⟩)

/-- A walk does not go on from a name that is not registered. -/
theorem eq_nil_of_unknown {stop : String} (hunknown : r.find? stop = none)
    (hwalk : Walk r stop walked next) : walked = [] ∧ next = some stop := by
  cases hwalk with
  | here => exact ⟨rfl, rfl⟩
  | root hfound =>
    rw [hunknown] at hfound
    cases hfound
  | up hfound =>
    rw [hunknown] at hfound
    cases hfound

/-- Two walks from one name that cannot go on are the same. -/
theorem eq_of_stuck {walked' : List ClassSummary} (hfirst : Walk r name walked next)
    (hsecond : Walk r name walked' next)
    (hstuck : ∀ stop, next = some stop → r.find? stop = none) : walked = walked' := by
  rcases hfirst.comparable hsecond with ⟨stop, further, hreached, rfl, hwalk⟩ |
    ⟨stop, further, hreached, rfl, hwalk⟩ | ⟨hsame, -⟩
  · rw [(hwalk.eq_nil_of_unknown (hstuck stop hreached)).1, List.append_nil]
  · rw [(hwalk.eq_nil_of_unknown (hstuck stop hreached)).1, List.append_nil]
  · exact hsame

/-- A walk that cannot go on has met no name twice. -/
theorem distinct_of_stuck (hnamed : r.WellNamed) (hwalk : Walk r name walked next)
    (hstuck : ∀ stop, next = some stop → r.find? stop = none) : (walkedNames walked).Nodup := by
  induction hwalk with
  | here => exact List.nodup_nil
  | root => exact List.nodup_singleton _
  | up hfound hsuper habove ih =>
    rename_i name superName c walked next
    refine List.nodup_cons.mpr ⟨fun hagain => ?_, ih hstuck⟩
    -- A second class of this name would start a shorter walk that cannot go on either.
    obtain ⟨d, hmem, hsame⟩ := List.mem_map.mp hagain
    obtain ⟨front, back, rfl⟩ := List.append_of_mem hmem
    have hlong : Walk r name ((c :: front) ++ d :: back) next := .up hfound hsuper habove
    have hshort : Walk r d.qualifiedName (d :: back) next := hlong.suffix hnamed
    rw [show d.qualifiedName = name from hsame.trans (hnamed.qualifiedName hfound)] at hshort
    -- Both walks are the walk of this name, but one is longer.
    have hlengths := congrArg List.length (hlong.eq_of_stuck hshort hstuck)
    simp only [List.length_cons, List.length_append] at hlengths
    omega

theorem complete_of_stuck (hnamed : r.WellNamed) (hwalk : Walk r name walked next)
    (hstuck : ∀ stop, next = some stop → r.find? stop = none) : Complete r walked next :=
  ⟨hwalk.distinct_of_stuck hnamed hstuck, fun stop hreached => .inl (hstuck stop hreached)⟩

/-- A complete walk cannot go on without meeting a name twice. -/
theorem eq_nil_of_complete (hnamed : r.WellNamed) {stop : String} {further : List ClassSummary}
    (hcomplete : Complete r walked (some stop))
    (hdistinct : (walkedNames (walked ++ further)).Nodup)
    (hwalk : Walk r stop further next) : further = [] ∧ next = some stop := by
  rcases hcomplete.stop stop rfl with hunknown | hmet
  · exact hwalk.eq_nil_of_unknown hunknown
  · rw [walkedNames, List.map_append, List.nodup_append] at hdistinct
    -- If it went on, the first class would be one that has been met.
    cases hwalk with
    | here => exact ⟨rfl, rfl⟩
    | root hfound =>
      exact absurd (hnamed.qualifiedName hfound).symm (hdistinct.2.2 stop hmet _ (by simp))
    | up hfound =>
      exact absurd (hnamed.qualifiedName hfound).symm (hdistinct.2.2 stop hmet _ (by simp))

/-- A name has only one complete walk. -/
theorem complete_unique (hnamed : r.WellNamed) {walked' : List ClassSummary}
    {next' : Option String} (hfirst : Walk r name walked next)
    (hfirstComplete : Complete r walked next)
    (hsecond : Walk r name walked' next') (hsecondComplete : Complete r walked' next') :
    walked = walked' ∧ next = next' := by
  -- One of the walks goes on from the other, and a complete walk does not go on.
  rcases hfirst.comparable hsecond with ⟨stop, further, rfl, rfl, hwalk⟩ |
    ⟨stop, further, rfl, rfl, hwalk⟩ | hsame
  · obtain ⟨rfl, rfl⟩ := hwalk.eq_nil_of_complete hnamed hfirstComplete hsecondComplete.distinct
    exact ⟨(List.append_nil _).symm, rfl⟩
  · obtain ⟨rfl, rfl⟩ := hwalk.eq_nil_of_complete hnamed hsecondComplete hfirstComplete.distinct
    exact ⟨List.append_nil _, rfl⟩
  · exact hsame

end Walk

end Lowering.LayoutRegistry
