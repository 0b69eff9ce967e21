import Mathlib.Data.List.Nodup
import Lowering.Layout.Threads
import Lowering.Proofs.Layout.Cache

/-!
# Cells shared by threads

What threads do to the cells of a shelf, without regard to why they do it. `Keeps` is
what every thread guarantees to the others: cells stay in their places, a full cell
stays full of the same layout, and the cell in which another thread computes is left
alone. `Shelved` says that the full cells hold the layouts that the classes have, and
that no class has got two; `Numbered` says that created layouts have new keys.

Each change of a shelf (`reserve`, `put` and the filling of a cell) has one lemma for
each of the three.
-/

namespace Lowering

/-- A cell that the thread may change: no layout is in it, and no other thread computes
there. -/
def CellState.OpenTo (thread : Nat) : CellState → Prop
  | .vacant => True
  | .busy other _ => other = thread
  | .full _ => False

namespace LayoutShelf

variable {shelf shelf' : LayoutShelf} {name : String} {place thread : Nat}
variable {state : CellState} {kept : KeptLayout}

/-! ## Full cells -/

/-- The class of the name has a full cell. -/
def Holds (shelf : LayoutShelf) (name : String) (kept : KeptLayout) : Prop :=
  ∃ place : Nat, shelf.cells[place]? = some ⟨name, .full kept⟩

/-- No class has two cells. -/
def Distinct (shelf : LayoutShelf) : Prop :=
  (shelf.cells.map (·.name)).Nodup

theorem Distinct.place_unique (hdistinct : shelf.Distinct) {place' : Nat} {state' : CellState}
    (hfirst : shelf.cells[place]? = some ⟨name, state⟩)
    (hsecond : shelf.cells[place']? = some ⟨name, state'⟩) : place = place' := by
  have hnames : (shelf.cells.map (·.name))[place]? = (shelf.cells.map (·.name))[place']? := by
    simp [hfirst, hsecond]
  have hinside : place < (shelf.cells.map (·.name)).length := by
    rw [List.length_map]
    exact (List.getElem?_eq_some_iff.mp hfirst).1
  exact (List.getElem?_inj hinside hdistinct).mp hnames

/-- Hence it has one layout, so that threads which read it at different times read the same. -/
theorem Distinct.holds_unique (hdistinct : shelf.Distinct) {kept' : KeptLayout}
    (hfirst : shelf.Holds name kept) (hsecond : shelf.Holds name kept') : kept = kept' := by
  obtain ⟨place, hcell⟩ := hfirst
  obtain ⟨place', hcell'⟩ := hsecond
  rw [hdistinct.place_unique hcell hcell', hcell'] at hcell
  simpa using hcell.symm

/-- What a thread finds without waiting is the layout in the cell of the class, and the cell is
full. -/
theorem holds_of_cached (hcached : shelf.cached name = some kept) : shelf.Holds name kept := by
  obtain ⟨⟨own, state⟩, hfound, hinside⟩ := Option.bind_eq_some_iff.mp hcached
  have hnamed : own = name := by simpa using List.find?_some hfound
  obtain ⟨place, hcell⟩ := List.getElem?_of_mem (List.mem_of_find?_eq_some hfound)
  refine ⟨place, ?_⟩
  cases state with
  -- A cell that is not full gives nothing.
  | vacant => cases hinside
  | busy other key => cases hinside
  | full layout =>
    cases hinside
    rw [hcell, hnamed]

/-! ## Changes -/

theorem getElem?_put (other : Nat) :
    (shelf.put place state).cells[other]? =
      if place = other then shelf.cells[other]?.map fun cell => { cell with state }
      else shelf.cells[other]? := by
  rw [put, List.getElem?_modify]
  split <;> simp

/-- Changing the state of a cell leaves the names as they are. -/
theorem names_put : (shelf.put place state).cells.map (·.name) = shelf.cells.map (·.name) := by
  apply List.ext_getElem?
  intro other
  rw [List.getElem?_map, getElem?_put, List.getElem?_map]
  split <;> simp [Function.comp_def]

/-- A cell of a changed shelf is the changed one, or it was there before. -/
theorem getElem?_of_put {old : CellState} (hcell : shelf.cells[place]? = some ⟨name, old⟩)
    {other : Nat} {cell : LayoutCell}
    (hfound : (shelf.put place state).cells[other]? = some cell) :
    (place = other ∧ cell = ⟨name, state⟩) ∨ (place ≠ other ∧ shelf.cells[other]? = some cell) := by
  rw [getElem?_put] at hfound
  -- The cell that is asked for is the changed one or another.
  split at hfound
  · rename_i hsame
    subst hsame
    rw [hcell] at hfound
    cases hfound
    exact .inl ⟨rfl, rfl⟩
  · rename_i hdiffers
    exact .inr ⟨hdiffers, hfound⟩

theorem getElem?_put_self {old : CellState} (hcell : shelf.cells[place]? = some ⟨name, old⟩) :
    (shelf.put place state).cells[place]? = some ⟨name, state⟩ := by
  simp [getElem?_put, hcell]

/-- What a reservation does: there is a cell and nothing changes, or a vacant cell is
added. -/
theorem reserve_cases (shelf : LayoutShelf) (name : String) :
    (∃ place state, shelf.cells[place]? = some ⟨name, state⟩ ∧
        shelf.reserve name = (place, shelf)) ∨
      (name ∉ shelf.cells.map (·.name) ∧
        shelf.reserve name =
          (shelf.cells.length, { shelf with cells := shelf.cells ++ [⟨name, .vacant⟩] })) := by
  cases hfound : shelf.cells.findIdx? (·.name == name) with
  | some place =>
    left
    -- The place is the first with this name, and `Distinct` makes it the only one.
    obtain ⟨hinside, hown, -⟩ := List.findIdx?_eq_some_iff_getElem.mp hfound
    have hnamed : shelf.cells[place].name = name := by simpa using hown
    refine ⟨place, shelf.cells[place].state, ?_, by simp [reserve, hfound]⟩
    rw [List.getElem?_eq_getElem hinside, ← hnamed]
  | none =>
    right
    have hmissing := List.findIdx?_eq_none_iff.mp hfound
    refine ⟨?_, by simp [reserve, hfound]⟩
    intro hmem
    obtain ⟨cell, hinside, hown⟩ := List.mem_map.mp hmem
    simpa [hown] using hmissing cell hinside

/-- A cell after a reservation is a vacant one, or it was there before. -/
theorem getElem?_of_reserve {place : Nat} {cell : LayoutCell}
    (hfound : (shelf.reserve name).2.cells[place]? = some cell) :
    cell = ⟨name, .vacant⟩ ∨ shelf.cells[place]? = some cell := by
  rcases reserve_cases shelf name with ⟨at', state, -, hreserved⟩ | ⟨-, hreserved⟩
  · rw [hreserved] at hfound
    exact .inr hfound
  · rw [hreserved] at hfound
    -- The new cell comes after all others, so that the others keep their places.
    rcases Nat.lt_trichotomy place shelf.cells.length with hinside | hlast | houtside
    · rw [List.getElem?_append_left hinside] at hfound
      exact .inr hfound
    · subst hlast
      simp only [List.getElem?_concat_length, Option.some.injEq] at hfound
      exact .inl hfound.symm
    · rw [List.getElem?_eq_none (by simp; omega)] at hfound
      cases hfound

theorem getElem?_reserve {cell : LayoutCell} (hfound : shelf.cells[place]? = some cell) :
    (shelf.reserve name).2.cells[place]? = some cell := by
  rcases reserve_cases shelf name with ⟨at', state, -, hreserved⟩ | ⟨-, hreserved⟩
  · rw [hreserved]
    exact hfound
  · rw [hreserved]
    obtain ⟨hinside, -⟩ := List.getElem?_eq_some_iff.mp hfound
    exact (List.getElem?_append_left hinside).trans hfound

/-- After a reservation there is a cell of the name at the place that is returned, in whatever
state. -/
theorem getElem?_reserved (shelf : LayoutShelf) (name : String) :
    ∃ state, (shelf.reserve name).2.cells[(shelf.reserve name).1]? = some ⟨name, state⟩ := by
  rcases reserve_cases shelf name with ⟨place, state, hcell, hreserved⟩ | ⟨-, hreserved⟩
  · exact ⟨state, by rw [hreserved]; exact hcell⟩
  · exact ⟨.vacant, by rw [hreserved]; simp⟩

/-- A cell is only added for a class that has none. -/
theorem Distinct.reserve (hdistinct : shelf.Distinct) (name : String) :
    (shelf.reserve name).2.Distinct := by
  rcases reserve_cases shelf name with ⟨place, state, -, hreserved⟩ | ⟨hmissing, hreserved⟩
  · rw [hreserved]
    exact hdistinct
  · rw [hreserved, Distinct, List.map_append, List.map_singleton, ← List.concat_eq_append,
      List.nodup_concat]
    exact ⟨hmissing, hdistinct⟩

theorem computed_reserve (shelf : LayoutShelf) (name : String) :
    (shelf.reserve name).2.computed = shelf.computed := by
  rcases reserve_cases shelf name with ⟨place, state, -, hreserved⟩ | ⟨-, hreserved⟩ <;>
    rw [hreserved]

theorem created_reserve (shelf : LayoutShelf) (name : String) :
    (shelf.reserve name).2.created = shelf.created := by
  rcases reserve_cases shelf name with ⟨place, state, -, hreserved⟩ | ⟨-, hreserved⟩ <;>
    rw [hreserved]

/-! ## What a thread guarantees to the others -/

/-- What a move of the thread leaves as it is. -/
structure Keeps (thread : Nat) (shelf shelf' : LayoutShelf) : Prop where
  places : ∀ (place : Nat) name state, shelf.cells[place]? = some ⟨name, state⟩ →
    ∃ state', shelf'.cells[place]? = some ⟨name, state'⟩
  full : ∀ (place : Nat) name kept, shelf.cells[place]? = some ⟨name, .full kept⟩ →
    shelf'.cells[place]? = some ⟨name, .full kept⟩
  busy : ∀ (place : Nat) name other key, other ≠ thread →
    (shelf'.cells[place]? = some ⟨name, .busy other key⟩ ↔
      shelf.cells[place]? = some ⟨name, .busy other key⟩)

theorem Keeps.refl (thread : Nat) (shelf : LayoutShelf) : Keeps thread shelf shelf where
  places _ _ state hcell := ⟨state, hcell⟩
  full _ _ _ hcell := hcell
  busy _ _ _ _ _ := Iff.rfl

/-- Threads do not take layouts from one another. -/
theorem Keeps.holds (hkeeps : Keeps thread shelf shelf') (hholds : shelf.Holds name kept) :
    shelf'.Holds name kept := by
  obtain ⟨place, hcell⟩ := hholds
  exact ⟨place, hkeeps.full place name kept hcell⟩

theorem keeps_reserve (thread : Nat) (shelf : LayoutShelf) (name : String) :
    Keeps thread shelf (shelf.reserve name).2 where
  places _ _ state hcell := ⟨state, getElem?_reserve hcell⟩
  full _ _ _ hcell := getElem?_reserve hcell
  busy place own other key _ := by
    refine ⟨fun hfound => ?_, getElem?_reserve⟩
    -- The new cell is vacant, so nobody computes there.
    rcases getElem?_of_reserve hfound with hnew | hold
    · cases hnew
    · exact hold

/-- A thread may change a cell that is open to it. -/
theorem keeps_put {old : CellState} (hcell : shelf.cells[place]? = some ⟨name, old⟩)
    (hmay : old.OpenTo thread) (hown : ∀ other key, state = .busy other key → other = thread) :
    Keeps thread shelf (shelf.put place state) where
  places at' own' before hfound := by
    by_cases hsame : place = at'
    · subst hsame
      cases hcell.symm.trans hfound
      exact ⟨state, getElem?_put_self hcell⟩
    · exact ⟨before, by rwa [getElem?_put, if_neg hsame]⟩
  full at' own' layout hfound := by
    -- A full cell is open to nobody.
    have hdiffers : place ≠ at' := by
      rintro rfl
      cases hcell.symm.trans hfound
      exact hmay
    rwa [getElem?_put, if_neg hdiffers]
  busy at' own' other key hothers := by
    constructor
    · intro hfound
      rcases getElem?_of_put hcell hfound with ⟨-, hchanged⟩ | ⟨-, hbefore⟩
      · cases hchanged
        exact absurd (hown other key rfl) hothers
      · exact hbefore
    -- The cell of another thread is not open to this one.
    · intro hfound
      have hdiffers : place ≠ at' := by
        rintro rfl
        cases hcell.symm.trans hfound
        exact hothers hmay
      rwa [getElem?_put, if_neg hdiffers]

/-! ## The layouts on a shelf -/

/-- What a class rests on stays where it is held. -/
theorem Keeps.restsOn {c : ClassSummary} {above : Option KeptLayout}
    (hkeeps : Keeps thread shelf shelf') (hrests : c.RestsOn shelf.Holds above) :
    c.RestsOn shelf'.Holds above := by
  simpa using hrests.map (f := id) fun _ _ => hkeeps.holds

/-- The shelf of threads that have begun with the layouts of a registry. -/
structure Shelved (r : LayoutRegistry) (shelf : LayoutShelf) : Prop where
  distinct : shelf.Distinct
  /-- A full cell holds the layout that its class has. -/
  current : ∀ name kept, shelf.Holds name kept → r.LaidOut name kept.layout
  /-- The full cells hold what was kept before and what has been created. -/
  recorded : ∀ name kept, (name, kept) ∈ r.kept ++ shelf.created ↔ shelf.Holds name kept
  once : (Keyed.names (r.kept ++ shelf.created)).Nodup
  /-- A created layout was laid out on the one that is held for the superclass. -/
  rests : ∀ entry ∈ shelf.created, ∃ c above, r.find? entry.1 = some c ∧
    c.RestsOn shelf.Holds above ∧ entry.2.superKey = above.map (·.key)

variable {r : LayoutRegistry}

/-- Changes that fill no cell leave the layouts as they are. -/
theorem Shelved.keep (hshelved : Shelved r shelf) (hkeeps : Keeps thread shelf shelf')
    (hdistinct : shelf'.Distinct) (hcreated : shelf'.created = shelf.created)
    (hold : ∀ name kept, shelf'.Holds name kept → shelf.Holds name kept) :
    Shelved r shelf' where
  distinct := hdistinct
  current name kept hholds := hshelved.current name kept (hold name kept hholds)
  recorded name kept := by
    rw [hcreated, hshelved.recorded]
    exact ⟨hkeeps.holds, hold name kept⟩
  once := by
    rw [hcreated]
    exact hshelved.once
  rests entry hmem := by
    rw [hcreated] at hmem
    obtain ⟨c, above, hknown, hrests, hkey⟩ := hshelved.rests entry hmem
    exact ⟨c, above, hknown, hkeeps.restsOn hrests, hkey⟩

theorem Shelved.reserve (hshelved : Shelved r shelf) (name : String) :
    Shelved r (shelf.reserve name).2 := by
  apply hshelved.keep (keeps_reserve 0 shelf name) (hshelved.distinct.reserve name)
    (created_reserve shelf name)
  -- The new cell is vacant and holds nothing.
  intro other kept hholds
  obtain ⟨place, hfound⟩ := hholds
  rcases getElem?_of_reserve hfound with hnew | hbefore
  · cases hnew
  · exact ⟨place, hbefore⟩

/-- A change of a cell to a state without layout. -/
theorem Shelved.put (hshelved : Shelved r shelf) {old : CellState}
    (hcell : shelf.cells[place]? = some ⟨name, old⟩)
    (hkeeps : Keeps thread shelf (shelf.put place state)) (hempty : state.kept? = none) :
    Shelved r (shelf.put place state) := by
  apply hshelved.keep hkeeps _ rfl
  · intro other kept hholds
    obtain ⟨at', hfound⟩ := hholds
    rcases getElem?_of_put hcell hfound with ⟨-, hchanged⟩ | ⟨-, hbefore⟩
    · cases hchanged
      cases hempty
    · exact ⟨at', hbefore⟩
  · rw [Distinct, names_put]
    exact hshelved.distinct

/-- A thread may start to compute in a vacant cell, and disturbs nobody by it. -/
theorem keeps_engage (hcell : shelf.cells[place]? = some ⟨name, .vacant⟩) :
    Keeps thread shelf (shelf.engage place thread) := by
  have hchanged : Keeps thread shelf (shelf.put place (.busy thread shelf.computed)) := by
    apply keeps_put hcell
    · trivial
    · intro other key hsame
      cases hsame
      rfl
  exact ⟨hchanged.places, hchanged.full, hchanged.busy⟩

/-- A cell in which a thread computes holds no layout yet, so the layouts are those before. -/
theorem Shelved.engage (hshelved : Shelved r shelf)
    (hcell : shelf.cells[place]? = some ⟨name, .vacant⟩) :
    Shelved r (shelf.engage place thread) := by
  have hkeeps : Keeps thread shelf (shelf.engage place thread) := keeps_engage hcell
  have hchanged := hshelved.put hcell ⟨hkeeps.places, hkeeps.full, hkeeps.busy⟩ rfl
  exact ⟨hchanged.distinct, hchanged.current, hchanged.recorded, hchanged.once, hchanged.rests⟩

/-- A thread may fill a cell that is open to it. From then on the cell is open to nobody. -/
theorem keeps_fill {old : CellState} (hcell : shelf.cells[place]? = some ⟨name, old⟩)
    (hmay : old.OpenTo thread) : Keeps thread shelf (shelf.fill place name kept) := by
  have hchanged : Keeps thread shelf (shelf.put place (.full kept)) := by
    apply keeps_put hcell hmay
    intro other key hsame
    cases hsame
  exact ⟨hchanged.places, hchanged.full, hchanged.busy⟩

theorem holds_fill {old : CellState} (hcell : shelf.cells[place]? = some ⟨name, old⟩) :
    (shelf.fill place name kept).Holds name kept :=
  ⟨place, getElem?_put_self hcell⟩

/-- Filling a cell with the layout that its class has. The layout has to rest on the one that is
held for the superclass, and its key for the superclass has to say so. -/
theorem Shelved.fill (hshelved : Shelved r shelf) {c : ClassSummary} {above : Option KeptLayout}
    {old : CellState} (hcell : shelf.cells[place]? = some ⟨name, old⟩) (hmay : old.OpenTo thread)
    (hlaidOut : r.LaidOut name kept.layout) (hknown : r.find? name = some c)
    (hrests : c.RestsOn shelf.Holds above) (hkey : kept.superKey = above.map (·.key)) :
    Shelved r (shelf.fill place name kept) := by
  have hkeeps : Keeps thread shelf (shelf.fill place name kept) := keeps_fill hcell hmay
  -- A layout of the class could only be in this cell, which the thread may change.
  have hvacant : ∀ layout, ¬ shelf.Holds name layout := by
    rintro layout ⟨at', hfound⟩
    rw [hshelved.distinct.place_unique hfound hcell, hcell] at hfound
    cases hfound
    exact hmay
  constructor
  case distinct =>
    change (List.map _ (shelf.put place (.full kept)).cells).Nodup
    rw [names_put]
    exact hshelved.distinct
  case current =>
    rintro other layout ⟨at', hfound⟩
    rcases getElem?_of_put hcell hfound with ⟨-, hchanged⟩ | ⟨-, hbefore⟩
    · cases hchanged
      exact hlaidOut
    -- Other cells have the layouts that they had.
    · exact hshelved.current other layout ⟨at', hbefore⟩
  case recorded =>
    intro other layout
    rw [LayoutShelf.fill, ← List.append_assoc, List.mem_append, List.mem_singleton,
      hshelved.recorded]
    constructor
    · intro hrecorded
      rcases hrecorded with hbefore | hnew
      · exact hkeeps.holds hbefore
      · cases hnew
        exact holds_fill hcell
    · rintro ⟨at', hfound⟩
      rcases getElem?_of_put hcell hfound with ⟨-, hchanged⟩ | ⟨-, hbefore⟩
      · cases hchanged
        exact .inr rfl
      · exact .inl ⟨at', hbefore⟩
  case once =>
    rw [LayoutShelf.fill, ← List.append_assoc, Keyed.names, List.map_append, List.map_singleton,
      ← List.concat_eq_append, List.nodup_concat]
    -- If the name were recorded already, the class would have had a full cell.
    refine ⟨fun hagain => ?_, hshelved.once⟩
    obtain ⟨entry, hmem, rfl⟩ := List.mem_map.mp hagain
    exact hvacant entry.2 ((hshelved.recorded entry.1 entry.2).mp hmem)
  case rests =>
    intro entry hmem
    rw [LayoutShelf.fill, List.mem_append, List.mem_singleton] at hmem
    rcases hmem with hbefore | rfl
    · obtain ⟨d, upper, hfound, hholds, hsame⟩ := hshelved.rests entry hbefore
      exact ⟨d, upper, hfound, hkeeps.restsOn hholds, hsame⟩
    · exact ⟨c, above, hknown, hkeeps.restsOn hrests, hkey⟩

/-! ## Keys -/

/-- The keys of created layouts, and those that are being used, are new and distinct. -/
structure Numbered (start : Nat) (shelf : LayoutShelf) : Prop where
  counted : start ≤ shelf.computed
  created : ∀ entry ∈ shelf.created, start ≤ entry.2.key ∧ entry.2.key < shelf.computed
  once : (shelf.created.map (·.2.key)).Nodup
  busy : ∀ (place : Nat) name thread key, shelf.cells[place]? = some ⟨name, .busy thread key⟩ →
    start ≤ key ∧ key < shelf.computed ∧ key ∉ shelf.created.map (·.2.key)
  apart : ∀ (place place' : Nat) name name' thread thread' key,
    shelf.cells[place]? = some ⟨name, .busy thread key⟩ →
    shelf.cells[place']? = some ⟨name', .busy thread' key⟩ → place = place'

variable {start : Nat}

/-- Computations that end without layout leave the keys as they are. -/
theorem Numbered.keep (hnumbered : Numbered start shelf)
    (hcomputed : shelf'.computed = shelf.computed) (hcreated : shelf'.created = shelf.created)
    (hold : ∀ (place : Nat) name thread key,
      shelf'.cells[place]? = some ⟨name, .busy thread key⟩ →
        shelf.cells[place]? = some ⟨name, .busy thread key⟩) :
    Numbered start shelf' where
  counted := by
    rw [hcomputed]
    exact hnumbered.counted
  created := by
    rw [hcomputed, hcreated]
    exact hnumbered.created
  once := by
    rw [hcreated]
    exact hnumbered.once
  busy place name thread key hcell := by
    rw [hcomputed, hcreated]
    exact hnumbered.busy place name thread key (hold place name thread key hcell)
  apart place place' name name' thread thread' key hcell hcell' :=
    hnumbered.apart place place' name name' thread thread' key
      (hold place name thread key hcell) (hold place' name' thread' key hcell')

theorem Numbered.reserve (hnumbered : Numbered start shelf) (name : String) :
    Numbered start (shelf.reserve name).2 := by
  apply hnumbered.keep (computed_reserve shelf name) (created_reserve shelf name)
  intro place other thread key hfound
  rcases getElem?_of_reserve hfound with hnew | hbefore
  · cases hnew
  · exact hbefore

/-- A computation that fails gives up its key, which nobody will use again since the count does not
go back. -/
theorem Numbered.vacate (hnumbered : Numbered start shelf) {old : CellState}
    (hcell : shelf.cells[place]? = some ⟨name, old⟩) :
    Numbered start (shelf.put place .vacant) := by
  refine hnumbered.keep rfl rfl ?_
  intro at' other thread key hfound
  rcases getElem?_of_put hcell hfound with ⟨-, hchanged⟩ | ⟨-, hbefore⟩
  · cases hchanged
  · exact hbefore

/-- Starting a computation takes the next key, which is larger than all keys in use. -/
theorem Numbered.engage (hnumbered : Numbered start shelf) {old : CellState}
    (hcell : shelf.cells[place]? = some ⟨name, old⟩) :
    Numbered start (shelf.engage place thread) where
  counted := Nat.le_succ_of_le hnumbered.counted
  created entry hmem := by
    have hbounds := hnumbered.created entry hmem
    exact ⟨hbounds.1, Nat.lt_succ_of_lt hbounds.2⟩
  once := hnumbered.once
  busy at' other owner key hfound := by
    rcases getElem?_of_put hcell hfound with ⟨-, hchanged⟩ | ⟨-, hbefore⟩
    · cases hchanged
      -- The key is the number of computations so far, and all created layouts have smaller ones.
      refine ⟨hnumbered.counted, Nat.lt_succ_self _, fun hused => ?_⟩
      obtain ⟨entry, hmem, hsame⟩ := List.mem_map.mp hused
      exact absurd (hnumbered.created entry hmem).2 (by omega)
    · obtain ⟨hlow, hhigh, hunused⟩ := hnumbered.busy at' other owner key hbefore
      exact ⟨hlow, Nat.lt_succ_of_lt hhigh, hunused⟩
  -- Two cells with one key: both are the new one, or one is and has a key too large for the other,
  -- or neither is.
  apart at' at'' other other' owner owner' key hfound hfound' := by
    rcases getElem?_of_put hcell hfound with ⟨hsame, hchanged⟩ | ⟨-, hbefore⟩
    · rcases getElem?_of_put hcell hfound' with ⟨hsame', -⟩ | ⟨-, hbefore'⟩
      · exact hsame.symm.trans hsame'
      · cases hchanged
        exact absurd (hnumbered.busy _ _ _ _ hbefore').2.1 (by omega)
    · rcases getElem?_of_put hcell hfound' with ⟨-, hchanged⟩ | ⟨-, hbefore'⟩
      · cases hchanged
        exact absurd (hnumbered.busy _ _ _ _ hbefore).2.1 (by omega)
      · exact hnumbered.apart _ _ _ _ _ _ _ hbefore hbefore'

/-- Filling a cell moves its key from those in use to those of created layouts. -/
theorem Numbered.fill (hnumbered : Numbered start shelf)
    (hcell : shelf.cells[place]? = some ⟨name, .busy thread kept.key⟩) :
    Numbered start (shelf.fill place name kept) := by
  obtain ⟨hlow, hhigh, hunused⟩ := hnumbered.busy place name thread kept.key hcell
  constructor
  case counted => exact hnumbered.counted
  case created =>
    intro entry hmem
    rcases List.mem_append.mp hmem with hbefore | hnew
    · exact hnumbered.created entry hbefore
    · obtain rfl := List.mem_singleton.mp hnew
      exact ⟨hlow, hhigh⟩
  case once =>
    rw [LayoutShelf.fill, List.map_append, List.map_singleton, ← List.concat_eq_append,
      List.nodup_concat]
    exact ⟨hunused, hnumbered.once⟩
  case busy =>
    intro at' other owner key hfound
    rcases getElem?_of_put hcell hfound with ⟨-, hchanged⟩ | ⟨hdiffers, hbefore⟩
    · cases hchanged
    · obtain ⟨hlow', high', hunused'⟩ := hnumbered.busy at' other owner key hbefore
      refine ⟨hlow', high', ?_⟩
      rw [LayoutShelf.fill, List.map_append, List.map_singleton, List.mem_append,
        List.mem_singleton]
      rintro (hused | rfl)
      · exact hunused' hused
      · -- The key of the new layout was in use in its own cell only.
        exact hdiffers (hnumbered.apart _ _ _ _ _ _ _ hcell hbefore)
  case apart =>
    intro at' at'' other other' owner owner' key hfound hfound'
    rcases getElem?_of_put hcell hfound with ⟨-, hchanged⟩ | ⟨-, hbefore⟩
    · cases hchanged
    · rcases getElem?_of_put hcell hfound' with ⟨-, hchanged⟩ | ⟨-, hbefore'⟩
      · cases hchanged
      · exact hnumbered.apart _ _ _ _ _ _ _ hbefore hbefore'

/-! ## The shelf of a registry -/

/-- No thread computes. -/
def Settled (shelf : LayoutShelf) : Prop :=
  ∀ (place : Nat) name thread key, shelf.cells[place]? ≠ some ⟨name, .busy thread key⟩

theorem Settled.reserve (hsettled : shelf.Settled) (name : String) :
    (shelf.reserve name).2.Settled := by
  intro place other thread key hfound
  rcases getElem?_of_reserve hfound with hnew | hbefore
  · cases hnew
  · exact hsettled place other thread key hbefore

/-- The cells that a session begins with hold the layouts that the registry has kept, each under the
name of its class. -/
theorem shelved_of_kept (hsound : r.Sound) (count : Nat) :
    Shelved r { cells := r.kept.map fun entry => ⟨entry.1, .full entry.2⟩, computed := count } := by
  -- The cells and the kept layouts are the same list in two forms.
  have hholds : ∀ name kept, (name, kept) ∈ r.kept ↔
      Holds { cells := r.kept.map fun entry => ⟨entry.1, .full entry.2⟩, computed := count }
        name kept := by
    intro name kept
    rw [Holds, ← List.mem_iff_getElem?]
    simp
  constructor
  case distinct => simpa [Distinct, Function.comp_def, Keyed.names] using hsound.once
  case current =>
    intro name kept hfull
    have hmem := (hholds name kept).mpr hfull
    exact hsound.current name kept (Keyed.lookup_of_mem hsound.once hmem)
  case recorded => simpa using hholds
  case once => simpa using hsound.once
  case rests => simp

/-- A session begins with the layouts of its registry and with nobody at work. -/
theorem shelved_ofRegistry (hsound : r.Sound) (vacant : List String) :
    Shelved r (ofRegistry r vacant) ∧ Numbered r.computed (ofRegistry r vacant) ∧
      (ofRegistry r vacant).Settled := by
  rw [ofRegistry]
  have hsettled : Settled
      { cells := r.kept.map fun entry => ⟨entry.1, .full entry.2⟩, computed := r.computed } := by
    -- All of these cells are full.
    intro place name thread key hfound
    simp at hfound
  have hnumbered : Numbered r.computed
      { cells := r.kept.map fun entry => ⟨entry.1, .full entry.2⟩, computed := r.computed } :=
    ⟨Nat.le_refl _, by simp, List.nodup_nil,
      fun place name thread key hfound => absurd hfound (hsettled place name thread key),
      fun place _ name _ thread _ key hfound => absurd hfound (hsettled place name thread key)⟩
  have hshelved := shelved_of_kept hsound r.computed
  -- Each vacant cell is made by a reservation, as a thread would make it.
  generalize LayoutShelf.mk _ r.computed [] = shelf at hsettled hnumbered hshelved
  induction vacant generalizing shelf with
  | nil => exact ⟨hshelved, hnumbered, hsettled⟩
  | cons name rest ih =>
    exact ih _ (hsettled.reserve name) (hnumbered.reserve name) (hshelved.reserve name)

end LayoutShelf

end Lowering
