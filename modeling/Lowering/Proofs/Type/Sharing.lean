import Mathlib.Data.List.Dedup
import Mathlib.Data.List.Nodup
import Lowering.Type.Session

/-!
# One copy of every type

However the threads of a session interleave, the table never holds a type twice, and
every request is answered by the one copy of its type. The window between a thread's
two looks is harmless because the second look and the storing are one turn: a thread
that comes second finds the copy of the first.

`TypeTable.intern_cases` says what one request does to a table. From it follows what
one turn keeps (`Canonical.step`), and from that what every interleaving keeps.

Main statement: `TypeSession.copies_of_play`.
-/

namespace Lowering

/-! ## Requests to a table -/

namespace TypeTable

variable {table : TypeTable} {t : Ty}

/-- A type that is found is held in the slot that is named. -/
theorem find?_eq_some {stored : StoredType} (h : table.find? t = some stored) :
    stored.type = t ∧ table.entries[stored.slot]? = some t := by
  obtain ⟨slot, hslot, rfl⟩ := Option.map_eq_some_iff.mp h
  obtain ⟨hlt, heq, _⟩ := List.idxOf?_eq_some_iff.mp hslot
  refine ⟨rfl, ?_⟩
  rw [List.getElem?_eq_getElem hlt]
  simpa using heq

theorem find?_eq_none (h : table.find? t = none) : t ∉ table.entries := by
  have hnone : table.entries.idxOf? t = none := Option.map_eq_none_iff.mp h
  simpa [List.idxOf?_eq_none_iff] using hnone

/-- What a request does: the table has a copy and stays as it is, or the type is new
and gets the next slot. -/
theorem intern_cases (table : TypeTable) (t : Ty) :
    (∃ stored, table.find? t = some stored ∧ table.intern t = (stored, table)) ∨
      (t ∉ table.entries ∧
        table.intern t = (⟨table.size, t⟩, { entries := table.entries ++ [t] })) := by
  cases hfind : table.find? t with
  | some stored =>
    left
    exact ⟨stored, rfl, by simp [intern, hfind]⟩
  -- The next slot is the one after all that are in use.
  | none =>
    right
    exact ⟨find?_eq_none hfind, by simp [intern, hfind]⟩

theorem nodup_intern (h : table.entries.Nodup) (t : Ty) : (table.intern t).2.entries.Nodup := by
  rcases intern_cases table t with ⟨stored, _, heq⟩ | ⟨hnew, heq⟩
  · rw [heq]
    exact h
  · rw [heq]
    -- The type was not in the table, so it differs from all that are.
    simpa [List.nodup_append] using ⟨h, fun u hu => ne_of_mem_of_not_mem hu hnew⟩

theorem nodup_internAll (h : table.entries.Nodup) (types : List Ty) :
    (table.internAll types).entries.Nodup := by
  induction types generalizing table with
  | nil => exact h
  | cons t types ih => exact ih (nodup_intern h t)

theorem mem_intern {u : Ty} : u ∈ (table.intern t).2.entries ↔ u ∈ table.entries ∨ u = t := by
  rcases intern_cases table t with ⟨stored, hfind, heq⟩ | ⟨_, heq⟩
  · -- The type was there already, so the right side adds nothing.
    have hmem : t ∈ table.entries := List.mem_of_getElem? (find?_eq_some hfind).2
    rw [heq]
    constructor
    · exact Or.inl
    · rintro (hu | rfl)
      · exact hu
      · exact hmem
  · rw [heq]
    simp

/-- The answer names the slot that holds the type afterwards. -/
theorem intern_stored (table : TypeTable) (t : Ty) :
    (table.intern t).1.type = t ∧
      (table.intern t).2.entries[(table.intern t).1.slot]? = some t := by
  rcases intern_cases table t with ⟨stored, hfind, heq⟩ | ⟨_, heq⟩
  · rw [heq]
    exact find?_eq_some hfind
  · rw [heq]
    simp [size]

/-- Slots stay valid. -/
theorem getElem?_intern {slot : Nat} {u : Ty} (h : table.entries[slot]? = some u) :
    (table.intern t).2.entries[slot]? = some u := by
  rcases intern_cases table t with ⟨stored, _, heq⟩ | ⟨_, heq⟩
  · rw [heq]
    exact h
  · rw [heq]
    obtain ⟨hlt, _⟩ := List.getElem?_eq_some_iff.mp h
    exact (List.getElem?_append_left hlt).trans h

end TypeTable

/-- Every request comes down to storing the type that it looks up. -/
theorem TypeRequest.serve_eq (request : TypeRequest) (table : TypeTable) :
    request.serve table = table.intern request.type := by
  cases request <;> rfl

/-! ## Turns -/

namespace TypeSession

/-- What holds of a session that has begun with the given types in its table. -/
structure Canonical (start : List Ty) (session : TypeSession) : Prop where
  /-- The table holds no type twice. -/
  distinct : session.table.entries.Nodup
  /-- It holds the types that it began with and those of the answered requests. -/
  contents : ∀ t, t ∈ session.table.entries ↔
    t ∈ start ++ session.answers.map (·.request.type)
  /-- Every answer is a copy of the type asked for, held in the slot that it names. -/
  held : ∀ a ∈ session.answers, a.stored.type = a.request.type ∧
    session.table.entries[a.stored.slot]? = some a.request.type

theorem canonical_start {table : TypeTable} (h : table.entries.Nodup) :
    Canonical table.entries { table } where
  distinct := h
  contents t := by simp
  held := by simp

/-- A turn either answers a request, as the table alone would do, or answers nothing
and leaves the table as it is. -/
theorem step_cases {session session' : TypeSession} {turn : TypeTurn}
    (h : session.step turn = some session') :
    (∃ request, session'.table = (session.table.intern request.type).2 ∧
      session'.answers =
        session.answers ++ [⟨request, (session.table.intern request.type).1⟩]) ∨
    (session'.table = session.table ∧ session'.answers = session.answers) := by
  cases turn with
  | lookUp thread request =>
    simp only [step] at h
    split at h
    -- A thread that waits cannot look up another type.
    · cases h
    · split at h
      · rename_i stored hfind
        cases h
        -- A copy was found, and storing the type would have changed nothing.
        have hintern : session.table.intern request.type = (stored, session.table) := by
          simp [TypeTable.intern, hfind]
        exact .inl ⟨request, by rw [hintern], by rw [hintern]⟩
      · cases h
        exact .inr ⟨rfl, rfl⟩
  | store thread =>
    simp only [step] at h
    split at h
    · cases h
    · rename_i request _
      cases h
      rw [TypeRequest.serve_eq]
      exact .inl ⟨request, rfl, rfl⟩

/-- Every turn keeps the table canonical. -/
theorem Canonical.step {start : List Ty} {session session' : TypeSession} {turn : TypeTurn}
    (hs : Canonical start session) (h : session.step turn = some session') :
    Canonical start session' := by
  rcases step_cases h with ⟨request, htable, hanswers⟩ | ⟨htable, hanswers⟩
  · constructor
    case distinct =>
      rw [htable]
      exact TypeTable.nodup_intern hs.distinct request.type
    case contents =>
      intro t
      rw [htable, hanswers, TypeTable.mem_intern, hs.contents]
      simp [or_assoc]
    case held =>
      intro a ha
      rw [hanswers] at ha
      rw [htable]
      -- Earlier answers keep their slots, and the new one has just been stored.
      rcases List.mem_append.mp ha with ha | ha
      · obtain ⟨htype, hslot⟩ := hs.held a ha
        exact ⟨htype, TypeTable.getElem?_intern hslot⟩
      · obtain rfl := List.mem_singleton.mp ha
        exact TypeTable.intern_stored session.table request.type
  · constructor
    · rw [htable]
      exact hs.distinct
    · rw [htable, hanswers]
      exact hs.contents
    · rw [htable, hanswers]
      exact hs.held

theorem canonical_of_play {table : TypeTable} (h : table.entries.Nodup) {turns : List TypeTurn}
    {session : TypeSession} (hplay : play step { table } turns = some session) :
    Canonical table.entries session :=
  invariant_of_play (fun _ _ _ hs hstep => Canonical.step hs hstep) hplay (canonical_start h)

/-! ## What the answers share -/

/-- Answers share a slot exactly if they are of one type. -/
theorem Canonical.slot_eq_iff {start : List Ty} {session : TypeSession}
    (hs : Canonical start session) {a b : TypeAnswer} (ha : a ∈ session.answers)
    (hb : b ∈ session.answers) : a.stored.slot = b.stored.slot ↔ a.stored.type = b.stored.type := by
  obtain ⟨hatype, haslot⟩ := hs.held a ha
  obtain ⟨hbtype, hbslot⟩ := hs.held b hb
  rw [hatype, hbtype]
  constructor
  -- A slot holds one type.
  · intro hslot
    rw [hslot, hbslot] at haslot
    exact (Option.some.inj haslot).symm
  · intro htype
    -- The table holds the type in one slot only.
    rw [← htype, ← haslot] at hbslot
    obtain ⟨hlt, _⟩ := List.getElem?_eq_some_iff.mp haslot
    exact (List.getElem?_inj hlt hs.distinct).mp hbslot.symm

/-- The table counts the types that it has been asked for, each once. -/
theorem Canonical.size_eq {start : List Ty} {session : TypeSession}
    (hs : Canonical start session) :
    session.table.size = (start ++ session.answers.map (·.request.type)).dedup.length := by
  -- Two lists without repetition and with the same members are of one length.
  apply List.Perm.length_eq
  apply (List.perm_ext_iff_of_nodup hs.distinct (List.nodup_dedup _)).mpr
  intro t
  rw [List.mem_dedup]
  exact hs.contents t

/-- A call that has begun can go on at every moment, and its next turn ends it. -/
theorem exists_step_of_waiting {session : TypeSession} {thread : Nat} {request : TypeRequest}
    (h : session.waiting thread = some request) :
    ∃ session' stored, session.step (.store thread) = some session' ∧
      session'.waiting thread = none ∧
      session'.answers = session.answers ++ [⟨request, stored⟩] := by
  simp [step, h, waitingWith]

/-- However threads interleave their requests to a table that was new or held the
types of a new compilation: each answer is the type asked for and is held where the
answer says, the table holds no type twice, two answers share their storage exactly if
they are equal, the size of the table is the number of different types asked for so
far, and a request that waits can always be answered. -/
theorem copies_of_play {table : TypeTable} (htable : table = .standard ∨ table = .empty)
    {turns : List TypeTurn} {session : TypeSession}
    (hplay : play step { table } turns = some session) :
    (∀ a ∈ session.answers, a.stored.type = a.request.type ∧
        session.table.entries[a.stored.slot]? = some a.request.type) ∧
      session.table.entries.Nodup ∧
      (∀ a ∈ session.answers, ∀ b ∈ session.answers,
        a.stored.slot = b.stored.slot ↔ a.stored.type = b.stored.type) ∧
      session.table.size =
        (table.entries ++ session.answers.map (·.request.type)).dedup.length ∧
      ∀ thread request, session.waiting thread = some request →
        ∃ session' stored, session.step (.store thread) = some session' ∧
          session'.answers = session.answers ++ [⟨request, stored⟩] := by
  -- The table of a new compilation has been filled by requests, so it holds no type twice.
  have hnodup : table.entries.Nodup := by
    rcases htable with rfl | rfl
    · exact TypeTable.nodup_internAll List.nodup_nil TypeTable.preloaded
    · exact List.nodup_nil
  have hs := canonical_of_play hnodup hplay
  refine ⟨hs.held, hs.distinct, fun a ha b hb => hs.slot_eq_iff ha hb,
    hs.size_eq, fun thread request hwaiting => ?_⟩
  obtain ⟨session', stored, hstep, _, hanswers⟩ := exists_step_of_waiting hwaiting
  exact ⟨session', stored, hstep, hanswers⟩

/-- Two threads that both look for a new class before either has stored it. -/
def race : List TypeTurn :=
  [.lookUp 0 (.classNamed "p.A"), .lookUp 1 (.nullable (.classNamed "p.A")), .store 1, .store 0]

/-- The second thread of the race is given the copy of the first. -/
theorem copies_of_race :
    ∃ session, play step { table := .standard } race = some session ∧
      session.answers.map (·.stored.slot) = [8, 8] ∧ session.table.entries.Nodup ∧
      session.table.size = (TypeTable.standard.entries ++
        session.answers.map (·.request.type)).dedup.length := by
  refine ⟨_, rfl, by decide, ?_⟩
  have hcopies := copies_of_play (.inl rfl) (show play step _ race = some _ from rfl)
  exact ⟨hcopies.2.1, hcopies.2.2.2.1⟩

end TypeSession

end Lowering
