import Lowering.Proofs.Layout.Query
import Lowering.Proofs.Layout.Session

/-!
# One layout of every class

However threads interleave their queries, every query is answered as if it were the
only one, all queries of a class get one and the same layout, and no class gets a
second one. The window between a thread's look and the making of the layout is
harmless because the layout is made in the cell of the class: a thread that comes to
the cell second takes the layout of the first.

What one turn keeps (`Coherent.step`) follows from what one move of a query does, and
from that what every interleaving keeps. A query that waits for another thread does not
wait for ever: the other one can always leave the cell (`Coherent.exists_move`), and each
move brings the query nearer to its answer (`Coherent.exists_answer`).

Main statement: `LayoutSession.answers_of_play`.
-/

namespace Lowering.LayoutSession

variable {r : LayoutRegistry} {session session' : LayoutSession} {thread : Nat}

/-! ## Turns -/

theorem queries_afterAsk (name : String) :
    (session.afterAsk thread name).queries thread = some (.start name) := by
  simp [afterAsk, queriesWith]

theorem queries_afterAsk_of_ne {other : Nat} (hothers : other ≠ thread) (name : String) :
    (session.afterAsk thread name).queries other = session.queries other := by
  simp [afterAsk, queriesWith, hothers]

theorem queries_afterMove (asked : String) (moved : QueryProgress × LayoutShelf) :
    (session.afterMove thread asked moved).queries thread = moved.1.query? := by
  simp [afterMove, queriesWith]

theorem queries_afterMove_of_ne {other : Nat} (hothers : other ≠ thread) (asked : String)
    (moved : QueryProgress × LayoutShelf) :
    (session.afterMove thread asked moved).queries other = session.queries other := by
  simp [afterMove, queriesWith, hothers]

/-- What a turn does: a thread without query begins one, or a thread makes the next move
of its query. -/
theorem step_cases {turn : LayoutTurn} (htaken : session.step r turn = some session') :
    (∃ thread name, session.queries thread = none ∧ session' = session.afterAsk thread name) ∨
    ∃ thread query moved, session.queries thread = some query ∧
      query.move r thread session.shelf = some moved ∧
      session' = session.afterMove thread query.asked moved := by
  cases turn with
  | ask thread name =>
    simp only [step] at htaken
    cases hidle : session.queries thread with
    -- A thread has one query at a time.
    | some query => simp [hidle] at htaken
    | none =>
      simp only [hidle, Option.some.injEq] at htaken
      exact .inl ⟨thread, name, hidle, htaken.symm⟩
  | move thread =>
    simp only [step] at htaken
    cases hbusy : session.queries thread with
    | none => simp [hbusy] at htaken
    | some query =>
      simp only [hbusy] at htaken
      obtain ⟨moved, hmade, rfl⟩ := Option.map_eq_some_iff.mp htaken
      exact .inr ⟨thread, query, moved, hbusy, hmade, rfl⟩

theorem step_move {query : LayoutQuery} {moved : QueryProgress × LayoutShelf}
    (hbusy : session.queries thread = some query)
    (hmade : query.move r thread session.shelf = some moved) :
    session.step r (.move thread) = some (session.afterMove thread query.asked moved) := by
  simp [step, hbusy, hmade]

/-! ## What turns keep -/

/-- What holds of a session that has begun with the layouts of a registry. -/
structure Coherent (r : LayoutRegistry) (session : LayoutSession) : Prop where
  shelved : session.shelf.Shelved r
  numbered : session.shelf.Numbered r.computed
  follows : ∀ thread query, session.queries thread = some query →
    query.Follows r session.shelf thread
  engages : ∀ thread, session.shelf.Engages thread ((session.queries thread).map (·.phase))
  answered : ∀ a ∈ session.answers, session.shelf.Answers r a.name a.result

/-- A session begins with no query, no answer and nobody at work. -/
theorem coherent_opened (hsound : r.Sound) (vacant : List String) :
    Coherent r (opened r vacant) := by
  obtain ⟨hshelved, hnumbered, hsettled⟩ := LayoutShelf.shelved_ofRegistry hsound vacant
  exact ⟨hshelved, hnumbered, by simp [opened],
    fun thread place name key hfound => absurd hfound (hsettled place name thread key),
    by simp [opened]⟩

theorem Coherent.advances (hsound : r.Sound) (hcoherent : Coherent r session) {query : LayoutQuery}
    {moved : QueryProgress × LayoutShelf} (hbusy : session.queries thread = some query)
    (hmade : query.move r thread session.shelf = some moved) :
    query.Advances r session.shelf thread moved.1 moved.2 := by
  have hengages := hcoherent.engages thread
  -- The thread computes at most in the cell of its own phase.
  rw [hbusy] at hengages
  exact (hcoherent.follows thread query hbusy).move hsound hcoherent.shelved hcoherent.numbered
    hengages hmade

/-- A thread without query computes nowhere, so it may begin one. -/
theorem Coherent.afterAsk (hcoherent : Coherent r session) (hidle : session.queries thread = none)
    (name : String) : Coherent r (session.afterAsk thread name) := by
  refine ⟨hcoherent.shelved, hcoherent.numbered, ?_, ?_, hcoherent.answered⟩
  · intro other next hqueried
    by_cases hsame : other = thread
    · subst hsame
      cases (queries_afterAsk name).symm.trans hqueried
      -- A new query stands at the name that it asks for.
      exact ⟨.here name, List.nodup_nil, trivial⟩
    · rw [queries_afterAsk_of_ne hsame] at hqueried
      exact hcoherent.follows other next hqueried
  · intro other
    by_cases hsame : other = thread
    · subst hsame
      -- Without a query the thread has no phase in which it could compute.
      have hnowhere := hcoherent.engages other
      rw [hidle] at hnowhere
      intro place own key hfound
      obtain ⟨c, above, hphase⟩ := hnowhere place own key hfound
      cases hphase
    · rw [queries_afterAsk_of_ne hsame]
      exact hcoherent.engages other

/-- A move of one thread leaves the queries of the others where they stand. -/
theorem Coherent.afterMove (hcoherent : Coherent r session) {query : LayoutQuery}
    {moved : QueryProgress × LayoutShelf}
    (hadvances : query.Advances r session.shelf thread moved.1 moved.2) :
    Coherent r (session.afterMove thread query.asked moved) := by
  obtain ⟨progress, shelf⟩ := moved
  constructor
  case shelved => exact hadvances.shelved
  case numbered => exact hadvances.numbered
  case follows =>
    intro other next hqueried
    by_cases hsame : other = thread
    · subst hsame
      rw [queries_afterMove] at hqueried
      -- The moving thread goes on with its query or has none any more.
      cases progress with
      | going query' =>
        cases hqueried
        exact hadvances.good.2
      | answered result => cases hqueried
    · rw [queries_afterMove_of_ne hsame] at hqueried
      -- Other queries rely only on what every thread leaves as it is.
      exact (hcoherent.follows other next hqueried).keep hadvances.keeps hsame
  case engages =>
    intro other
    by_cases hsame : other = thread
    · subst hsame
      rw [queries_afterMove]
      exact hadvances.engages
    · rw [queries_afterMove_of_ne hsame]
      -- The move has not touched the cells in which other threads compute.
      intro place name key hfound
      exact hcoherent.engages other place name key
        ((hadvances.keeps.busy place name other key hsame).mp hfound)
  case answered =>
    intro a hmem
    -- Earlier answers stay right, because full cells stay full.
    rcases List.mem_append.mp hmem with hbefore | hnew
    · exact (hcoherent.answered a hbefore).keep hadvances.keeps
    · cases progress with
      | going query' => cases hnew
      | answered result =>
        obtain rfl := List.mem_singleton.mp hnew
        exact hadvances.good

/-- Every turn keeps a session coherent. -/
theorem Coherent.step (hsound : r.Sound) (hcoherent : Coherent r session) {turn : LayoutTurn}
    (htaken : session.step r turn = some session') : Coherent r session' := by
  rcases step_cases htaken with
    ⟨thread, name, hidle, rfl⟩ | ⟨thread, query, moved, hbusy, hmade, rfl⟩
  · exact hcoherent.afterAsk hidle name
  · exact hcoherent.afterMove (hcoherent.advances hsound hbusy hmade)

/-- Whatever turns the threads take, the session stays coherent. -/
theorem coherent_of_play (hsound : r.Sound) {vacant : List String} {turns : List LayoutTurn}
    (hplayed : play (step r) (opened r vacant) turns = some session) : Coherent r session :=
  invariant_of_play (fun _ _ _ hcoherent htaken => Coherent.step hsound hcoherent htaken) hplayed
    (coherent_opened hsound vacant)

/-! ## Waiting -/

/-- A thread that is not about to enter a cell can move, and one that is can enter the
cell if nobody computes there. -/
theorem exists_move_of_free {shelf : LayoutShelf} (r : LayoutRegistry) (thread : Nat)
    (query : LayoutQuery) (hfree : ∀ c above place, query.phase = .entering c above place →
      ∃ name state, shelf.cells[place]? = some ⟨name, state⟩ ∧
        ∀ other key, state ≠ .busy other key) :
    ∃ moved, query.move r thread shelf = some moved := by
  -- Entering a cell is the only move that may have to wait.
  cases hphase : query.phase with
  | looking name => simp [LayoutQuery.move, hphase]
  | climbing name => simp [LayoutQuery.move, hphase]
  | reserving c above => simp [LayoutQuery.move, hphase]
  | computing c above place key => simp [LayoutQuery.move, hphase]
  | entering c above place =>
    obtain ⟨name, state, hcell, hidle⟩ := hfree c above place hphase
    cases state with
    | vacant => simp [LayoutQuery.move, hphase, LayoutQuery.enter, hcell]
    | busy other key => exact absurd rfl (hidle other key)
    | full kept => simp [LayoutQuery.move, hphase, LayoutQuery.enter, hcell]

/-- A thread that ends its computation leaves the cell, whether it succeeds or fails. -/
theorem exists_free_of_finish {shelf : LayoutShelf} {place : Nat} {name : String} {old : CellState}
    (hcell : shelf.cells[place]? = some ⟨name, old⟩) (query : LayoutQuery) (c : ClassSummary)
    (above : Option KeptLayout) (key : Nat) :
    ∃ state, (query.finish shelf c above place key).2.cells[place]? = some ⟨name, state⟩ ∧
      ∀ other key', state ≠ .busy other key' := by
  rw [LayoutQuery.finish]
  cases TypeLayout.create c (above.map (·.layout)) with
  | error e => exact ⟨_, LayoutShelf.getElem?_put_self hcell, by simp⟩
  | ok layout => exact ⟨_, LayoutShelf.getElem?_put_self hcell, by simp⟩

/-- A query can go on, if not now, then after the thread that it waits for has moved. -/
theorem Coherent.exists_move (hcoherent : Coherent r session) {query : LayoutQuery}
    (hbusy : session.queries thread = some query) :
    ∃ turns session' moved, play (LayoutSession.step r) session turns = some session' ∧
      session'.queries thread = some query ∧ query.move r thread session'.shelf = some moved := by
  by_cases hblocked : ∃ c above place name other key, query.phase = .entering c above place ∧
      session.shelf.cells[place]? = some ⟨name, .busy other key⟩
  · -- The thread in the cell ends its computation first.
    obtain ⟨c, above, place, name, other, key, hphase, hcell⟩ := hblocked
    obtain ⟨d, upper, hinside⟩ := hcoherent.engages other place name key hcell
    obtain ⟨query', hbusy', hphase'⟩ := Option.map_eq_some_iff.mp hinside
    -- A thread does not wait for itself, since it has one phase at a time.
    have hothers : thread ≠ other := by
      rintro rfl
      cases hbusy.symm.trans hbusy'
      cases hphase.symm.trans hphase'
    have hmade : query'.move r other session.shelf =
        some (query'.finish session.shelf d upper place key) := by
      simp only [LayoutQuery.move, hphase']
    -- The cell is full or vacant now, and in both cases the waiting thread can enter.
    have hfree := exists_free_of_finish hcell query' d upper key
    obtain ⟨moved, hnext⟩ := exists_move_of_free r thread query fun c' above' place' hsame => by
      cases hphase.symm.trans hsame
      exact ⟨name, hfree⟩
    refine ⟨[.move other], _, moved,
      play_cons_eq_some.mpr ⟨_, step_move hbusy' hmade, rfl⟩, ?_, hnext⟩
    rw [queries_afterMove_of_ne hothers]
    exact hbusy
  · obtain ⟨moved, hnext⟩ := exists_move_of_free r thread query fun c above place hphase => by
      have hready := (hcoherent.follows thread query hbusy).ready
      rw [hphase] at hready
      obtain ⟨-, -, state, hcell⟩ := hready
      refine ⟨_, state, hcell, ?_⟩
      rintro other key rfl
      exact hblocked ⟨c, above, place, _, other, key, hphase, hcell⟩
    exact ⟨[], session, moved, rfl, hbusy, hnext⟩

/-- An open query is answered after some further turns. -/
theorem Coherent.exists_answer (hsound : r.Sound) (hcoherent : Coherent r session)
    {query : LayoutQuery} (hbusy : session.queries thread = some query) :
    ∃ turns session' result, play (LayoutSession.step r) session turns = some session' ∧
      ⟨thread, query.asked, result⟩ ∈ session'.answers := by
  -- Each move of the thread makes its query lighter; those of other threads leave it as it is.
  induction hweight : query.weight r using Nat.strongRecOn generalizing session query with
  | ind n ih =>
    subst hweight
    obtain ⟨before, session₁, ⟨progress, shelf⟩, hplayed, hwaiting, hmade⟩ :=
      hcoherent.exists_move hbusy
    -- The turns of other threads in between keep the session coherent.
    have hcoherent₁ : Coherent r session₁ := invariant_of_play
      (fun _ _ _ hcoherent htaken => Coherent.step hsound hcoherent htaken) hplayed hcoherent
    have hadvances := hcoherent₁.advances hsound hwaiting hmade
    have hturn := step_move hwaiting hmade
    cases progress with
    | answered result =>
      refine ⟨before ++ [.move thread], _, result, play_append_eq_some.mpr
        ⟨session₁, hplayed, play_cons_eq_some.mpr ⟨_, hturn, rfl⟩⟩, ?_⟩
      exact List.mem_append_right _ List.mem_cons_self
    | going next =>
      obtain ⟨after, session', result, hfurther, hanswered⟩ := ih (next.weight r)
        (hadvances.lighter next rfl) (hcoherent₁.afterMove hadvances) (queries_afterMove _ _) rfl
      rw [hadvances.good.1] at hanswered
      refine ⟨before ++ .move thread :: after, session', result, ?_, hanswered⟩
      exact play_append_eq_some.mpr ⟨session₁, hplayed, play_cons_eq_some.mpr ⟨_, hturn, hfurther⟩⟩

/-! ## What the threads share -/

/-- However threads interleave their queries of the registry that a session has left, with
vacant cells of classes that could not be laid out: each query is answered as it would be
alone, layout or error, and all queries of a class are answered alike, by one and the
same layout. That layout was kept before or has been created by one of the threads, and
no class has got two. Created layouts have new keys, each its own, and rest on the one
layout of the superclass. A query that is open can always be answered. -/
theorem answers_of_play (requests : List LayoutRegistry.Request) (vacant : List String)
    {turns : List LayoutTurn} {session : LayoutSession}
    (hplayed : play (step (.after requests)) (opened (.after requests) vacant) turns =
      some session) :
    (∀ a ∈ session.answers, a.result.map (·.layout) =
        ((LayoutRegistry.after requests).layoutOf a.name).1.result.map (·.layout)) ∧
      (∀ a ∈ session.answers, ∀ b ∈ session.answers, a.name = b.name → a.result = b.result) ∧
      (∀ a ∈ session.answers, ∀ kept, a.result = .ok kept →
        (a.name, kept) ∈ (LayoutRegistry.after requests).kept ++ session.shelf.created) ∧
      (Keyed.names ((LayoutRegistry.after requests).kept ++ session.shelf.created)).Nodup ∧
      (session.shelf.created.map (·.2.key)).Nodup ∧
      (∀ entry ∈ session.shelf.created, (LayoutRegistry.after requests).computed ≤ entry.2.key ∧
        ∃ c above, (LayoutRegistry.after requests).find? entry.1 = some c ∧
          c.RestsOn session.shelf.Holds above ∧ entry.2.superKey = above.map (·.key)) ∧
      ∀ thread query, session.queries thread = some query →
        ∃ further session' result,
          play (step (.after requests)) session further = some session' ∧
          ⟨thread, query.asked, result⟩ ∈ session'.answers := by
  have hsound := LayoutRegistry.sound_after requests
  have hcoherent := coherent_of_play hsound hplayed
  have hshelved := hcoherent.shelved
  refine ⟨fun a hmem => (hcoherent.answered a hmem).alone, ?_, ?_, hshelved.once,
    hcoherent.numbered.once, ?_, fun thread query hbusy => hcoherent.exists_answer hsound hbusy⟩
  · intro a hfirst b hsecond hsame
    -- Both are answers to queries of one name, of which there is one only.
    have hanswered := hcoherent.answered b hsecond
    rw [← hsame] at hanswered
    exact (hcoherent.answered a hfirst).unique hshelved.distinct hanswered
  · intro a hmem kept hanswered
    exact (hshelved.recorded a.name kept).mpr ((hcoherent.answered a hmem).held kept hanswered)
  · intro entry hmem
    exact ⟨(hcoherent.numbered.created entry hmem).1, hshelved.rests entry hmem⟩

/-- Two threads query one class. Both find no layout of it or of its superclass; one lays
out the superclass, the other takes it from there and lays out the class. -/
def circleRace : List LayoutTurn :=
  [.ask 0 "app.Circle", .ask 1 "app.Circle", .move 0, .move 1, .move 0, .move 1, .move 0, .move 1,
    .move 0, .move 1, .move 0, .move 1, .move 0, .move 0, .move 1, .move 1, .move 1, .move 0,
    .move 1, .move 0]

/-- A class and its superclass, registered and not yet laid out. -/
def circleRequests : List LayoutRegistry.Request :=
  [.register TypeLayout.shape, .register TypeLayout.circle]

/-- The threads of the race are given one layout of the class, on one of its superclass. -/
theorem answers_of_circleRace :
    ∃ session, play (step (.after circleRequests)) (opened (.after circleRequests) ["app.Shape"])
        circleRace = some session ∧
      session.answers.map (fun a => (a.thread, a.name)) = [(1, "app.Circle"), (0, "app.Circle")] ∧
      (∀ a ∈ session.answers, ∀ b ∈ session.answers, a.name = b.name → a.result = b.result) ∧
      session.shelf.created.map (fun entry => (entry.1, entry.2.key, entry.2.superKey)) =
        [("app.Shape", 0, none), ("app.Circle", 1, some 0)] := by
  have hran : (play (step (.after circleRequests)) (opened (.after circleRequests) ["app.Shape"])
      circleRace).map (fun session => (session.answers.map (fun a => (a.thread, a.name)),
        session.shelf.created.map fun entry => (entry.1, entry.2.key, entry.2.superKey))) =
      some ([(1, "app.Circle"), (0, "app.Circle")],
        [("app.Shape", 0, none), ("app.Circle", 1, some 0)]) := by
    decide +kernel
  obtain ⟨session, hplayed, hshown⟩ := Option.map_eq_some_iff.mp hran
  -- The keys can be read off the run, but that the answers are alike need not be.
  obtain ⟨-, halike, -⟩ := answers_of_play circleRequests ["app.Shape"] hplayed
  exact ⟨session, hplayed, congrArg Prod.fst hshown, halike, congrArg Prod.snd hshown⟩

end Lowering.LayoutSession
