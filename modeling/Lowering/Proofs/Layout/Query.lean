import Lowering.Proofs.Layout.Session
import Lowering.Proofs.Layout.Shelf

/-!
# Queries beside other threads

A query that shares its registry with others follows the walk along superclass names,
as a query alone does, but it may find a layout at any class on the way that was not
there a moment ago. `Follows` says where a query stands, in terms that the moves of
other threads do not disturb (`Follows.keep`). `Advances` says what one move does,
whichever phase the query is in: the shelf stays as the others need it, and the query
stays on its walk and comes nearer to its answer, or is answered as it would be alone.

Main statement: `LayoutQuery.Follows.move`.
-/

namespace Lowering

open LayoutRegistry (Sound LaidOut Walk walkedNames unmet)

variable {r : LayoutRegistry} {shelf shelf' : LayoutShelf} {name : String} {thread : Nat}

/-! ## What a query is answered -/

/-- The answer is the one that a query without other threads gets, and its layout is held. -/
structure LayoutShelf.Answers (r : LayoutRegistry) (shelf : LayoutShelf) (name : String)
    (result : Except LayoutError KeptLayout) : Prop where
  held : ∀ kept, result = .ok kept → shelf.Holds name kept
  alone : result.map (·.layout) = (r.layoutOf name).1.result.map (·.layout)

theorem answers_of_laidOut (hsound : r.Sound) {kept : KeptLayout}
    (hholds : shelf.Holds name kept) (hlaidOut : r.LaidOut name kept.layout) :
    shelf.Answers r name (.ok kept) where
  held := by
    intro layout hsame
    cases hsame
    exact hholds
  alone := by
    -- The query alone makes the same walk, and so gets the layout of the same chain.
    obtain ⟨walked, hwalk, hchain⟩ := hlaidOut
    have hanswer := LayoutRegistry.layoutOf_of_complete hsound.named hsound.current hwalk
      (hwalk.complete_of_stuck hsound.named (by simp))
    rw [LayoutRegistry.outcome, hchain] at hanswer
    cases hresult : (r.layoutOf name).1.result with
    | error e =>
      rw [hresult] at hanswer
      cases hanswer
    | ok layout =>
      rw [hresult] at hanswer
      simp only [Except.map, Except.ok.injEq, Option.some.injEq] at hanswer ⊢
      exact hanswer.symm

theorem answers_of_error {e : LayoutError} (hfailed : (r.layoutOf name).1.result = .error e) :
    shelf.Answers r name (.error e) where
  held := by
    intro layout hsame
    cases hsame
  alone := by rw [hfailed]

/-- A query fails where a class above it cannot be laid out. -/
theorem layoutOf_of_error_above (hsound : r.Sound) {between : String}
    {below above : List ClassSummary} {e : LayoutError} (hwalk : Walk r name below (some between))
    (hupper : Walk r between above none) (hfailed : TypeLayout.ofChain above.reverse = .error e) :
    (r.layoutOf name).1.result = .error e := by
  have hwhole := hwalk.append hupper
  apply LayoutRegistry.eq_error_of_map
  -- The whole walk is complete, since its upper part ends at a class without superclass.
  rw [LayoutRegistry.layoutOf_of_complete hsound.named hsound.current hwhole
    (hwhole.complete_of_stuck hsound.named (by simp)), LayoutRegistry.outcome, List.reverse_append]
  exact TypeLayout.extend_append_of_error hfailed below.reverse

/-- There is only one answer to the queries of a class. -/
theorem LayoutShelf.Answers.unique {result result' : Except LayoutError KeptLayout}
    (hdistinct : shelf.Distinct) (hfirst : shelf.Answers r name result)
    (hsecond : shelf.Answers r name result') : result = result' := by
  have hsame := hfirst.alone.trans hsecond.alone.symm
  cases result with
  | error e =>
    cases result' with
    | error e' =>
      cases hsame
      rfl
    | ok kept' => cases hsame
  | ok kept =>
    cases result' with
    | error e' => cases hsame
    -- The contents agree, and it is one layout because a class has one cell.
    | ok kept' => rw [hdistinct.holds_unique (hfirst.held kept rfl) (hsecond.held kept' rfl)]

theorem LayoutShelf.Answers.keep {result : Except LayoutError KeptLayout}
    (hanswers : shelf.Answers r name result) (hkeeps : shelf.Keeps thread shelf') :
    shelf'.Answers r name result :=
  ⟨fun kept hsame => hkeeps.holds (hanswers.held kept hsame), hanswers.alone⟩

/-! ## Where a query stands -/

namespace QueryPhase

/-- The name of the class that the query has come to. -/
def className : QueryPhase → String
  | .looking name => name
  | .climbing name => name
  | .reserving c _ => c.qualifiedName
  | .entering c _ _ => c.qualifiedName
  | .computing c _ _ _ => c.qualifiedName

/-- What holds when the thread makes the move that comes next. -/
def Ready (r : LayoutRegistry) (shelf : LayoutShelf) (thread : Nat) : QueryPhase → Prop
  | .looking _ => True
  | .climbing _ => True
  | .reserving c above => r.find? c.qualifiedName = some c ∧ c.RestsOn shelf.Holds above
  | .entering c above place => r.find? c.qualifiedName = some c ∧ c.RestsOn shelf.Holds above ∧
    ∃ state, shelf.cells[place]? = some ⟨c.qualifiedName, state⟩
  | .computing c above place key => r.find? c.qualifiedName = some c ∧ c.RestsOn shelf.Holds above ∧
    shelf.cells[place]? = some ⟨c.qualifiedName, .busy thread key⟩

/-- The moves of other threads leave a thread ready. -/
theorem Ready.keep {phase : QueryPhase} {other : Nat} (hready : phase.Ready r shelf thread)
    (hkeeps : shelf.Keeps other shelf') (hothers : thread ≠ other) :
    phase.Ready r shelf' thread := by
  cases phase with
  | looking => trivial
  | climbing => trivial
  | reserving c above => exact ⟨hready.1, hkeeps.restsOn hready.2⟩
  | entering c above place =>
    obtain ⟨hknown, hrests, state, hcell⟩ := hready
    exact ⟨hknown, hkeeps.restsOn hrests, hkeeps.places place _ state hcell⟩
  -- No other thread touches a cell in which this one computes.
  | computing c above place key =>
    obtain ⟨hknown, hrests, hcell⟩ := hready
    exact ⟨hknown, hkeeps.restsOn hrests, (hkeeps.busy place _ thread key hothers).mpr hcell⟩

/-- How far the query is from the next class, by the number of classes not met yet. -/
def weight (unmet : Nat) : QueryPhase → Nat
  -- A class that is not met yet will cost a look, a climb, and three moves on the way back.
  | .looking _ => 5 * unmet + 2
  | .climbing _ => 5 * unmet + 1
  | .reserving _ _ => 3
  | .entering _ _ _ => 2
  | .computing _ _ _ _ => 1

theorem weight_pos (unmet : Nat) (phase : QueryPhase) : 0 < phase.weight unmet := by
  cases phase <;> simp [weight]

end QueryPhase

namespace LayoutQuery

/-- A query follows the walk from the name asked for, without meeting a class twice. -/
structure Follows (r : LayoutRegistry) (shelf : LayoutShelf) (thread : Nat)
    (query : LayoutQuery) : Prop where
  walk : Walk r query.asked query.below.reverse (some query.phase.className)
  distinct : (walkedNames query.below.reverse).Nodup
  ready : query.phase.Ready r shelf thread

theorem Follows.keep {query : LayoutQuery} {other : Nat} (hfollows : query.Follows r shelf thread)
    (hkeeps : shelf.Keeps other shelf') (hothers : thread ≠ other) :
    query.Follows r shelf' thread :=
  ⟨hfollows.walk, hfollows.distinct, hfollows.ready.keep hkeeps hothers⟩

/-- How far a query is from its answer. -/
def weight (r : LayoutRegistry) (query : LayoutQuery) : Nat :=
  3 * query.below.length + query.phase.weight (r.unmet query.walked).length

end LayoutQuery

/-- The thread computes in no cell but the one of its phase. -/
def LayoutShelf.Engages (shelf : LayoutShelf) (thread : Nat) (phase : Option QueryPhase) : Prop :=
  ∀ (place : Nat) name key, shelf.cells[place]? = some ⟨name, .busy thread key⟩ →
    ∃ c above, phase = some (.computing c above place key)

/-- A move has led to a query that follows its walk, or to the right answer. -/
def QueryProgress.Good (r : LayoutRegistry) (shelf : LayoutShelf) (thread : Nat) (asked : String) :
    QueryProgress → Prop
  | .going query => query.asked = asked ∧ query.Follows r shelf thread
  | .answered result => shelf.Answers r asked result

/-! ## One move -/

namespace LayoutQuery

variable {query : LayoutQuery} {progress : QueryProgress}

/-- What a move does. -/
structure Advances (r : LayoutRegistry) (shelf : LayoutShelf) (thread : Nat) (query : LayoutQuery)
    (progress : QueryProgress) (shelf' : LayoutShelf) : Prop where
  shelved : shelf'.Shelved r
  numbered : shelf'.Numbered r.computed
  keeps : shelf.Keeps thread shelf'
  engages : shelf'.Engages thread (progress.query?.map (·.phase))
  good : progress.Good r shelf' thread query.asked
  lighter : ∀ next, progress = .going next → next.weight r < query.weight r

/-- A layout that is held is taken down to the class that waits for it. -/
theorem Follows.deliver (hsound : r.Sound) {kept : KeptLayout}
    (hfollows : query.Follows r shelf thread)
    (hholds : shelf'.Holds query.phase.className kept)
    (hlaidOut : r.LaidOut query.phase.className kept.layout) :
    (query.deliver kept).Good r shelf' thread query.asked := by
  have hwalk := hfollows.walk
  have hdistinct := hfollows.distinct
  cases hbottom : query.below with
  | nil =>
    rw [hbottom] at hwalk
    -- No class waits below, so this is the class that was asked for.
    have hsame : query.phase.className = query.asked := hwalk.eq_of_nil
    rw [hsame] at hholds hlaidOut
    simp only [LayoutQuery.deliver, hbottom]
    exact answers_of_laidOut hsound hholds hlaidOut
  | cons c rest =>
    rw [hbottom, List.reverse_cons] at hwalk hdistinct
    simp only [LayoutQuery.deliver, hbottom]
    -- The class that waits is the last of the walk so far.
    have hlast := hwalk.suffix hsound.named
    refine ⟨rfl, hwalk.upTo hsound.named, ?_, ?_⟩
    · rw [walkedNames, List.map_append] at hdistinct
      exact (List.nodup_append.mp hdistinct).1
    · -- The class waits for its superclass, which is the one that the layout belongs to.
      generalize hreached : some query.phase.className = next at hlast
      cases hlast with
      | root hfound htop => cases hreached
      | up hfound hsuper hfurther =>
        subst hreached
        have hsame := hfurther.eq_of_nil
        exact ⟨hfound, _, hsuper, hsame ▸ hholds⟩

/-- A delivery makes the query lighter, since there is one class less that waits. -/
theorem lighter_deliver {kept : KeptLayout} :
    ∀ next, query.deliver kept = .going next → next.weight r < query.weight r := by
  intro next hgoing
  have hpositive := query.phase.weight_pos (r.unmet query.walked).length
  cases hbottom : query.below with
  | nil =>
    simp only [LayoutQuery.deliver, hbottom] at hgoing
    cases hgoing
  | cons c rest =>
    simp only [LayoutQuery.deliver, hbottom] at hgoing
    cases hgoing
    simp only [weight, QueryPhase.weight, hbottom, List.length_cons] at hpositive ⊢
    omega

/-- A query that looks takes what is held, or remembers that there was nothing. -/
theorem Follows.look (hsound : r.Sound) (hshelved : shelf.Shelved r)
    (hfollows : query.Follows r shelf thread) (hphase : query.phase = .looking name) :
    (query.look shelf name).Good r shelf thread query.asked ∧
      ∀ next, query.look shelf name = .going next → next.weight r < query.weight r := by
  have hown : query.phase.className = name := by rw [hphase]; rfl
  rw [LayoutQuery.look]
  cases hcached : shelf.cached name with
  | some kept =>
    -- What is held is the layout of its class, whoever has put it there.
    have hholds := LayoutShelf.holds_of_cached hcached
    rw [← hown] at hholds
    exact ⟨hfollows.deliver hsound hholds (hshelved.current _ _ hholds), lighter_deliver⟩
  | none =>
    refine ⟨⟨rfl, hown ▸ hfollows.walk, hfollows.distinct, trivial⟩, ?_⟩
    intro next hgoing
    cases hgoing
    simp [weight, walked, hphase, QueryPhase.weight]

/-- A query that climbs fails at a name that it has met or that is not registered. -/
theorem Follows.climb (hsound : r.Sound) (hfollows : query.Follows r shelf thread)
    (hphase : query.phase = .climbing name) :
    (query.climb r name).Good r shelf thread query.asked ∧
      ∀ next, query.climb r name = .going next → next.weight r < query.weight r := by
  have hwalk : Walk r query.asked query.below.reverse (some name) := by
    have := hfollows.walk
    rwa [hphase] at this
  rw [LayoutQuery.climb]
  split
  -- The query alone would have come back to this name too, as it makes the same walk.
  · rename_i hmet
    refine ⟨answers_of_error ?_, fun next hgoing => by cases hgoing⟩
    exact LayoutRegistry.layoutOf_of_repeats hsound.named hsound.current
      ⟨query.below.reverse, name, hwalk, hfollows.distinct, hmet, rfl⟩
  · rename_i hnew
    cases hknown : r.find? name with
    | none =>
      refine ⟨answers_of_error ?_, fun next hgoing => by cases hgoing⟩
      exact LayoutRegistry.layoutOf_of_unknown hsound.named hsound.current
        ⟨query.below.reverse, hwalk, hfollows.distinct, hknown⟩
    | some c =>
      dsimp only
      obtain rfl := hsound.named.qualifiedName hknown
      -- There is one class less to meet, and so the query gets lighter by five.
      have hfewer := LayoutRegistry.length_unmet_lt (LayoutRegistry.mem_names_of_find? hknown) hnew
      cases hsuper : c.superName with
      | none =>
        refine ⟨⟨rfl, hwalk, hfollows.distinct, hknown, hsuper⟩, ?_⟩
        intro next hgoing
        cases hgoing
        simp only [weight, hphase, QueryPhase.weight]
        omega
      | some superName =>
        -- The class joins those that wait for a layout from above.
        have hlonger : walkedNames (c :: query.below).reverse =
            query.walked ++ [c.qualifiedName] := by
          simp [walkedNames, walked]
        refine ⟨⟨rfl, ?_, ?_, trivial⟩, ?_⟩
        · rw [List.reverse_cons]
          exact hwalk.append (.up hknown hsuper (.here superName))
        · rw [hlonger, ← List.concat_eq_append, List.nodup_concat]
          exact ⟨hnew, hfollows.distinct⟩
        · intro next hgoing
          cases hgoing
          have hwalked :
              walked { query with below := c :: query.below, phase := .looking superName } =
                query.walked ++ [c.qualifiedName] := hlonger
          simp only [weight, hphase, hwalked, QueryPhase.weight, List.length_cons]
          omega

/-- A move that changes no cell. -/
theorem Advances.of_good (hshelved : shelf.Shelved r) (hnumbered : shelf.Numbered r.computed)
    (hengages : shelf.Engages thread (some query.phase))
    (hidle : ∀ c above place key, query.phase ≠ .computing c above place key)
    (hgood : progress.Good r shelf thread query.asked)
    (hlighter : ∀ next, progress = .going next → next.weight r < query.weight r) :
    Advances r shelf thread query progress shelf where
  shelved := hshelved
  numbered := hnumbered
  keeps := .refl thread shelf
  engages place name key hcell := by
    -- The thread computed nowhere before, and no cell has changed.
    obtain ⟨c, above, hsame⟩ := hengages place name key hcell
    exact absurd (Option.some.inj hsame) (hidle c above place key)
  good := hgood
  lighter := hlighter

/-- A query that reserves finds the cell of its class. -/
theorem Follows.reserve {c : ClassSummary} {above : Option KeptLayout} (hshelved : shelf.Shelved r)
    (hnumbered : shelf.Numbered r.computed) (hengages : shelf.Engages thread (some query.phase))
    (hfollows : query.Follows r shelf thread) (hphase : query.phase = .reserving c above) :
    Advances r shelf thread query
      (.going { query with phase := .entering c above (shelf.reserve c.qualifiedName).1 })
      (shelf.reserve c.qualifiedName).2 := by
  have hkeeps := LayoutShelf.keeps_reserve thread shelf c.qualifiedName
  have hwalk := hfollows.walk
  have hready := hfollows.ready
  rw [hphase] at hwalk hready
  constructor
  case shelved => exact hshelved.reserve c.qualifiedName
  case numbered => exact hnumbered.reserve c.qualifiedName
  case keeps => exact hkeeps
  case engages =>
    intro place name key hcell
    -- A reserved cell is vacant, so the thread does not compute there yet.
    rcases LayoutShelf.getElem?_of_reserve hcell with hnew | hbefore
    · cases hnew
    · obtain ⟨d, upper, hsame⟩ := hengages place name key hbefore
      rw [hphase] at hsame
      cases hsame
  case good =>
    exact ⟨rfl, hwalk, hfollows.distinct, hready.1, hkeeps.restsOn hready.2,
      LayoutShelf.getElem?_reserved shelf c.qualifiedName⟩
  case lighter =>
    intro next hgoing
    cases hgoing
    simp [weight, hphase, QueryPhase.weight]

/-- A query that enters a cell takes the layout from it, or begins to compute there. -/
theorem Follows.enter {c : ClassSummary} {above : Option KeptLayout} {place : Nat}
    (hsound : r.Sound) (hshelved : shelf.Shelved r) (hnumbered : shelf.Numbered r.computed)
    (hengages : shelf.Engages thread (some query.phase)) (hfollows : query.Follows r shelf thread)
    (hphase : query.phase = .entering c above place)
    (hmoved : query.enter thread shelf c above place = some (progress, shelf')) :
    Advances r shelf thread query progress shelf' := by
  have hown : query.phase.className = c.qualifiedName := by rw [hphase]; rfl
  have hwalk := hfollows.walk
  have hready := hfollows.ready
  rw [hphase] at hwalk hready
  obtain ⟨hknown, hrests, state, hcell⟩ := hready
  simp only [LayoutQuery.enter, hcell] at hmoved
  cases state with
  -- Another thread has been faster.
  | full kept =>
    cases hmoved
    have hholds : shelf.Holds query.phase.className kept := hown ▸ ⟨place, hcell⟩
    apply Advances.of_good hshelved hnumbered hengages
    · intro d upper at' key hsame
      rw [hphase] at hsame
      cases hsame
    · exact hfollows.deliver hsound hholds (hshelved.current _ _ hholds)
    · exact lighter_deliver
  -- While another thread computes there is no move.
  | busy other key => cases hmoved
  -- The cell is taken, with a key of its own.
  | vacant =>
    cases hmoved
    have hkeeps : shelf.Keeps thread (shelf.engage place thread) := LayoutShelf.keeps_engage hcell
    constructor
    case shelved => exact hshelved.engage hcell
    case numbered => exact hnumbered.engage hcell
    case keeps => exact hkeeps
    case engages =>
      intro at' name key hfound
      rcases LayoutShelf.getElem?_of_put hcell hfound with ⟨hsame, hchanged⟩ | ⟨-, hbefore⟩
      · cases hsame
        cases hchanged
        exact ⟨c, above, rfl⟩
      · obtain ⟨d, upper, hsame⟩ := hengages at' name key hbefore
        rw [hphase] at hsame
        cases hsame
    case good =>
      exact ⟨rfl, hwalk, hfollows.distinct, hknown, hkeeps.restsOn hrests,
        LayoutShelf.getElem?_put_self hcell⟩
    case lighter =>
      intro next hgoing
      cases hgoing
      simp [weight, hphase, QueryPhase.weight]

/-- A query that ends its computation fills the cell, or leaves it vacant and fails. -/
theorem Follows.finish {c : ClassSummary} {above : Option KeptLayout} {place key : Nat}
    (hsound : r.Sound) (hshelved : shelf.Shelved r) (hnumbered : shelf.Numbered r.computed)
    (hengages : shelf.Engages thread (some query.phase)) (hfollows : query.Follows r shelf thread)
    (hphase : query.phase = .computing c above place key) :
    Advances r shelf thread query (query.finish shelf c above place key).1
      (query.finish shelf c above place key).2 := by
  have hown : query.phase.className = c.qualifiedName := by rw [hphase]; rfl
  have hwalk := hfollows.walk
  have hready := hfollows.ready
  rw [hphase] at hwalk hready
  obtain ⟨hknown, hrests, hcell⟩ := hready
  -- The layout from above is still the one that the superclass has, whoever computed it.
  obtain ⟨upper, hclimbed, hchain⟩ :=
    LayoutRegistry.walk_of_restsOn (hrests.map hshelved.current) hknown
  -- The thread leaves the only cell in which it has computed.
  have hleaves : ∀ {state : CellState}, (∀ other key', state ≠ .busy other key') →
      ∀ other, (shelf.put place state).Engages thread other := by
    intro state hidle other at' name key' hfound
    rcases LayoutShelf.getElem?_of_put hcell hfound with ⟨-, hchanged⟩ | ⟨hdiffers, hbefore⟩
    · cases hchanged
      exact absurd rfl (hidle thread key')
    · obtain ⟨d, upper, hsame⟩ := hengages at' name key' hbefore
      rw [hphase] at hsame
      cases hsame
      exact absurd rfl hdiffers
  rw [LayoutQuery.finish]
  cases hcreated : TypeLayout.create c (above.map (·.layout)) with
  | error e =>
    rw [hcreated] at hchain
    have hkeeps : shelf.Keeps thread (shelf.put place .vacant) := by
      apply LayoutShelf.keeps_put hcell rfl
      intro other key' hsame
      cases hsame
    constructor
    case shelved => exact hshelved.put hcell hkeeps rfl
    case numbered => exact hnumbered.vacate hcell
    case keeps => exact hkeeps
    case engages => exact hleaves (by simp) _
    -- The class cannot be laid out, and the queries below it fail with the same error.
    case good => exact answers_of_error (layoutOf_of_error_above hsound hwalk hclimbed hchain)
    case lighter =>
      intro next hgoing
      cases hgoing
  | ok layout =>
    rw [hcreated] at hchain
    -- The superclass's layout is the one that its walk leads to, so this is too.
    have hlaidOut : r.LaidOut c.qualifiedName layout := ⟨upper, hclimbed, hchain⟩
    constructor
    case shelved => exact hshelved.fill hcell rfl hlaidOut hknown hrests rfl
    case numbered => exact hnumbered.fill hcell
    case keeps => exact LayoutShelf.keeps_fill hcell rfl
    case engages => exact hleaves (by simp) _
    case good =>
      apply hfollows.deliver hsound
      · rw [hown]
        exact LayoutShelf.holds_fill hcell
      · rw [hown]
        exact hlaidOut
    case lighter => exact lighter_deliver

/-- Every move brings the query on and keeps what the threads share. -/
theorem Follows.move (hsound : r.Sound) (hshelved : shelf.Shelved r)
    (hnumbered : shelf.Numbered r.computed) (hengages : shelf.Engages thread (some query.phase))
    (hfollows : query.Follows r shelf thread)
    (hmoved : query.move r thread shelf = some (progress, shelf')) :
    Advances r shelf thread query progress shelf' := by
  -- One lemma for each phase. The first two phases change no cell.
  cases hphase : query.phase with
  | looking name =>
    simp only [LayoutQuery.move, hphase] at hmoved
    cases hmoved
    obtain ⟨hgood, hlighter⟩ := hfollows.look hsound hshelved hphase
    exact .of_good hshelved hnumbered hengages (by simp [hphase]) hgood hlighter
  | climbing name =>
    simp only [LayoutQuery.move, hphase] at hmoved
    cases hmoved
    obtain ⟨hgood, hlighter⟩ := hfollows.climb hsound hphase
    exact .of_good hshelved hnumbered hengages (by simp [hphase]) hgood hlighter
  | reserving c above =>
    simp only [LayoutQuery.move, hphase] at hmoved
    cases hmoved
    exact hfollows.reserve hshelved hnumbered hengages hphase
  | entering c above place =>
    simp only [LayoutQuery.move, hphase] at hmoved
    exact hfollows.enter hsound hshelved hnumbered hengages hphase hmoved
  | computing c above place key =>
    simp only [LayoutQuery.move, hphase, Option.some.injEq] at hmoved
    have hadvances := hfollows.finish hsound hshelved hnumbered hengages hphase
    rwa [hmoved] at hadvances

end LayoutQuery

end Lowering
