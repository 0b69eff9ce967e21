import Lowering.Interleaving
import Lowering.Layout.Registry

/-!
# Threads that share a layout registry

Several threads may query one registry at the same time, as long as no class is
registered meanwhile. The layouts are kept in cells, one for a class. A cell is made
when a thread first wants to put a layout into it, and it stays where it is. A
thread that finds its cell vacant computes the layout there; others that come to the
cell in the meantime wait. If the computation fails, the cell is vacant again and the
next thread tries anew.

A thread looks for a kept layout, climbs to the superclass if there is none, and on
the way back makes or finds the cell of each class and enters it. Between any two of
these moves any number of other threads may move. `LayoutSession.step` makes one
move of one thread.
-/

namespace Lowering

/-! ## Cells -/

/-- What a cell is used for at the moment. -/
inductive CellState where
  | vacant
  /-- The thread computes a layout for the cell, which will have the given key. -/
  | busy (thread key : Nat)
  | full (kept : KeptLayout)
  deriving DecidableEq

/-- The layout in a cell. -/
def CellState.kept? : CellState → Option KeptLayout
  | .vacant => none
  | .busy _ _ => none
  | .full kept => some kept

/-- The cell of the class of the given name. -/
structure LayoutCell where
  name : String
  state : CellState := .vacant
  deriving DecidableEq

/-- What the threads change together. -/
structure LayoutShelf where
  /-- The cells. A cell is told by its place, which does not change. -/
  cells : List LayoutCell := []
  /-- The number of layout computations so far, failed ones included. -/
  computed : Nat := 0
  /-- The layouts created by the threads, with the names of their classes, oldest first. -/
  created : List (String × KeptLayout) := []

namespace LayoutShelf

/-- The layout kept for a class. -/
def cached (shelf : LayoutShelf) (name : String) : Option KeptLayout :=
  (shelf.cells.find? (·.name == name)).bind (·.state.kept?)

/-- The place of the cell of a class. The cell is made if there is none. -/
def reserve (shelf : LayoutShelf) (name : String) : Nat × LayoutShelf :=
  match shelf.cells.findIdx? (·.name == name) with
  | some place => (place, shelf)
  | none => (shelf.cells.length, { shelf with cells := shelf.cells ++ [{ name }] })

/-- The shelf with another state of one cell. -/
def put (shelf : LayoutShelf) (place : Nat) (state : CellState) : LayoutShelf :=
  { shelf with cells := shelf.cells.modify place fun cell => { cell with state } }

/-- The shelf after a thread has begun a computation in a cell. -/
def engage (shelf : LayoutShelf) (place thread : Nat) : LayoutShelf :=
  { shelf.put place (.busy thread shelf.computed) with computed := shelf.computed + 1 }

/-- The shelf after a layout has been created in the cell of its class. -/
def fill (shelf : LayoutShelf) (place : Nat) (name : String) (kept : KeptLayout) : LayoutShelf :=
  { shelf.put place (.full kept) with created := shelf.created ++ [(name, kept)] }

/-- The shelf of a registry, with vacant cells of classes whose computation has failed. -/
def ofRegistry (r : LayoutRegistry) (vacant : List String) : LayoutShelf :=
  vacant.foldl (fun shelf name => (shelf.reserve name).2)
    { cells := r.kept.map fun entry => { name := entry.1, state := .full entry.2 }
      computed := r.computed }

end LayoutShelf

/-! ## Queries -/

/-- What a thread does next for the class it has come to. `above` is the layout of the
superclass. -/
inductive QueryPhase where
  /-- Looks for a kept layout. -/
  | looking (name : String)
  /-- Has found none, and goes to the superclass first. -/
  | climbing (name : String)
  /-- Finds or makes the cell. -/
  | reserving (c : ClassSummary) (above : Option KeptLayout)
  /-- Takes the layout out of the cell, or begins to compute it. -/
  | entering (c : ClassSummary) (above : Option KeptLayout) (place : Nat)
  /-- Ends the computation. -/
  | computing (c : ClassSummary) (above : Option KeptLayout) (place key : Nat)

/-- A query that has not been answered. -/
structure LayoutQuery where
  /-- The name asked for. -/
  asked : String
  /-- The classes that wait for the layout of their superclass, the last one first. -/
  below : List ClassSummary := []
  phase : QueryPhase

/-- What a move makes of a query. -/
inductive QueryProgress where
  | going (query : LayoutQuery)
  | answered (result : Except LayoutError KeptLayout)

namespace QueryProgress

def query? : QueryProgress → Option LayoutQuery
  | .going query => some query
  | .answered _ => none

def result? : QueryProgress → Option (Except LayoutError KeptLayout)
  | .going _ => none
  | .answered result => some result

end QueryProgress

namespace LayoutQuery

/-- The query of a thread that has just been asked for a layout. -/
def start (name : String) : LayoutQuery :=
  { asked := name, phase := .looking name }

/-- The names of the classes that wait, in the order in which they were met. -/
def walked (query : LayoutQuery) : List String :=
  query.below.reverse.map (·.qualifiedName)

/-- Hands a layout to the class that waits for it, or answers with it. -/
def deliver (query : LayoutQuery) (kept : KeptLayout) : QueryProgress :=
  match query.below with
  | [] => .answered (.ok kept)
  | c :: rest => .going { query with below := rest, phase := .reserving c (some kept) }

def look (query : LayoutQuery) (shelf : LayoutShelf) (name : String) : QueryProgress :=
  match shelf.cached name with
  | some kept => query.deliver kept
  | none => .going { query with phase := .climbing name }

def climb (query : LayoutQuery) (r : LayoutRegistry) (name : String) : QueryProgress :=
  if name ∈ query.walked then
    .answered (.error (.cyclicInheritance (query.walked ++ [name])))
  else
    match r.find? name with
    | none => .answered (.error (.unknownType name))
    | some c =>
      match c.superName with
      | none => .going { query with phase := .reserving c none }
      | some superName =>
        .going { query with below := c :: query.below, phase := .looking superName }

/-- A thread cannot enter a cell in which another one computes. -/
def enter (query : LayoutQuery) (thread : Nat) (shelf : LayoutShelf) (c : ClassSummary)
    (above : Option KeptLayout) (place : Nat) : Option (QueryProgress × LayoutShelf) :=
  match shelf.cells[place]? with
  | none => none
  | some cell =>
    match cell.state with
    | .full kept => some (query.deliver kept, shelf)
    | .busy _ _ => none
    | .vacant =>
      some (.going { query with phase := .computing c above place shelf.computed },
        shelf.engage place thread)

/-- A failed computation leaves the cell vacant. -/
def finish (query : LayoutQuery) (shelf : LayoutShelf) (c : ClassSummary)
    (above : Option KeptLayout) (place key : Nat) : QueryProgress × LayoutShelf :=
  match TypeLayout.create c (above.map (·.layout)) with
  | .error e => (.answered (.error e), shelf.put place .vacant)
  | .ok layout =>
    let kept := { key, layout, superKey := above.map (·.key) }
    (query.deliver kept, shelf.fill place c.qualifiedName kept)

/-- The next move of the thread that makes the query, if it can move. -/
def move (query : LayoutQuery) (r : LayoutRegistry) (thread : Nat) (shelf : LayoutShelf) :
    Option (QueryProgress × LayoutShelf) :=
  match query.phase with
  | .looking name => some (query.look shelf name, shelf)
  | .climbing name => some (query.climb r name, shelf)
  | .reserving c above =>
    let (place, shelf) := shelf.reserve c.qualifiedName
    some (.going { query with phase := .entering c above place }, shelf)
  | .entering c above place => query.enter thread shelf c above place
  | .computing c above place key => some (query.finish shelf c above place key)

end LayoutQuery

/-! ## Sessions -/

/-- What a query of a thread was answered. -/
structure LayoutAnswer where
  thread : Nat
  name : String
  result : Except LayoutError KeptLayout

/-- A registry in use by several threads, which are told apart by numbers. -/
structure LayoutSession where
  shelf : LayoutShelf
  /-- The open query of each thread. -/
  queries : Nat → Option LayoutQuery := fun _ => none
  /-- What has been answered so far, oldest first. -/
  answers : List LayoutAnswer := []

inductive LayoutTurn where
  /-- A thread without open query begins one. -/
  | ask (thread : Nat) (name : String)
  /-- A thread goes on with its query. -/
  | move (thread : Nat)

namespace LayoutSession

/-- A session that begins with the layouts of a registry. -/
def opened (r : LayoutRegistry) (vacant : List String) : LayoutSession :=
  { shelf := .ofRegistry r vacant }

/-- The open queries with another one for the given thread. -/
def queriesWith (session : LayoutSession) (thread : Nat) (query : Option LayoutQuery) :
    Nat → Option LayoutQuery :=
  fun other => if other = thread then query else session.queries other

/-- The session after a thread has begun a query. -/
def afterAsk (session : LayoutSession) (thread : Nat) (name : String) : LayoutSession :=
  { session with queries := session.queriesWith thread (some (.start name)) }

/-- The session after a thread has made a move of its query for the given name. -/
def afterMove (session : LayoutSession) (thread : Nat) (asked : String)
    (moved : QueryProgress × LayoutShelf) : LayoutSession :=
  { shelf := moved.2
    queries := session.queriesWith thread moved.1.query?
    answers := session.answers ++
      moved.1.result?.toList.map fun result => { thread, name := asked, result } }

/-- The session after a turn, the classes being those of a registry. -/
def step (r : LayoutRegistry) (session : LayoutSession) : LayoutTurn → Option LayoutSession
  | .ask thread name =>
    match session.queries thread with
    | some _ => none
    | none => some (session.afterAsk thread name)
  | .move thread =>
    match session.queries thread with
    | none => none
    | some query =>
      (query.move r thread session.shelf).map (session.afterMove thread query.asked)

end LayoutSession

end Lowering
