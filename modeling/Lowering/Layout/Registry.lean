import Lowering.Keyed
import Lowering.Layout.Basic
import Lowering.Log

/-!
# The layout registry

A registry knows the classes of a program and hands out their layouts. A layout
is computed when it is first asked for, after that of the superclass, and kept;
every later query gets the kept one. Registering a class again replaces the
earlier registration and drops all kept layouts, since any of them may depend on
the replaced class.

A query walks the superclasses of a class up to the first one whose layout is
kept, or to a class without superclass, and then computes the missing layouts on
the way back down.
-/

namespace Lowering

/-- A kept layout. Its key tells it apart from every other layout that the
registry computes, equal ones included. -/
structure KeptLayout where
  key : Nat
  layout : TypeLayout
  /-- The key of the superclass's layout. -/
  superKey : Option Nat := none
  deriving DecidableEq

/-- The registered classes and the layouts kept for them. -/
structure LayoutRegistry where
  /-- The classes by name, in order of first registration. -/
  classes : List (String × ClassSummary) := []
  kept : List (String × KeptLayout) := []
  /-- The number of layout computations so far, failed ones included. -/
  computed : Nat := 0
  deriving DecidableEq

namespace LayoutRegistry

/-! ## Classes -/

/-- The registry that knows no class. -/
def empty : LayoutRegistry := {}

/-- The class of the given name. -/
def find? (r : LayoutRegistry) (name : String) : Option ClassSummary :=
  r.classes.lookup name

def contains (r : LayoutRegistry) (name : String) : Bool :=
  (r.find? name).isSome

/-- The number of classes. -/
def size (r : LayoutRegistry) : Nat := r.classes.length

def isEmpty (r : LayoutRegistry) : Bool := r.classes.isEmpty

/-- The class names in order of first registration. -/
def names (r : LayoutRegistry) : List String := Keyed.names r.classes

/-- Registers a class. Gives the class that it replaces, if there was one. -/
def register (r : LayoutRegistry) (c : ClassSummary) : Option ClassSummary × LayoutRegistry :=
  let previous := r.find? c.qualifiedName
  (previous,
    { r with
      classes := Keyed.put c.qualifiedName c r.classes
      kept := if previous.isSome then [] else r.kept })

/-- Registers several classes in order. -/
def registerAll (r : LayoutRegistry) (cs : List ClassSummary) : LayoutRegistry :=
  cs.foldl (fun r c => (r.register c).2) r

/-- The registry of all types declared in the given units. -/
def ofUnits (units : List CompilationUnit) : LayoutRegistry :=
  empty.registerAll (units.flatMap fun u => u.types.map ClassSummary.ofDecl)

/-! ## The way up -/

/-- The superclass chain of a class as far as it has to be laid out. -/
inductive Ancestry where
  /-- A class whose layout is kept. -/
  | kept (name : String) (layout : KeptLayout)
  /-- A class without superclass. -/
  | root (c : ClassSummary)
  /-- A class below its superclass. -/
  | derived (c : ClassSummary) (parent : Ancestry)

/-- The names of classes that a walk has not met yet. -/
def unmet (r : LayoutRegistry) (walked : List String) : List String :=
  r.names.filter fun name => name ∉ walked

theorem mem_names_of_find? {r : LayoutRegistry} {name : String} {c : ClassSummary}
    (hfound : r.find? name = some c) : name ∈ r.names :=
  Keyed.mem_names_of_lookup hfound

theorem length_unmet_lt {r : LayoutRegistry} {walked : List String} {name : String}
    (hknown : name ∈ r.names) (hnew : name ∉ walked) :
    (r.unmet (walked ++ [name])).length < (r.unmet walked).length := by
  have hfewer : r.unmet (walked ++ [name]) =
      (r.unmet walked).filter (fun other => other ≠ name) := by
    simp [unmet, List.filter_filter, and_comm]
  rw [hfewer]
  exact List.length_filter_lt_length_iff_exists.mpr
    ⟨name, by simp [unmet, hknown, hnew], by simp⟩

/-- Walks up from a class, the walked names in order. A name that is walked twice
closes a cycle. -/
def ancestry (r : LayoutRegistry) (walked : List String) (name : String) :
    Except LayoutError Ancestry :=
  match r.kept.lookup name with
  | some layout => .ok (.kept name layout)
  | none =>
    if hnew : name ∈ walked then .error (.cyclicInheritance (walked ++ [name]))
    else
      match hknown : r.find? name with
      | none => .error (.unknownType name)
      | some c =>
        match c.superName with
        | none => .ok (.root c)
        | some superName =>
          have := length_unmet_lt (mem_names_of_find? hknown) hnew
          do
            let parent ← r.ancestry (walked ++ [name]) superName
            pure (.derived c parent)
termination_by (r.unmet walked).length

/-! ## The way down -/

/-- The log line of a query that a kept layout answers. -/
def hit (name : String) : LogEntry :=
  { level := .trace, text := "layout cache hit: " ++ name }

/-- The log line of a layout computation. -/
def miss (name : String) : LogEntry :=
  { level := .trace, text := "layout cache miss: " ++ name }

/-- Computes the layout of a class on top of its superclass's and keeps it. -/
def compute (r : LayoutRegistry) (c : ClassSummary) (parent : Option KeptLayout) :
    Except LayoutError KeptLayout × LayoutRegistry :=
  let r' := { r with computed := r.computed + 1 }
  match TypeLayout.create c (parent.map (·.layout)) with
  | .error e => (.error e, r')
  | .ok layout =>
    let result := { key := r.computed, layout, superKey := parent.map (·.key) }
    (.ok result, { r' with kept := (c.qualifiedName, result) :: r'.kept })

/-- Lays out a superclass chain from the top. -/
def layOut (r : LayoutRegistry) :
    Ancestry → Logged (Except LayoutError KeptLayout) × LayoutRegistry
  | .kept name layout => ({ result := .ok layout, log := [hit name] }, r)
  | .root c =>
    let (result, r) := r.compute c none
    ({ result, log := [miss c.qualifiedName] }, r)
  | .derived c parent =>
    match r.layOut parent with
    | ({ result := .error e, log }, r) => ({ result := .error e, log }, r)
    | ({ result := .ok above, log }, r) =>
      let (result, r) := r.compute c (some above)
      ({ result, log := log ++ [miss c.qualifiedName] }, r)

/-! ## Queries -/

/-- The layout of the class of the given name. -/
def layoutOf (r : LayoutRegistry) (name : String) :
    Logged (Except LayoutError KeptLayout) × LayoutRegistry :=
  match r.ancestry [] name with
  | .error e => ({ result := .error e, log := [] }, r)
  | .ok chain => r.layOut chain

/-- The layouts of the given names in order, up to the first error. -/
def layoutsOf (r : LayoutRegistry) :
    List String → Logged (Except LayoutError (List KeptLayout)) × LayoutRegistry
  | [] => ({ result := .ok [], log := [] }, r)
  | name :: rest =>
    match r.layoutOf name with
    | ({ result := .error e, log }, r) => ({ result := .error e, log }, r)
    | ({ result := .ok layout, log }, r) =>
      let (further, r) := r.layoutsOf rest
      ({ result := further.result.map (layout :: ·), log := log ++ further.log }, r)

/-- The layouts of all classes in order of first registration. -/
def allLayouts (r : LayoutRegistry) :
    Logged (Except LayoutError (List KeptLayout)) × LayoutRegistry :=
  r.layoutsOf r.names

end LayoutRegistry

end Lowering
