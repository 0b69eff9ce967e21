import Lowering.Keyed
import Lowering.Text.Toml.Basic

/-!
# Tables under construction

While a document is read its tables are open: headers and dotted keys may add to
them. An open table remembers how it came about. It is implicit when only longer
names have mentioned it so far, and dotted when dotted keys made it. A table
that a header has defined is neither, and takes no further entries from dotted
keys outside of its section.
-/

namespace Lowering.Toml

/-- The parts of an open table. -/
inductive Node where
  /-- A complete value. -/
  | leaf (value : Value)
  /-- An open table. -/
  | table (implicit dotted : Bool) (entries : List (String × Node))
  /-- The tables of an array; headers extend the last one. -/
  | tables (elements : List (List (String × Node)))

/-- The entries of an open table. -/
abbrev Entries := List (String × Node)

/-- Changes the table at the end of a path and gives what the change yields. The
change is told whether the table is dotted. Tables on the way that do not exist
are made, implicit ones. With dotted keys (`byKeys`) the way leads through
implicit tables only. -/
def changeAt {α : Type} (byKeys : Bool) (change : Bool → Entries → Option (α × Entries)) :
    List String → Bool → Entries → Option (α × Entries)
  | [], dotted, entries => change dotted entries
  | key :: path, _, entries =>
    match entries.lookup key with
    | none => do
      let (a, inner) ← changeAt byKeys change path byKeys []
      pure (a, Keyed.put key (.table true byKeys inner) entries)
    | some (.leaf _) => none
    | some (.table implicit dotted inner) => do
      if byKeys && !implicit then none
      else
        let (a, inner) ← changeAt byKeys change path dotted inner
        pure (a, Keyed.put key (.table implicit dotted inner) entries)
    | some (.tables elements) =>
      match elements.reverse with
      | [] => none
      | last :: before => do
        let (a, last) ← changeAt byKeys change path false last
        pure (a, Keyed.put key (.tables (last :: before).reverse) entries)

/-- Adds an entry by a dotted key. The table that gets it has to be made by
dotted keys as well, unless the key has a single part. -/
def assign (path : List String) (key : String) (node : Node) (entries : Entries) :
    Option Entries := do
  let ((), entries) ← changeAt true (fun dotted entries =>
    if dotted == path.isEmpty then none
    else if (entries.lookup key).isSome then none
    else some ((), entries ++ [(key, node)])) path false entries
  pure entries

/-- Takes the table of a header out of its parent, to be filled: an implicit one
with its entries, or a new one. Every other entry of that name is in the way. -/
def openTable (path : List String) (key : String) (root : Entries) : Option (Entries × Entries) :=
  changeAt false (fun _ entries =>
    match entries.lookup key with
    | none => some ([], entries)
    | some (.table true false inner) => some (inner, entries.filter (·.1 != key))
    | some _ => none) path false root

/-- Makes sure that there is an array of tables of the header's name. -/
def openArray (path : List String) (key : String) (root : Entries) : Option Entries := do
  let ((), root) ← changeAt false (fun _ entries =>
    match entries.lookup key with
    | none => some ((), entries ++ [(key, .tables [])])
    | some (.tables _) => some ((), entries)
    | some _ => none) path false root
  pure root

/-- Puts a filled table back into its parent. -/
def closeTable (path : List String) (key : String) (table root : Entries) : Option Entries := do
  let ((), root) ← changeAt false (fun _ entries =>
    match entries.lookup key with
    | none => some ((), entries ++ [(key, .table false false table)])
    | some (.table true _ _) => some ((), Keyed.put key (.table false false table) entries)
    | some _ => none) path false root
  pure root

/-- Adds a filled table to its array. -/
def closeArray (path : List String) (key : String) (table root : Entries) : Option Entries := do
  let ((), root) ← changeAt false (fun _ entries =>
    match entries.lookup key with
    | none => some ((), entries ++ [(key, .tables [table])])
    | some (.tables elements) => some ((), Keyed.put key (.tables (elements ++ [table])) entries)
    | some _ => none) path false root
  pure root

mutual

/-- The value of a finished part. -/
def Node.toValue : Node → Value
  | .leaf value => value
  | .table _ _ entries => .table (entriesToValues entries)
  | .tables elements => .array (tablesToValues elements)
termination_by structural node => node

def entriesToValues : List (String × Node) → List (String × Value)
  | [] => []
  | (key, node) :: rest => (key, node.toValue) :: entriesToValues rest
termination_by structural entries => entries

def tablesToValues : List (List (String × Node)) → List Value
  | [] => []
  | entries :: rest => .table (entriesToValues entries) :: tablesToValues rest
termination_by structural elements => elements

end

end Lowering.Toml
