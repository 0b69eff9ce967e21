import Lowering.Type.Known

/-!
# Type tables

A type table keeps one copy of every type it has been asked for. Asking returns
the stored copy, named by its slot; equal types get the same slot. A table only
grows, so a slot stays valid.
-/

namespace Lowering

/-- The types stored so far, in order of first request. -/
structure TypeTable where
  entries : List Ty := []

/-- A stored type together with the slot that holds it. -/
structure StoredType where
  slot : Nat
  type : Ty
  deriving DecidableEq

namespace TypeTable

/-- The table that holds nothing. -/
def empty : TypeTable := {}

def size (table : TypeTable) : Nat := table.entries.length

def isEmpty (table : TypeTable) : Bool := table.entries.isEmpty

/-- The stored copy of a type, if the table has one. -/
def find? (table : TypeTable) (t : Ty) : Option StoredType :=
  (table.entries.idxOf? t).map fun slot => { slot, type := t }

/-- The stored copy of a type; a type not seen before is stored first. -/
def intern (table : TypeTable) (t : Ty) : StoredType × TypeTable :=
  match table.find? t with
  | some stored => (stored, table)
  | none => ({ slot := table.size, type := t }, { entries := table.entries ++ [t] })

/-- The stored nullable reference to a class. -/
def internClass (table : TypeTable) (qualifiedName : String) : StoredType × TypeTable :=
  table.intern (.classNamed qualifiedName)

/-- The stored primitive type. -/
def internPrimitive (table : TypeTable) (primitive : Primitive) : StoredType × TypeTable :=
  table.intern (.prim primitive)

/-- The stored nullable variant of a type. -/
def internNullable (table : TypeTable) (t : Ty) : StoredType × TypeTable :=
  table.intern t.toNullable

/-- The stored non-nullable variant of a type. -/
def internNonNullable (table : TypeTable) (t : Ty) : StoredType × TypeTable :=
  table.intern t.toNonNullable

/-- Stores several types in order. -/
def internAll (table : TypeTable) (types : List Ty) : TypeTable :=
  types.foldl (fun table t => (table.intern t).2) table

/-- The types that a new table for a compilation holds from the start. -/
def preloaded : List Ty :=
  [.prim .boolean, .prim .int, .prim .long, .prim .double, .prim .void,
    Known.object, Known.string, Known.boxedVoid]

/-- The table that a compilation starts with. -/
def standard : TypeTable := empty.internAll preloaded

end TypeTable

end Lowering
