import Lowering.Keyed
import Lowering.Member.Mangling

/-!
# Dispatch tables

A dispatch table maps mangled names to the methods that implement them. The
order of the entries is the order of the slots at run time, so a slot, once
given to a name, never moves: a later method of the same name takes over the
slot, and a method of a new name gets the next one.
-/

namespace Lowering

/-- The slots of a class with the methods that fill them. -/
structure DispatchTable where
  entries : List (String × MethodRef) := []
  deriving DecidableEq

namespace DispatchTable

/-- Fills the method's slot with it. -/
def add (table : DispatchTable) (method : MethodRef) : DispatchTable :=
  { entries := Keyed.put method.mangledName method table.entries }

/-- Fills the slots of several methods in order. -/
def addAll (table : DispatchTable) (methods : List MethodRef) : DispatchTable :=
  methods.foldl add table

/-- The mangled names in slot order. -/
def names (table : DispatchTable) : List String :=
  Keyed.names table.entries

/-- The implementations in slot order. -/
def methods (table : DispatchTable) : List MethodRef :=
  table.entries.map (·.2)

/-- The slot of a method. -/
def slotOf (table : DispatchTable) (method : MethodRef) : Option Nat :=
  table.names.idxOf? method.mangledName

/-- The method that a call of the given one runs. -/
def implementation (table : DispatchTable) (method : MethodRef) : Option MethodRef :=
  table.entries.lookup method.mangledName

end DispatchTable

end Lowering
