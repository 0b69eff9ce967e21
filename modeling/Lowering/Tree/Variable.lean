import Lowering.Type.Basic

/-!
# Local variables

A variable is told apart from all others by its identity alone: two references
mean the same variable exactly when their identities agree, whatever else they
say about it. New identities come from a supply. Supplies of different origin
never hand out the same identity, so work on separate units needs no common
counter.
-/

namespace Lowering

/-- The identity of a variable: the supply it came from and its number there. -/
structure VariableId where
  origin : Nat := 0
  serial : Nat
  deriving DecidableEq

/-- The text of an identity; variables of the source program have origin zero. -/
def VariableId.display (id : VariableId) : String :=
  if id.origin = 0 then "v" ++ toString id.serial
  else "v" ++ toString id.origin ++ "." ++ toString id.serial

/-- A local variable or parameter. -/
structure Variable where
  id : VariableId
  name : String
  type : Ty
  isFinal : Bool := false
  isParameter : Bool := false

/-- Variables are compared by identity. -/
def Variable.sameAs (v w : Variable) : Bool := v.id == w.id

instance : BEq Variable := ⟨Variable.sameAs⟩

/-- A source of new identities. -/
structure Supply where
  origin : Nat
  next : Nat := 0
  deriving DecidableEq

/-- A new final variable, and the supply after it. -/
def Supply.fresh (supply : Supply) (name : String) (type : Ty) : Variable × Supply :=
  ({ id := { origin := supply.origin, serial := supply.next }, name, type, isFinal := true },
    { supply with next := supply.next + 1 })

end Lowering
