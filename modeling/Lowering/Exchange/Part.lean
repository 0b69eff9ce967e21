import Lowering.Text.Json.Reader

/-!
# Parts of exchanged objects

The exchange format carries types, members and program trees between this
library and other tools as JSON. Its objects are read part by part: a part that
is absent and one that is `null` mean the same, and parts that are not asked for
are skipped. What is missing or of the wrong kind makes the whole unreadable.
-/

namespace Lowering.Json

/-- The part of an object with the given key. -/
def get? (j : Json) (key : String) : Option Json :=
  match j with
  | object members =>
    match members.lookup key with
    | some null => none
    | found => found
  | _ => none

/-- A part that has to be there. -/
def required {α : Type} (j : Json) (key : String) (read : Json → Option α) : Option α :=
  (j.get? key).bind read

/-- A part that may be absent. -/
def optional {α : Type} (j : Json) (key : String) (read : Json → Option α) : Option (Option α) :=
  (j.get? key).mapM read

/-- A part with a default. -/
def withDefault {α : Type} (j : Json) (key : String) (default : α) (read : Json → Option α) :
    Option α :=
  (j.optional key read).map (·.getD default)

/-- A part that is a list; an absent list is empty. -/
def listOf {α : Type} (j : Json) (key : String) (read : Json → Option α) : Option (List α) := do
  match j.get? key with
  | none => pure []
  | some part =>
    let items ← part.items?
    items.mapM read

/-- A truth value. -/
def truth? : Json → Option Bool
  | bool value => some value
  | _ => none

/-- A natural number, spelled with digits alone. -/
def nat? : Json → Option Nat
  | number lexeme => digitsValue? 10 lexeme.toList
  | _ => none

/-- A flag that is unset by default. -/
def flag (j : Json) (key : String) : Option Bool :=
  j.withDefault key false truth?

/-- One of several named values. -/
def oneOf {α : Type} (j : Json) (choices : List α) (name : α → String) : Option α := do
  let text ← j.text?
  choices.find? (name · == text)

mutual

/-- How deep a value is nested. -/
def depth : Json → Nat
  | array items => depthOfItems items + 1
  | object members => depthOfMembers members + 1
  | _ => 1
termination_by structural json => json

def depthOfItems : List Json → Nat
  | [] => 0
  | item :: items => max item.depth (depthOfItems items)
termination_by structural items => items

def depthOfMembers : List (String × Json) → Nat
  | [] => 0
  | (_, value) :: members => max value.depth (depthOfMembers members)
termination_by structural members => members

end

/-! ## Writing -/

/-- A member that is written only when it holds. -/
def flagMember (key : String) (value : Bool) : List (String × Json) :=
  if value then [(key, bool true)] else []

/-- A number. -/
def ofNat (n : Nat) : Json := number (toString n)

/-- An optional value, `null` when it is absent. -/
def ofOption {α : Type} (write : α → Json) : Option α → Json
  | none => null
  | some a => write a

/-- A list of values. -/
def ofList {α : Type} (write : α → Json) (items : List α) : Json :=
  array (items.map write)

end Lowering.Json
