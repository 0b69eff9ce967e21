/-!
# JSON values and their written forms

`Json.pretty` writes a value over several lines with an indent of two spaces per
level, `Json.compact` on one line without blanks. Members keep their order.
-/

namespace Lowering

/-- JSON values. -/
inductive Json where
  | null
  | bool (value : Bool)
  /-- A number, as it is spelled. -/
  | number (lexeme : String)
  | string (text : String)
  | array (items : List Json)
  | object (members : List (String × Json))
  /-- A text that names half of a surrogate pair, or an object with such a text
  as a key. It has no characters and can only be skipped. -/
  | unreadable

namespace Json

/-- A hexadecimal digit in lower case. -/
def hexDigit (n : Nat) : Char :=
  if n < 10 then Char.ofNat ('0'.toNat + n) else Char.ofNat ('a'.toNat + (n - 10))

/-- A character of a quoted text: quotes, backslashes and control characters are
written as escapes. -/
def escape (c : Char) : List Char :=
  if c = '"' then ['\\', '"']
  else if c = '\\' then ['\\', '\\']
  else if c = '\n' then ['\\', 'n']
  else if c = '\r' then ['\\', 'r']
  else if c = '\t' then ['\\', 't']
  else if c.toNat = 8 then ['\\', 'b']
  else if c.toNat = 12 then ['\\', 'f']
  else if c.toNat < 32 then ['\\', 'u', '0', '0', hexDigit (c.toNat / 16), hexDigit (c.toNat % 16)]
  else [c]

/-- A text in quotes. -/
def quote (text : String) : String :=
  .ofList ('"' :: text.toList.flatMap escape ++ ['"'])

/-- The start of a line on the given level. -/
def lineStart (level : Nat) : String :=
  .ofList ('\n' :: List.replicate (2 * level) ' ')

mutual

/-- The value written from the given level on. -/
def prettyAt (level : Nat) : Json → String
  | null => "null"
  | bool true => "true"
  | bool false => "false"
  | number lexeme => lexeme
  | string text => quote text
  | array [] => "[]"
  | array (item :: items) =>
    "[" ++ lineStart (level + 1) ++ prettyAt (level + 1) item ++
      prettyItems (level + 1) items ++ lineStart level ++ "]"
  | object [] => "\x7b\x7d"
  | object ((key, value) :: members) =>
    "\x7b" ++ lineStart (level + 1) ++ quote key ++ ": " ++ prettyAt (level + 1) value ++
      prettyMembers (level + 1) members ++ lineStart level ++ "\x7d"
  | unreadable => "null"
termination_by structural json => json

/-- The items after the first one. -/
def prettyItems (level : Nat) : List Json → String
  | [] => ""
  | item :: items => "," ++ lineStart level ++ prettyAt level item ++ prettyItems level items
termination_by structural items => items

/-- The members after the first one. -/
def prettyMembers (level : Nat) : List (String × Json) → String
  | [] => ""
  | (key, value) :: members =>
    "," ++ lineStart level ++ quote key ++ ": " ++ prettyAt level value ++
      prettyMembers level members
termination_by structural members => members

end

/-- The value written over several lines. -/
def pretty (json : Json) : String := json.prettyAt 0

mutual

/-- The value written on one line. -/
def compact : Json → String
  | null => "null"
  | bool true => "true"
  | bool false => "false"
  | number lexeme => lexeme
  | string text => quote text
  | array items => "[" ++ String.intercalate "," (compactItems items) ++ "]"
  | object members => "\x7b" ++ String.intercalate "," (compactMembers members) ++ "\x7d"
  | unreadable => "null"
termination_by structural json => json

/-- The items, each on one line. -/
def compactItems : List Json → List String
  | [] => []
  | item :: items => item.compact :: compactItems items
termination_by structural items => items

/-- The members, each on one line. -/
def compactMembers : List (String × Json) → List String
  | [] => []
  | (key, value) :: members => (quote key ++ ":" ++ value.compact) :: compactMembers members
termination_by structural members => members

end

/-- A text or `null`. -/
def ofText? : Option String → Json
  | none => null
  | some text => string text

/-- A number or `null`. -/
def ofNat? : Option Nat → Json
  | none => null
  | some n => number (toString n)

end Json

end Lowering
