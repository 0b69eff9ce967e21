/-!
# Scanning text

A scanner reads a value off the front of a list of characters and leaves the
rest. It may fail; a choice between scanners starts the second one where the
first one started.
-/

namespace Lowering

/-- Scanners of values. -/
abbrev Scan := StateT (List Char) Option

namespace Scan

/-- The next character, left in place. -/
def peek? : Scan (Option Char) := do
  let cs ← get
  pure cs.head?

/-- The next character, which has to satisfy the test. -/
def char (test : Char → Bool) : Scan Char := fun cs =>
  match cs with
  | c :: rest => if test c then some (c, rest) else none
  | [] => none

/-- The given characters. -/
def exactly (expected : List Char) : Scan Unit := fun cs =>
  if expected.isPrefixOf cs then some ((), cs.drop expected.length) else none

/-- All characters up to the first one that fails the test. -/
def takeWhile (test : Char → Bool) : Scan (List Char) := fun cs =>
  some (cs.takeWhile test, cs.dropWhile test)

/-- The end of the text. -/
def endOfText : Scan Unit := fun cs =>
  if cs.isEmpty then some ((), []) else none

/-- A value that may be absent. -/
def optional {α : Type} (value : Scan α) : Scan (Option α) :=
  (do
    let a ← value
    pure (some a)) <|> pure none

/-- At most the given number of values in a row, up to the first failure. -/
def upTo {α : Type} (value : Scan α) : Nat → Scan (List α)
  | 0 => pure []
  | n + 1 => do
    match ← optional value with
    | none => pure []
    | some a =>
      let rest ← upTo value n
      pure (a :: rest)

/-- Values in a row up to the first failure. Each value has to take a character. -/
def many {α : Type} (value : Scan α) : Scan (List α) := do
  let cs ← get
  upTo value cs.length

/-- One value or more, with separators between them. -/
def separated {α β : Type} (value : Scan α) (separator : Scan β) : Scan (List α) := do
  let first ← value
  let rest ← many do
    let _ ← separator
    value
  pure (first :: rest)

/-- The value of a whole text. -/
def run {α : Type} (value : Scan α) (text : String) : Option α :=
  (do
    let a ← value
    endOfText
    pure a : Scan α).run' text.toList

end Scan

/-! ## Digits -/

/-- A decimal digit. -/
def isDecimal (c : Char) : Bool := '0' ≤ c && c ≤ '9'

/-- The value of a hexadecimal digit. -/
def hexValue? (c : Char) : Option Nat :=
  if '0' ≤ c && c ≤ '9' then some (c.toNat - '0'.toNat)
  else if 'a' ≤ c && c ≤ 'f' then some (c.toNat - 'a'.toNat + 10)
  else if 'A' ≤ c && c ≤ 'F' then some (c.toNat - 'A'.toNat + 10)
  else none

/-- The number that digits denote in a base, most significant digit first. -/
def digitsValue? (base : Nat) (digits : List Char) : Option Nat :=
  digits.foldlM (fun n c => do
    let d ← hexValue? c
    if d < base then some (n * base + d) else none) 0

/-- The character of a Unicode scalar value; surrogates denote none. -/
def scalar? (n : Nat) : Option Char :=
  if n < 0xD800 || (0xE000 ≤ n && n ≤ 0x10FFFF) then some (Char.ofNat n) else none

end Lowering
