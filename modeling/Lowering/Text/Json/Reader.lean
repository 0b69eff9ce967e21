import Lowering.Text.Json.Basic
import Lowering.Text.Scan

/-!
# Reading JSON

`Json.parse?` reads one value with blanks around it. A text may name a character
outside the basic plane by two escapes, one for each half of a surrogate pair; a
half on its own makes the text unreadable, which is an error only where the text
is needed.
-/

namespace Lowering.Json

/-! ## Texts -/

/-- A part of a quoted text: a character, or a UTF-16 unit given by an escape. -/
inductive Piece where
  | char (c : Char)
  | unit (n : Nat)

/-- The parts of a quoted text after the opening quote, and what follows the
closing one. -/
def pieces : List Char → Option (List Piece × List Char)
  | '"' :: rest => some ([], rest)
  | '\\' :: 'u' :: a :: b :: c :: d :: rest => do
    let n ← digitsValue? 16 [a, b, c, d]
    let (ps, rest) ← pieces rest
    pure (.unit n :: ps, rest)
  | '\\' :: c :: rest => do
    let c ← escaped? c
    let (ps, rest) ← pieces rest
    pure (.char c :: ps, rest)
  | c :: rest => do
    if c = '\\' || c.toNat < 32 then none
    else
      let (ps, rest) ← pieces rest
      pure (.char c :: ps, rest)
  | [] => none
where
  /-- The character that a one-letter escape stands for. -/
  escaped? : Char → Option Char
    | '"' => some '"'
    | '\\' => some '\\'
    | '/' => some '/'
    | 'b' => some (Char.ofNat 8)
    | 'f' => some (Char.ofNat 12)
    | 'n' => some '\n'
    | 'r' => some '\r'
    | 't' => some '\t'
    | _ => none

def isHighSurrogate (n : Nat) : Bool := 0xD800 ≤ n && n < 0xDC00

def isLowSurrogate (n : Nat) : Bool := 0xDC00 ≤ n && n < 0xE000

/-- The characters of a text, if every surrogate has its partner. -/
def assemble : List Piece → Option (List Char)
  | [] => some []
  | .char c :: rest => do
    let cs ← assemble rest
    pure (c :: cs)
  | .unit n :: rest =>
    if isHighSurrogate n then
      match rest with
      | .unit low :: rest => do
        if isLowSurrogate low then
          let cs ← assemble rest
          pure (Char.ofNat (0x10000 + (n - 0xD800) * 0x400 + (low - 0xDC00)) :: cs)
        else none
      | _ => none
    else do
      let c ← scalar? n
      let cs ← assemble rest
      pure (c :: cs)

/-- A quoted text after its opening quote; `none` when it is unreadable. -/
def quotedText : Scan (Option String) := do
  let ps ← (pieces : Scan (List Piece))
  pure ((assemble ps).map String.ofList)

/-! ## Numbers -/

/-- At least one decimal digit. -/
def decimals : Scan (List Char) := do
  let first ← Scan.char isDecimal
  let rest ← Scan.takeWhile isDecimal
  pure (first :: rest)

/-- The part of a number before the point. -/
def wholePart : Scan (List Char) := do
  match ← Scan.char isDecimal with
  | '0' => pure ['0']
  | first =>
    let rest ← Scan.takeWhile isDecimal
    pure (first :: rest)

/-- A point and digits. -/
def fractionPart : Scan (List Char) := do
  let point ← Scan.char (· = '.')
  let digits ← decimals
  pure (point :: digits)

/-- The mark of an exponent, its sign and digits. -/
def exponentPart : Scan (List Char) := do
  let mark ← Scan.char fun c => c = 'e' || c = 'E'
  let sign ← Scan.optional (Scan.char fun c => c = '+' || c = '-')
  let digits ← decimals
  pure (mark :: sign.toList ++ digits)

/-- A number as it is spelled. -/
def numberText : Scan String := do
  let sign ← Scan.optional (Scan.char (· = '-'))
  let whole ← wholePart
  let fraction ← Scan.optional fractionPart
  let exponent ← Scan.optional exponentPart
  pure (.ofList (sign.toList ++ whole ++ fraction.getD [] ++ exponent.getD []))

/-! ## Values -/

/-- Blanks between the parts of a value. -/
def blanks : Scan Unit := do
  let _ ← Scan.takeWhile fun c => c = ' ' || c = '\n' || c = '\r' || c = '\t'

/-- The object of the given members, unless a key is unreadable. -/
def ofMembers (members : List (Option String × Json)) : Json :=
  match members.mapM fun (key, value) => key.map (·, value) with
  | some members => object members
  | none => unreadable

/-- A value without blanks around it, its parts nested at most to the given
depth. -/
def value : Nat → Scan Json
  | 0 => failure
  | depth + 1 => do
    match ← Scan.peek? with
    | some '"' => do
      let _ ← Scan.char (· = '"')
      match ← quotedText with
      | some text => pure (string text)
      | none => pure unreadable
    | some '[' => do
      let _ ← Scan.char (· = '[')
      blanks
      let items ← (do
        let items ← Scan.separated (do
          blanks
          let item ← value depth
          blanks
          pure item) (Scan.char (· = ','))
        pure items) <|> pure []
      let _ ← Scan.char (· = ']')
      pure (array items)
    | some '\x7b' => do
      let _ ← Scan.char (· = '\x7b')
      blanks
      let members ← (do
        let members ← Scan.separated (do
          blanks
          let _ ← Scan.char (· = '"')
          let key ← quotedText
          blanks
          let _ ← Scan.char (· = ':')
          blanks
          let item ← value depth
          blanks
          pure (key, item)) (Scan.char (· = ','))
        pure members) <|> pure []
      let _ ← Scan.char (· = '\x7d')
      pure (ofMembers members)
    | some 't' => do
      Scan.exactly ['t', 'r', 'u', 'e']
      pure (bool true)
    | some 'f' => do
      Scan.exactly ['f', 'a', 'l', 's', 'e']
      pure (bool false)
    | some 'n' => do
      Scan.exactly ['n', 'u', 'l', 'l']
      pure null
    | _ => do
      let lexeme ← numberText
      pure (number lexeme)

/-- The value that a text consists of. A text nests no deeper than it is long. -/
def parse? (text : String) : Option Json :=
  Scan.run (do
    blanks
    let json ← value (text.length + 1)
    blanks
    pure json) text

/-! ## Typed parts -/

/-- The text that a value is. -/
def text? : Json → Option String
  | string text => some text
  | _ => none

/-- The items of an array. -/
def items? : Json → Option (List Json)
  | array items => some items
  | _ => none

/-- A number of 32 bits, spelled with digits alone. -/
def word32? : Json → Option UInt32
  | number lexeme => do
    let n ← digitsValue? 10 lexeme.toList
    if n < 4294967296 then some (UInt32.ofNat n) else none
  | _ => none

/-- A part that may be missing or `null`. -/
def absentOr {α : Type} (read : Json → Option α) : Option Json → Option (Option α)
  | none => some none
  | some null => some none
  | some json => (read json).map some

/-- The parts of a record with the given field names. An object gives them by
name: other members are skipped, a field given twice is an error. An array gives
all of them by position. -/
def fields? (names : List String) : Json → Option (List (Option Json))
  | object members =>
    let given := (members.map (·.1)).filter (· ∈ names)
    if given.Nodup then some (names.map fun name => members.lookup name) else none
  | array items => if items.length = names.length then some (items.map some) else none
  | _ => none

end Lowering.Json
