import Lowering.Text.Toml.Basic
import Lowering.Text.Scan

/-!
# Numbers and points in time of TOML

Integers have 64 bits. Digits may be grouped by single underscores. Dates have
to exist: February has 29 days in leap years only.
-/

namespace Lowering.Toml

/-! ## Digits -/

/-- Digits grouped by underscores; the underscores are left out. -/
def groupedDigits (isDigit : Char → Bool) : Scan (List Char) := do
  let first ← Scan.char isDigit
  let rest ← Scan.many (Scan.char isDigit <|> (do
    let _ ← Scan.char (· = '_')
    Scan.char isDigit))
  pure (first :: rest)

/-- A sign; `true` stands for minus. -/
def sign : Scan Bool := do
  match ← Scan.optional (Scan.char fun c => c = '+' || c = '-') with
  | some '-' => pure true
  | _ => pure false

/-- Decimal digits without leading zero. -/
def decimalDigits : Scan (List Char) := do
  match ← Scan.peek? with
  | some '0' =>
    let zero ← Scan.char (· = '0')
    pure [zero]
  | _ => groupedDigits isDecimal

/-! ## Integers -/

/-- The integers of 64 bits. -/
def isInt64 (n : Int) : Bool :=
  -9223372036854775808 ≤ n && n ≤ 9223372036854775807

/-- An integer of 64 bits, as a value. -/
def integerValue (negative : Bool) (base : Nat) (digits : List Char) : Scan Value := do
  let n ← (digitsValue? base digits : Option Nat)
  let n : Int := if negative then -n else n
  if isInt64 n then pure (.integer n) else failure

/-- An integer in a base that its first two characters announce. -/
def basedInteger (mark : Char) (base : Nat) : Scan Value := do
  Scan.exactly ['0', mark]
  let digits ← groupedDigits fun c => ((hexValue? c).map (decide <| · < base)).getD false
  integerValue false base digits

/-- A decimal integer. -/
def decimalInteger : Scan Value := do
  let negative ← sign
  let digits ← decimalDigits
  integerValue negative 10 digits

/-- An integer in any notation. -/
def integer : Scan Value :=
  basedInteger 'x' 16 <|> basedInteger 'o' 8 <|> basedInteger 'b' 2 <|> decimalInteger

/-! ## Numbers with fraction or exponent -/

/-- The least magnitude that rounds to infinity in double precision. -/
def overflowBound : Nat := Nat.pow 2 1024 - Nat.pow 2 970

/-- Whether `digits · 10 ^ exponent` is too large for double precision. The
number of digits decides all cases that are not close. -/
def overflows (digits : List Char) (exponent : Int) : Bool :=
  let digits := digits.dropWhile (· = '0')
  let size : Int := digits.length + exponent
  if digits.isEmpty || size < 300 then false
  else if 320 < size then true
  else
    let n := (digitsValue? 10 digits).getD 0
    if 0 ≤ exponent then overflowBound ≤ n * Nat.pow 10 exponent.toNat
    else overflowBound * Nat.pow 10 (-exponent).toNat ≤ n

/-- The digits after a point. -/
def fraction : Scan (List Char) := do
  Scan.exactly ['.']
  groupedDigits isDecimal

/-- An exponent. -/
def exponent : Scan Int := do
  let _ ← Scan.char fun c => c = 'e' || c = 'E'
  let negative ← sign
  let digits ← groupedDigits isDecimal
  let n ← (digitsValue? 10 digits : Option Nat)
  pure (if negative then -n else n)

/-- A finite number with a fraction, an exponent or both. A positive number must
not be too large for double precision. -/
def finiteFloat : Scan Unit := do
  let negative ← sign
  let whole ← decimalDigits
  let decimals ← Scan.optional fraction
  let power ← Scan.optional exponent
  if decimals.isNone && power.isNone then failure
  let decimals := decimals.getD []
  if !negative && overflows (whole ++ decimals) (power.getD 0 - decimals.length) then failure

/-- Infinity, or what is not a number. -/
def specialFloat : Scan Unit := do
  let _ ← sign
  Scan.exactly ['i', 'n', 'f'] <|> Scan.exactly ['n', 'a', 'n']

/-- What a scanner reads, as it is spelled. -/
def spelled (scan : Scan Unit) : Scan String := do
  let before ← get
  scan
  let after ← get
  pure (.ofList (before.take (before.length - after.length)))

/-- A number that is no integer. -/
def float : Scan Value := do
  let lexeme ← spelled (finiteFloat <|> specialFloat)
  pure (.float lexeme)

/-! ## Points in time -/

/-- A number of exactly the given count of digits within a range. -/
def boundedNumber (count least greatest : Nat) : Scan Nat := do
  let cs ← get
  let digits := cs.take count
  if digits.length = count && digits.all isDecimal then
    set (cs.drop count)
    let n ← (digitsValue? 10 digits : Option Nat)
    if least ≤ n && n ≤ greatest then pure n else failure
  else failure

/-- Whether the year has a 29th of February. -/
def isLeapYear (year : Nat) : Bool :=
  (year % 4 = 0 && year % 100 != 0) || year % 400 = 0

/-- The number of days of a month. -/
def daysIn (year month : Nat) : Nat :=
  if month = 2 then (if isLeapYear year then 29 else 28)
  else if month ∈ [4, 6, 9, 11] then 30
  else 31

/-- A date. -/
def date : Scan Unit := do
  let year ← boundedNumber 4 0 9999
  Scan.exactly ['-']
  let month ← boundedNumber 2 1 12
  Scan.exactly ['-']
  let _ ← boundedNumber 2 1 (daysIn year month)

/-- A time of day; the last minute of a day may have a leap second. -/
def time : Scan Unit := do
  let _ ← boundedNumber 2 0 23
  Scan.exactly [':']
  let _ ← boundedNumber 2 0 59
  Scan.exactly [':']
  let _ ← boundedNumber 2 0 60
  let _ ← Scan.optional do
    Scan.exactly ['.']
    let _ ← Scan.char isDecimal
    Scan.takeWhile isDecimal

/-- The offset of a time from universal time. -/
def offset : Scan Unit :=
  (do
    let _ ← Scan.char fun c => c = 'Z' || c = 'z') <|>
  (do
    let _ ← Scan.char fun c => c = '+' || c = '-'
    let _ ← boundedNumber 2 0 23
    Scan.exactly [':']
    let _ ← boundedNumber 2 0 59)

/-- A date, a date with a time, or a time. -/
def pointInTime : Scan Unit :=
  (do
    date
    let _ ← Scan.optional do
      let _ ← Scan.char fun c => c = 'T' || c = 't' || c = ' '
      time
      let _ ← Scan.optional offset) <|>
  time

/-- A point in time, as a value. -/
def datetime : Scan Value := do
  let lexeme ← spelled pointInTime
  pure (.datetime lexeme)

end Lowering.Toml
