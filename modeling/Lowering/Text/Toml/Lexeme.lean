import Lowering.Text.Scan

/-!
# Blanks, keys and strings of TOML

The four forms of strings, bare and quoted keys, dotted keys, comments and line
ends. Control characters stand nowhere but in escapes; a tab counts as a blank.
-/

namespace Lowering.Toml

/-! ## Blanks and line ends -/

def isBlank (c : Char) : Bool := c = ' ' || c = '\t'

/-- Spaces and tabs. -/
def blanks : Scan Unit := do
  let _ ← Scan.takeWhile isBlank

/-- The end of a line, with or without a carriage return. -/
def lineEnd : Scan Unit :=
  Scan.exactly ['\n'] <|> Scan.exactly ['\r', '\n']

/-- Characters that may stand in a comment: all but control characters. -/
def isCommentChar (c : Char) : Bool :=
  c = '\t' || (' ' ≤ c && c != Char.ofNat 127)

/-- A comment up to the end of its line. -/
def comment : Scan Unit := do
  let _ ← Scan.char (· = '#')
  let _ ← Scan.takeWhile isCommentChar

/-- What may follow a header or an entry on its line. -/
def lineRest : Scan Unit := do
  blanks
  let _ ← Scan.optional comment
  lineEnd <|> Scan.endOfText

/-- Blanks, comments and line ends between the items of an array. -/
def gaps : Scan Unit := do
  let _ ← Scan.many do
    (do
      let _ ← Scan.char isBlank) <|>
    (do
      let _ ← Scan.optional comment
      lineEnd)

/-! ## Strings on one line -/

/-- Characters that stand for themselves between double quotes. -/
def isBasicChar (c : Char) : Bool :=
  isCommentChar c && c != '"' && c != '\\'

/-- Characters that stand for themselves between single quotes. -/
def isLiteralChar (c : Char) : Bool :=
  isCommentChar c && c != '\''

/-- The character that a one-letter escape stands for. -/
def escaped? : Char → Option Char
  | 'b' => some (Char.ofNat 8)
  | 't' => some '\t'
  | 'n' => some '\n'
  | 'f' => some (Char.ofNat 12)
  | 'r' => some '\r'
  | '"' => some '"'
  | '\\' => some '\\'
  | _ => none

/-- The character that hexadecimal digits name. -/
def named? (digits : List Char) : Option Char := do
  let n ← digitsValue? 16 digits
  scalar? n

/-- An escape, its backslash included. -/
def escape : Scan Char := do
  Scan.exactly ['\\']
  let cs ← get
  match cs with
  | 'u' :: a :: b :: c :: d :: rest => do
    set rest
    (named? [a, b, c, d] : Option Char)
  | 'U' :: a :: b :: c :: d :: e :: f :: g :: h :: rest => do
    set rest
    (named? [a, b, c, d, e, f, g, h] : Option Char)
  | c :: rest => do
    set rest
    (escaped? c : Option Char)
  | [] => failure

/-- A string in double quotes. -/
def basicString : Scan (List Char) := do
  Scan.exactly ['"']
  let cs ← Scan.many (Scan.char isBasicChar <|> escape)
  Scan.exactly ['"']
  pure cs

/-- A string in single quotes, without escapes. -/
def literalString : Scan (List Char) := do
  Scan.exactly ['\'']
  let cs ← Scan.takeWhile isLiteralChar
  Scan.exactly ['\'']
  pure cs

/-! ## Strings over several lines -/

/-- A line end inside a string, read as a single line feed. -/
def innerLineEnd : Scan (List Char) := do
  lineEnd
  pure ['\n']

/-- A backslash at the end of a line, which joins the line to the next text. -/
def lineJoin : Scan (List Char) := do
  Scan.exactly ['\\']
  blanks
  lineEnd
  let _ ← Scan.many ((do
    let _ ← Scan.char isBlank) <|> lineEnd)
  pure []

/-- One or two quotes that do not end the string. -/
def innerQuotes (quote : Char) : Scan (List Char) := do
  let cs ← get
  match cs with
  | a :: b :: c :: _ =>
    if a = quote && b = quote && c != quote then do
      Scan.exactly [quote, quote]
      pure [quote, quote]
    else if a = quote && b != quote then do
      Scan.exactly [quote]
      pure [quote]
    else failure
  | _ => failure

/-- The three quotes that end a string, after at most two that belong to it. -/
def closingQuotes (quote : Char) : Scan (List Char) :=
  (do
    Scan.exactly [quote, quote, quote, quote, quote]
    pure [quote, quote]) <|>
  (do
    Scan.exactly [quote, quote, quote, quote]
    pure [quote]) <|>
  (do
    Scan.exactly [quote, quote, quote]
    pure [])

/-- A string between three quotes on each side. A line end right after the
opening quotes does not belong to it. -/
def multiline (quote : Char) (part : Scan (List Char)) : Scan (List Char) := do
  Scan.exactly [quote, quote, quote]
  let _ ← Scan.optional lineEnd
  let parts ← Scan.many (part <|> innerLineEnd <|> innerQuotes quote)
  let last ← closingQuotes quote
  pure (parts.flatten ++ last)

/-- A part of a string that is one character. -/
def single (char : Scan Char) : Scan (List Char) := do
  let c ← char
  pure [c]

/-- A multi-line string with escapes. -/
def multilineBasic : Scan (List Char) :=
  multiline '"' (single (Scan.char isBasicChar) <|> lineJoin <|> single escape)

/-- A multi-line string without escapes. -/
def multilineLiteral : Scan (List Char) :=
  multiline '\'' (single (Scan.char isLiteralChar))

/-- A string of any form. -/
def anyString : Scan (List Char) := do
  let cs ← get
  match cs with
  | '"' :: '"' :: '"' :: _ => multilineBasic
  | '"' :: _ => basicString
  | '\'' :: '\'' :: '\'' :: _ => multilineLiteral
  | _ => literalString

/-! ## Keys -/

def isBareKeyChar (c : Char) : Bool :=
  c.isAlphanum || c = '-' || c = '_'

/-- A bare or quoted key. -/
def simpleKey : Scan String := do
  match ← Scan.peek? with
  | some '"' =>
    let cs ← basicString
    pure (.ofList cs)
  | some '\'' =>
    let cs ← literalString
    pure (.ofList cs)
  | _ =>
    let first ← Scan.char isBareKeyChar
    let rest ← Scan.takeWhile isBareKeyChar
    pure (.ofList (first :: rest))

/-- The greatest nesting of values, and the greatest length of a dotted key. -/
def nestingLimit : Nat := 79

/-- Keys with dots between them; blanks around each are skipped. -/
def dottedKey : Scan (List String) := do
  let path ← Scan.separated (do
    blanks
    let key ← simpleKey
    blanks
    pure key) (Scan.char (· = '.'))
  if path.length ≤ nestingLimit then pure path else failure

end Lowering.Toml
