import Lowering.Text.Toml.Lexeme
import Lowering.Text.Toml.Number
import Lowering.Text.Toml.Table

/-!
# Reading TOML

`Toml.parse?` reads a document into its root table. The lines are read first;
then they are carried out in order on the table under construction.
-/

namespace Lowering.Toml

/-! ## Values -/

/-- The words `true` and `false`. -/
def boolean : Scan Value :=
  (do
    Scan.exactly ['t', 'r', 'u', 'e']
    pure (.boolean true)) <|>
  (do
    Scan.exactly ['f', 'a', 'l', 's', 'e']
    pure (.boolean false))

/-- A string as a value. -/
def stringValue : Scan Value := do
  let cs ← anyString
  pure (.string (.ofList cs))

/-- An array; a comma may follow the last item. -/
def array (item : Scan Value) : Scan Value := do
  Scan.exactly ['[']
  let items ← Scan.separated (do
    gaps
    let value ← item
    gaps
    pure value) (Scan.exactly [',']) <|> pure []
  let _ ← Scan.optional (if items.isEmpty then failure else Scan.exactly [','])
  gaps
  Scan.exactly [']']
  pure (.array items)

/-- A key with its value. -/
def pair (item : Scan Value) : Scan (List String × Value) := do
  let path ← dottedKey
  Scan.exactly ['=']
  blanks
  let value ← item
  pure (path, value)

/-- Adds a key with its value to a table. -/
def assignPair (entries : Entries) (entry : List String × Value) : Option Entries :=
  match entry.1.getLast? with
  | none => none
  | some key => assign entry.1.dropLast key (.leaf entry.2) entries

/-- A table on one line. -/
def inlineTable (item : Scan Value) : Scan Value := do
  Scan.exactly ['\x7b']
  let pairs ← Scan.separated (do
    let entry ← pair item
    blanks
    pure entry) (Scan.exactly [',']) <|> pure []
  blanks
  Scan.exactly ['\x7d']
  let entries ← (pairs.foldlM assignPair [] : Option Entries)
  pure (.table (entriesToValues entries))

/-- A value whose parts are nested at most to the given depth. -/
def value : Nat → Scan Value
  | 0 => atom
  | depth + 1 => atom <|> array (value depth) <|> inlineTable (value depth)
where
  /-- A value without parts. -/
  atom : Scan Value :=
    stringValue <|> boolean <|> datetime <|> float <|> integer

/-! ## Lines -/

/-- What a line of a document says. -/
inductive Line where
  /-- The line is blank or a comment. -/
  | blank
  /-- `[path.key]` -/
  | header (path : List String)
  /-- `[[path.key]]` -/
  | arrayHeader (path : List String)
  /-- `path.key = value` -/
  | entry (path : List String) (value : Value)

/-- The header of a table or of an element of an array. -/
def header : Scan Line :=
  (do
    Scan.exactly ['[', '[']
    let path ← dottedKey
    Scan.exactly [']', ']']
    pure (.arrayHeader path)) <|>
  (do
    Scan.exactly ['[']
    let path ← dottedKey
    Scan.exactly [']']
    pure (.header path))

/-- The content of a line. -/
def lineContent : Scan Line := do
  match ← Scan.peek? with
  | some '[' => header
  | some '#' | some '\n' | some '\r' => pure .blank
  | _ =>
    let (path, value) ← pair (value nestingLimit)
    pure (.entry path value)

/-- A line with its end. -/
def line : Scan Line := do
  blanks
  let content ← lineContent
  lineRest
  pure content

/-- All lines of a document. A mark of the byte order may stand before them. -/
def lines : Scan (List Line) := do
  let _ ← Scan.optional (Scan.exactly [Char.ofNat 0xFEFF])
  let ls ← Scan.many line
  blanks
  pure ls

/-! ## Documents -/

/-- A document under construction. -/
structure Builder where
  root : Entries := []
  /-- The table that entries go to. -/
  current : Entries := []
  /-- The name of that table; the root's is empty. -/
  path : List String := []
  /-- Whether the table is an element of an array. -/
  inArray : Bool := false

/-- Puts the table that is being filled into the document. -/
def Builder.close (b : Builder) : Option Entries :=
  match b.path.getLast? with
  | none => some b.current
  | some key =>
    if b.inArray then closeArray b.path.dropLast key b.current b.root
    else closeTable b.path.dropLast key b.current b.root

/-- Carries out a line. -/
def Builder.step (b : Builder) : Line → Option Builder
  | .blank => some b
  | .entry path value => do
    let current ← assignPair b.current (path, value)
    pure { b with current }
  | .header path => do
    let root ← b.close
    let key ← path.getLast?
    let (current, root) ← openTable path.dropLast key root
    pure { root, current, path, inArray := false }
  | .arrayHeader path => do
    let root ← b.close
    let key ← path.getLast?
    let root ← openArray path.dropLast key root
    pure { root, current := [], path, inArray := true }

/-- The root table of a document. -/
def parse? (text : String) : Option Value := do
  let ls ← Scan.run lines text
  let b ← ls.foldlM Builder.step {}
  let root ← b.close
  pure (.table (entriesToValues root))

end Lowering.Toml
