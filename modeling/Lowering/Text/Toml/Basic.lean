/-!
# TOML values

The values that a TOML document is made of. Numbers with a fraction or exponent
and points in time are kept as they are spelled.
-/

namespace Lowering.Toml

/-- TOML values; tables keep the order of their entries. -/
inductive Value where
  | string (text : String)
  | integer (n : Int)
  | float (lexeme : String)
  | boolean (value : Bool)
  | datetime (lexeme : String)
  | array (items : List Value)
  | table (entries : List (String × Value))

end Lowering.Toml
