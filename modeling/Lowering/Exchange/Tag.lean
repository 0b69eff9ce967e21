import Lowering.Tree.Stmt

/-!
# Tags of tree nodes

The words by which the exchange format tells operators and kinds of nodes apart.
-/

namespace Lowering

def BinaryOp.name : BinaryOp → String
  | plus => "Plus"
  | minus => "Minus"
  | times => "Times"
  | divide => "Divide"
  | remainder => "Remainder"
  | equals => "Equals"
  | notEquals => "NotEquals"
  | less => "Less"
  | lessEquals => "LessEquals"
  | greater => "Greater"
  | greaterEquals => "GreaterEquals"
  | conditionalAnd => "ConditionalAnd"
  | conditionalOr => "ConditionalOr"
  | assign => "Assign"
  | plusAssign => "PlusAssign"
  | minusAssign => "MinusAssign"

def UnaryOp.name : UnaryOp → String
  | plus => "Plus"
  | minus => "Minus"
  | not => "Not"
  | increment => "Increment"
  | decrement => "Decrement"

/-- The kind of an expression. -/
def Expr.tag : Expr → String
  | nullLiteral _ => "null"
  | boolLiteral .. => "bool"
  | numberLiteral (.integer _) _ => "int"
  | numberLiteral (.double _) _ => "float"
  | stringLiteral .. => "str"
  | thisRef _ => "this"
  | varRef _ => "var"
  | fieldAccess .. => "field"
  | call .. => "call"
  | newInstance .. => "new"
  | binary .. => "bin"
  | unary .. => "un"
  | cast .. => "cast"
  | conditional .. => "cond"
  | notNull _ => "notnull"
  | multi _ => "multi"
  | declare _ => "decl"

/-- The kind of a statement. -/
def Stmt.tag : Stmt → String
  | expression .. => "expr"
  | block .. => "block"
  | returnValue .. => "return"
  | conditional .. => "if"
  | whileLoop .. => "while"
  | forLoop .. => "for"
  | assertion .. => "assert"
  | throwValue .. => "throw"

end Lowering
