import Lowering.Tree.Expr
import Lowering.Tree.Span

/-!
# Statements
-/

namespace Lowering

/-- Statements; each carries its source span. -/
inductive Stmt where
  /-- `e;` -/
  | expression (e : Expr) (span : Span)
  /-- `{ ... }` -/
  | block (statements : List Stmt) (span : Span)
  /-- `return e;` -/
  | returnValue (value : Option Expr) (span : Span)
  /-- `if (c) a else b` -/
  | conditional (condition : Expr) (whenTrue : Stmt) (whenFalse : Option Stmt) (span : Span)
  /-- `while (c) body` -/
  | whileLoop (condition : Expr) (body : Stmt) (span : Span)
  /-- `for (init; c; update) body`; without condition it loops forever. -/
  | forLoop (initializers : List Expr) (condition : Option Expr) (updates : List Expr)
      (body : Stmt) (span : Span)
  /-- `assert c : message;` -/
  | assertion (condition : Expr) (message : Option Expr) (span : Span)
  /-- `throw e;` -/
  | throwValue (value : Expr) (span : Span)

/-- The statement's source span. -/
def Stmt.span : Stmt → Span
  | expression _ span => span
  | block _ span => span
  | returnValue _ span => span
  | conditional _ _ _ span => span
  | whileLoop _ _ span => span
  | forLoop _ _ _ _ span => span
  | assertion _ _ span => span
  | throwValue _ span => span

/-- The body of a method, or the contents of a block statement. -/
structure Block where
  statements : List Stmt
  span : Span := {}

end Lowering
