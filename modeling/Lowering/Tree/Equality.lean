import Lowering.Tree.Decl

/-!
# Structural equality of trees

Two trees are the same when they agree node by node. Variables count as the same
by identity alone, and number literals by numeric value; hence a tree that holds
a literal which is not a number differs even from itself. Everything else, spans
included, is compared in full.
-/

namespace Lowering

/-! ## Expressions -/

namespace Expr

mutual

/-- Structural equality of expressions. -/
def sameAs : Expr → Expr → Bool
  | nullLiteral t, nullLiteral t' => t == t'
  | boolLiteral b t, boolLiteral b' t' => b == b' && t == t'
  | numberLiteral n t, numberLiteral n' t' => n.sameAs n' && t == t'
  | stringLiteral s t, stringLiteral s' t' => s == s' && t == t'
  | thisRef t, thisRef t' => t == t'
  | varRef v, varRef v' => v == v'
  | fieldAccess q f, fieldAccess q' f' => sameOption q q' && f == f'
  | call q m as, call q' m' as' => sameOption q q' && m == m' && sameList as as'
  | newInstance m as, newInstance m' as' => m == m' && sameList as as'
  | binary op l r t, binary op' l' r' t' => op == op' && l.sameAs l' && r.sameAs r' && t == t'
  | unary op x e t, unary op' x' e' t' => op == op' && x == x' && e.sameAs e' && t == t'
  | cast t e, cast t' e' => t == t' && e.sameAs e'
  | conditional t c a b, conditional t' c' a' b' =>
    t == t' && c.sameAs c' && a.sameAs a' && b.sameAs b'
  | notNull e, notNull e' => e.sameAs e'
  | multi es, multi es' => sameList es es'
  | declare fs, declare fs' => sameFragments fs fs'
  | _, _ => false
termination_by structural e => e

def sameOption : Option Expr → Option Expr → Bool
  | none, none => true
  | some e, some e' => e.sameAs e'
  | _, _ => false
termination_by structural e => e

def sameList : List Expr → List Expr → Bool
  | [], [] => true
  | e :: es, e' :: es' => e.sameAs e' && sameList es es'
  | _, _ => false
termination_by structural es => es

def sameFragments : List (Fragment Expr) → List (Fragment Expr) → Bool
  | [], [] => true
  | ⟨v, e⟩ :: fs, ⟨v', e'⟩ :: fs' => v == v' && sameOption e e' && sameFragments fs fs'
  | _, _ => false
termination_by structural fs => fs

end

instance : BEq Expr := ⟨sameAs⟩

end Expr

/-! ## Statements -/

namespace Stmt

mutual

/-- Structural equality of statements. -/
def sameAs : Stmt → Stmt → Bool
  | expression e s, expression e' s' => e == e' && s == s'
  | block ss s, block ss' s' => sameList ss ss' && s == s'
  | returnValue e s, returnValue e' s' => Expr.sameOption e e' && s == s'
  | conditional c a b s, conditional c' a' b' s' =>
    c == c' && a.sameAs a' && sameOption b b' && s == s'
  | whileLoop c b s, whileLoop c' b' s' => c == c' && b.sameAs b' && s == s'
  | forLoop i c u b s, forLoop i' c' u' b' s' =>
    Expr.sameList i i' && Expr.sameOption c c' && Expr.sameList u u' && b.sameAs b' && s == s'
  | assertion c m s, assertion c' m' s' => c == c' && Expr.sameOption m m' && s == s'
  | throwValue e s, throwValue e' s' => e == e' && s == s'
  | _, _ => false
termination_by structural s => s

def sameOption : Option Stmt → Option Stmt → Bool
  | none, none => true
  | some s, some s' => s.sameAs s'
  | _, _ => false
termination_by structural s => s

def sameList : List Stmt → List Stmt → Bool
  | [], [] => true
  | s :: ss, s' :: ss' => s.sameAs s' && sameList ss ss'
  | _, _ => false
termination_by structural ss => ss

end

instance : BEq Stmt := ⟨sameAs⟩

end Stmt

/-! ## Declarations -/

instance : BEq Block := ⟨fun b c => b.statements == c.statements && b.span == c.span⟩

instance : BEq FieldDecl := ⟨fun f g =>
  f.ref == g.ref && f.initializer == g.initializer && f.span == g.span⟩

instance : BEq MethodDecl := ⟨fun m n =>
  m.ref == n.ref && m.parameters == n.parameters && m.body == n.body && m.span == n.span⟩

instance : BEq TypeDecl := ⟨fun d e =>
  d.ref == e.ref && d.superclass == e.superclass && d.interfaces == e.interfaces &&
    d.fields == e.fields && d.methods == e.methods && d.span == e.span⟩

instance : BEq CompilationUnit := ⟨fun u v => u.name == v.name && u.types == v.types⟩

end Lowering
