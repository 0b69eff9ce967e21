import Lowering.Tree.Decl

/-!
# Conversion sites

A conversion site is a place where a value flows into a slot that has a type of
its own: an assignment, an initializer, an argument, a return value, an operand
that has to be a plain number, a receiver that has to exist. A handler is told
of every site and may put another expression in the value's place.

At a slot two types matter. The inferred type is the slot's type at this place;
the declared type is the one that the unspecialized declaration gives it.
-/

namespace Lowering

/-- Where in the program a conversion happens. -/
structure Site where
  /-- The span of the innermost enclosing statement or declaration. -/
  span : Span := {}
  enclosingType : Option ClassRef := none
  enclosingMethod : Option MethodRef := none
  deriving DecidableEq

/-- What to do with the values at conversion sites. Both hooks default to leaving
the value as it is. -/
structure Handler (m : Type → Type) [Monad m] where
  /-- A value that flows into a slot of the inferred and the declared type. -/
  onSlot : (inferred declared : Ty) → Expr → Site → m Expr := fun _ _ value _ => pure value
  /-- A value that is dereferenced, thrown or unboxed, so that it must not be
  null. -/
  onNonNull : (inferred declared : Ty) → Expr → Site → m Expr := fun _ _ value _ => pure value

/-- The state of a traversal over conversion sites. -/
structure Cursor where
  /-- The present place in the program. -/
  site : Site := {}
  /-- The spans to return to when the open statements end, innermost first. -/
  outerSpans : List Span := []
  /-- Where temporaries get their identities. -/
  supply : Supply
  deriving DecidableEq

namespace Cursor

/-- Enters a type. -/
def enterType (c : Cursor) (d : TypeDecl) : Cursor :=
  { c with site := { c.site with enclosingType := some d.ref, span := d.span } }

/-- Leaves a type. -/
def exitType (c : Cursor) : Cursor :=
  { c with site := { c.site with enclosingType := none } }

/-- Enters a field. -/
def enterField (c : Cursor) (f : FieldDecl) : Cursor :=
  { c with site := { c.site with span := f.span } }

/-- Enters a method. -/
def enterMethod (c : Cursor) (d : MethodDecl) : Cursor :=
  { c with site := { c.site with enclosingMethod := some d.ref, span := d.span } }

/-- Leaves a method. -/
def exitMethod (c : Cursor) : Cursor :=
  { c with site := { c.site with enclosingMethod := none } }

/-- Enters a statement. -/
def enterStatement (c : Cursor) (s : Stmt) : Cursor :=
  { c with site := { c.site with span := s.span }, outerSpans := c.site.span :: c.outerSpans }

/-- Leaves a statement and returns to the span around it. -/
def exitStatement (c : Cursor) : Cursor :=
  match c.outerSpans with
  | [] => c
  | span :: outerSpans => { c with site := { c.site with span }, outerSpans }

/-- Takes a new final variable from the supply. -/
def fresh (c : Cursor) (name : String) (type : Ty) : Variable × Cursor :=
  let (v, supply) := c.supply.fresh name type
  (v, { c with supply })

end Cursor

end Lowering
