import Lowering.Tree.Decl

/-!
# Class summaries

A summary is what the layout of a class depends on: its supertypes, the fields
of its instances and the methods that are dispatched on it, in source order.
Initializers and method bodies have no part in it, so passes that change only
expressions leave summaries as they are.
-/

namespace Lowering

/-- A class or interface as layouts see it. -/
structure ClassSummary where
  ref : ClassRef
  superclass : Option ClassRef := none
  interfaces : List ClassRef := []
  /-- The instance fields that the class itself declares. -/
  fields : List FieldRef := []
  /-- The polymorphic methods that the class itself declares. -/
  methods : List MethodRef := []
  deriving DecidableEq

namespace ClassSummary

/-- A summary of the given members; static fields and methods that are not
polymorphic are left out. -/
def ofMembers (ref : ClassRef) (superclass : Option ClassRef) (interfaces : List ClassRef)
    (fields : List FieldRef) (methods : List MethodRef) : ClassSummary :=
  { ref, superclass, interfaces
    fields := fields.filter fun f => !f.isStatic
    methods := methods.filter (·.isPolymorphic) }

/-- The summary of a declaration. -/
def ofDecl (d : TypeDecl) : ClassSummary :=
  { ref := d.ref
    superclass := d.superclass
    interfaces := d.interfaces
    fields := d.instanceFields.map (·.ref)
    methods := d.polymorphicMethods }

def qualifiedName (c : ClassSummary) : String := c.ref.qualifiedName

def isInterface (c : ClassSummary) : Bool := c.ref.isInterface

/-- The name of the superclass. -/
def superName (c : ClassSummary) : Option String :=
  c.superclass.map (·.qualifiedName)

end ClassSummary

end Lowering
