import Lowering.Tree.Stmt

/-!
# Declarations and compilation units

A compilation unit is one source file's worth of types. A type declaration owns
its fields and methods in source order; interfaces take part in dispatch and
never add fields to a layout.
-/

namespace Lowering

/-- A field with its initializer. -/
structure FieldDecl where
  ref : FieldRef
  initializer : Option Expr := none
  span : Span := {}

/-- A method or constructor; abstract and native methods have no body. -/
structure MethodDecl where
  ref : MethodRef
  parameters : List Variable := []
  body : Option Block := none
  span : Span := {}

/-- A class or interface declaration. -/
structure TypeDecl where
  ref : ClassRef
  superclass : Option ClassRef := none
  interfaces : List ClassRef := []
  fields : List FieldDecl := []
  methods : List MethodDecl := []
  span : Span := {}

/-- The types of one source file. -/
structure CompilationUnit where
  name : String
  types : List TypeDecl := []

namespace TypeDecl

def qualifiedName (d : TypeDecl) : String := d.ref.qualifiedName

def isInterface (d : TypeDecl) : Bool := d.ref.isInterface

/-- The fields that every instance has, in source order. -/
def instanceFields (d : TypeDecl) : List FieldDecl :=
  d.fields.filter fun f => !f.ref.isStatic

/-- The methods that are dispatched by the receiver's class, in source order. -/
def polymorphicMethods (d : TypeDecl) : List MethodRef :=
  (d.methods.map (·.ref)).filter (·.isPolymorphic)

end TypeDecl

end Lowering
