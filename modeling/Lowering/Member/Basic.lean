import Lowering.Type.Text

/-!
# Fields and methods

A field or method is known by a reference to it: the enclosing type, the name
and the types as they are at the place of use. A member of a parameterized type
is a specialization; its reference also carries the signatures it was
specialized from, the nearest one first. The first of them, or the member itself
when there is none, is its declaration.
-/

namespace Lowering

/-! ## Fields -/

/-- What one field declaration says. -/
structure FieldSignature where
  enclosing : ClassRef
  name : String
  type : Ty
  isStatic : Bool := false
  isFinal : Bool := false
  deriving DecidableEq

/-- A field as seen from a use of it. -/
structure FieldRef extends FieldSignature where
  /-- The signatures this field specializes, nearest first. -/
  origins : List FieldSignature := []
  deriving DecidableEq

namespace FieldRef

/-- The field that this one specializes, or the field itself. -/
def declaration (f : FieldRef) : FieldRef :=
  match f.origins with
  | [] => f
  | origin :: further => { toFieldSignature := origin, origins := further }

/-- The field as a specialization of another one. -/
def specializing (f declaration : FieldRef) : FieldRef :=
  { f with origins := declaration.toFieldSignature :: declaration.origins }

/-- The field's qualified name. -/
def display (f : FieldRef) : String :=
  f.enclosing.qualifiedName ++ "." ++ f.name

end FieldRef

/-! ## Methods -/

/-- Who may name a member. -/
inductive Visibility where
  | publicAccess
  | protectedAccess
  | packageAccess
  | privateAccess
  deriving DecidableEq

/-- What one method or constructor declaration says. -/
structure MethodSignature where
  enclosing : ClassRef
  name : String
  parameters : List Ty := []
  returnType : Ty := .prim .void
  visibility : Visibility := .publicAccess
  isStatic : Bool := false
  isAbstract : Bool := false
  isSynthetic : Bool := false
  isConstructor : Bool := false
  deriving DecidableEq

/-- A method or constructor as seen from a use of it. -/
structure MethodRef extends MethodSignature where
  /-- The signatures this method specializes, nearest first. -/
  origins : List MethodSignature := []
  deriving DecidableEq

namespace MethodRef

/-- The name that every constructor has. -/
def constructorName : String := "<init>"

/-- The public constructor of a class with the given parameters. -/
def constructor (enclosing : ClassRef) (parameters : List Ty) : MethodRef :=
  { enclosing, name := constructorName, parameters, isConstructor := true }

/-- The synthetic method by which instances of a class answer their class object. -/
def classObject (enclosing : ClassRef) : MethodRef :=
  { enclosing, name := Known.classObjectMethod,
    returnType := Known.classObject.toNonNullable, isSynthetic := true }

/-- The method that this one specializes, or the method itself. -/
def declaration (m : MethodRef) : MethodRef :=
  match m.origins with
  | [] => m
  | origin :: further => { toMethodSignature := origin, origins := further }

/-- The method as a specialization of another one. -/
def specializing (m declaration : MethodRef) : MethodRef :=
  { m with origins := declaration.toMethodSignature :: declaration.origins }

/-- The same method placed in another type. -/
def within (m : MethodRef) (enclosing : ClassRef) : MethodRef :=
  { m with enclosing }

def isPrivate (m : MethodRef) : Bool :=
  m.visibility == .privateAccess

/-- Whether calls select the implementation by the receiver's class. -/
def isPolymorphic (m : MethodRef) : Bool :=
  !m.isStatic && !m.isConstructor && !m.isPrivate

/-- The method's qualified name with its parameter types. -/
def display (m : MethodRef) : String :=
  m.enclosing.qualifiedName ++ "." ++ m.name ++
    "(" ++ String.intercalate ", " (m.parameters.map Ty.display) ++ ")"

end MethodRef

end Lowering
