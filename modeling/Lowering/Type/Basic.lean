/-!
# Static types

A type describes the values an expression may have. Whether `null` is one of
them belongs to the type itself: the nullable and the non-nullable reference to
one class are two different types.

The module holds the kinds of types, their decidable equality, the nullability
questions and the two changes of nullability, `Ty.toNullable` and
`Ty.toNonNullable`.
-/

namespace Lowering

/-! ## Primitive types -/

/-- The primitive types of the source language; `void` occurs as a return type. -/
inductive Primitive where
  | boolean
  | byte
  | short
  | char
  | int
  | long
  | float
  | double
  | void
  deriving DecidableEq

namespace Primitive

/-- The keyword that denotes the primitive type. -/
def name : Primitive → String
  | boolean => "boolean"
  | byte => "byte"
  | short => "short"
  | char => "char"
  | int => "int"
  | long => "long"
  | float => "float"
  | double => "double"
  | void => "void"

/-- The qualified name of the wrapper class; `void` has none. -/
def wrapperName : Primitive → Option String
  | boolean => some "java.lang.Boolean"
  | byte => some "java.lang.Byte"
  | short => some "java.lang.Short"
  | char => some "java.lang.Character"
  | int => some "java.lang.Integer"
  | long => some "java.lang.Long"
  | float => some "java.lang.Float"
  | double => some "java.lang.Double"
  | void => none

/-- The primitive types that have a wrapper class. -/
def boxable : List Primitive :=
  [boolean, byte, short, char, int, long, float, double]

/-- The primitive type whose wrapper class has the given qualified name. -/
def ofWrapperName (qualifiedName : String) : Option Primitive :=
  boxable.find? fun p => p.wrapperName == some qualifiedName

end Primitive

/-! ## Kinds of types -/

/-- A declared type is a class or an interface. -/
inductive DeclKind where
  | classType
  | interfaceType
  deriving DecidableEq

/-- Where a type variable comes from. -/
inductive TypeVarKind where
  /-- A type parameter of a class or method. -/
  | declared
  /-- A wildcard in a type argument. -/
  | wildcard
  /-- The capture of a wildcard during inference. -/
  | capture
  deriving DecidableEq

/-- Whether a type variable stands for a wildcard or its capture. -/
def TypeVarKind.isWildcardOrCapture : TypeVarKind → Bool
  | declared => false
  | wildcard => true
  | capture => true

/-- The nullability annotation of a type variable. A parametric variable is as
nullable as its upper bound. -/
inductive Nullability where
  | nullable
  | nonNullable
  | parametric
  deriving DecidableEq

/-- Static types. -/
inductive Ty where
  /-- A primitive type. -/
  | prim (primitive : Primitive)
  /-- A reference to a class or interface with its type arguments. -/
  | ref (qualifiedName : String) (kind : DeclKind) (arguments : List Ty) (nullable : Bool)
  /-- An array of components. -/
  | array (component : Ty) (nullable : Bool)
  /-- A type variable with its upper bound. -/
  | typeVar (name : String) (kind : TypeVarKind) (bound : Ty) (nullability : Nullability)
  /-- The type of the `null` literal. -/
  | nullType

/-- A reference to a class or interface, the part of a type that members and
declarations carry. -/
structure ClassRef where
  qualifiedName : String
  kind : DeclKind := .classType
  arguments : List Ty := []
  nullable : Bool := true

/-! ## Equality -/

namespace Ty

mutual

/-- Comparison of types part by part. -/
def sameAs : Ty → Ty → Bool
  | .prim p, .prim q => p == q
  | .ref n k as nullable, .ref n' k' as' nullable' =>
    n == n' && k == k' && sameAll as as' && nullable == nullable'
  | .array c nullable, .array c' nullable' => c.sameAs c' && nullable == nullable'
  | .typeVar n k b a, .typeVar n' k' b' a' => n == n' && k == k' && b.sameAs b' && a == a'
  | .nullType, .nullType => true
  | _, _ => false
termination_by structural t => t

/-- Comparison of type lists position by position. -/
def sameAll : List Ty → List Ty → Bool
  | [], [] => true
  | t :: ts, u :: us => t.sameAs u && sameAll ts us
  | _, _ => false
termination_by structural ts => ts

end

mutual

theorem sameAs_iff : ∀ t u : Ty, t.sameAs u = true ↔ t = u
  | .prim p, u => by cases u <;> simp [sameAs]
  | .ref n k as nullable, u => by
    cases u <;> simp [sameAs, sameAll_iff as, and_assoc]
  | .array c nullable, u => by cases u <;> simp [sameAs, sameAs_iff c]
  | .typeVar n k b a, u => by cases u <;> simp [sameAs, sameAs_iff b, and_assoc]
  | .nullType, u => by cases u <;> simp [sameAs]
termination_by structural t => t

theorem sameAll_iff : ∀ ts us : List Ty, sameAll ts us = true ↔ ts = us
  | [], us => by cases us <;> simp [sameAll]
  | t :: ts, us => by cases us <;> simp [sameAll, sameAs_iff t, sameAll_iff ts]
termination_by structural ts => ts

end

instance : DecidableEq Ty := fun t u => decidable_of_iff _ (sameAs_iff t u)

end Ty

deriving instance DecidableEq for ClassRef

/-! ## Class references -/

namespace ClassRef

/-- The nullable reference to the interface of the given name. -/
def interfaceNamed (qualifiedName : String) : ClassRef :=
  { qualifiedName, kind := .interfaceType }

/-- The last segment of a dotted name. -/
def lastSegment (name : List Char) : List Char :=
  (name.reverse.takeWhile (· != '.')).reverse

/-- The last segment of the qualified name. -/
def simpleName (c : ClassRef) : String :=
  .ofList (lastSegment c.qualifiedName.toList)

def isInterface (c : ClassRef) : Bool :=
  c.kind == .interfaceType

/-- Whether two references name one declaration, whatever their arguments and
nullability. -/
def sameDeclaration (c d : ClassRef) : Bool :=
  c.qualifiedName == d.qualifiedName

/-- The reference as a type. -/
def toTy (c : ClassRef) : Ty :=
  .ref c.qualifiedName c.kind c.arguments c.nullable

end ClassRef

/-! ## Questions about types -/

namespace Ty

/-- The nullable reference to the class of the given name. -/
def classNamed (qualifiedName : String) : Ty :=
  ClassRef.toTy { qualifiedName }

/-- The class reference behind a type, if it is one. -/
def asClassRef? : Ty → Option ClassRef
  | .ref qualifiedName kind arguments nullable =>
    some { qualifiedName, kind, arguments, nullable }
  | _ => none

def isPrimitive : Ty → Bool
  | .prim _ => true
  | _ => false

/-- Whether the type is the primitive `void`. -/
def isVoid : Ty → Bool
  | .prim .void => true
  | _ => false

/-- Whether the type refers to the class or interface of the given name. -/
def isNamed (qualifiedName : String) : Ty → Bool
  | .ref name _ _ _ => name == qualifiedName
  | _ => false

def isTypeVar : Ty → Bool
  | .typeVar .. => true
  | _ => false

def isNullType : Ty → Bool
  | .nullType => true
  | _ => false

/-- Wildcards and captures that are annotated non-nullable. They cannot be null,
yet consumers of the lowered program still treat their values as nullable. -/
def isNonNullWildcard : Ty → Bool
  | .typeVar _ kind _ nullability => kind.isWildcardOrCapture && nullability == .nonNullable
  | _ => false

/-- Whether `null` is a value of the type. -/
def canBeNull : Ty → Bool
  | .prim _ => false
  | .ref _ _ _ nullable => nullable
  | .array _ nullable => nullable
  | .typeVar _ _ _ .nullable => true
  | .typeVar _ _ _ .nonNullable => false
  | .typeVar _ _ bound .parametric => bound.canBeNull
  | .nullType => true

/-- The type with `null` added; primitive types and the null type stay. -/
def toNullable : Ty → Ty
  | .ref name kind arguments _ => .ref name kind arguments true
  | .array component _ => .array component true
  | .typeVar name kind bound _ => .typeVar name kind bound .nullable
  | t => t

/-- The type without `null`; primitive types and the null type stay. -/
def toNonNullable : Ty → Ty
  | .ref name kind arguments _ => .ref name kind arguments false
  | .array component _ => .array component false
  | .typeVar name kind bound _ => .typeVar name kind bound .nonNullable
  | t => t

/-- The primitive type that a wrapper class wraps. -/
def unboxed? : Ty → Option Primitive
  | .ref name _ _ _ => Primitive.ofWrapperName name
  | _ => none

end Ty

end Lowering
