import Lowering.Layout.Dispatch
import Lowering.Layout.Summary

/-!
# Layouts

The layout of a class says which fields its instances have, in order, and which
methods its dispatch slots hold. Both continue the layout of the superclass:
inherited fields come first, and inherited slots keep their place.

Array types are the exception to the rule for fields. A direct subclass of the
array container declares the container's last field, `elements`, again with a
more special type; the new field takes the place of the inherited one.
-/

namespace Lowering

/-! ## Errors -/

/-- How an array type breaks the rule for its `elements` field. -/
inductive ElementsFault where
  | notDeclaredFirst
  | notInheritedLast
  deriving DecidableEq

/-- What the fault is reported as. -/
def ElementsFault.message : ElementsFault → String
  | notDeclaredFirst => "first declared field must be 'elements'"
  | notInheritedLast => "last inherited field must be 'elements'"

/-- Why a class has no layout. -/
inductive LayoutError where
  | arrayElements (typeName : String) (fault : ElementsFault)
  | unknownType (name : String)
  /-- The names walked along the superclasses, ending with the repeated one. -/
  | cyclicInheritance (chain : List String)
  deriving DecidableEq

/-- The report of a layout error. -/
def LayoutError.display : LayoutError → String
  | arrayElements typeName fault =>
    "Array type " ++ typeName ++ " breaks the elements field convention: " ++ fault.message
  | unknownType name => "Unknown type: " ++ name
  | cyclicInheritance chain => "Cyclic inheritance: " ++ String.intercalate " -> " chain

/-! ## Layouts -/

/-- What a class adds up to on its level of the superclass chain. -/
structure LayoutLevel where
  summary : ClassSummary
  /-- All instance fields, inherited ones first. -/
  fields : List FieldRef
  dispatch : DispatchTable
  deriving DecidableEq

/-- The layout of a class: its own level, and the levels of its superclasses,
nearest first. -/
structure TypeLayout extends LayoutLevel where
  ancestors : List LayoutLevel := []
  deriving DecidableEq

namespace TypeLayout

def qualifiedName (l : TypeLayout) : String := l.summary.qualifiedName

/-- The layout of the superclass. -/
def supertype (l : TypeLayout) : Option TypeLayout :=
  match l.ancestors with
  | [] => none
  | level :: above => some { toLayoutLevel := level, ancestors := above }

/-- The names of all superclasses, nearest first. -/
def chain (l : TypeLayout) : List String :=
  l.ancestors.map (·.summary.qualifiedName)

/-- The levels of the layout, its own first. -/
def levels (l : TypeLayout) : List LayoutLevel :=
  l.toLayoutLevel :: l.ancestors

/-- Whether the last of several fields is the array elements. -/
def endsInElements (fields : List FieldRef) : Bool :=
  fields.getLast?.map (·.name) == some Known.elementsField

/-- Whether the first of several fields is the array elements. -/
def startsWithElements (fields : List FieldRef) : Bool :=
  fields.head?.map (·.name) == some Known.elementsField

/-- The fields of a class on top of the inherited ones. -/
def placeFields (c : ClassSummary) (superName : Option String) (inherited : List FieldRef) :
    Except LayoutError (List FieldRef) :=
  if Known.extendsArrayContainer c.ref superName then
    if !startsWithElements c.fields then
      .error (.arrayElements c.qualifiedName .notDeclaredFirst)
    else if !endsInElements inherited then
      .error (.arrayElements c.qualifiedName .notInheritedLast)
    else
      .ok (inherited.dropLast ++ c.fields)
  else
    .ok (inherited ++ c.fields)

/-- The methods that a class puts into its slots: those it declares, and last,
unless it is an interface, the one that answers its class object. -/
def slotMethods (c : ClassSummary) : List MethodRef :=
  c.methods ++ if c.isInterface then [] else [.classObject c.ref]

/-- The layout of a class on top of the layout of its superclass. -/
def create (c : ClassSummary) (supertype : Option TypeLayout) : Except LayoutError TypeLayout := do
  let inheritedFields := (supertype.map (·.fields)).getD []
  let inheritedDispatch := (supertype.map (·.dispatch)).getD {}
  let fields ← placeFields c (supertype.map (·.qualifiedName)) inheritedFields
  pure
    { summary := c
      fields
      dispatch := inheritedDispatch.addAll (slotMethods c)
      ancestors := (supertype.map (·.levels)).getD [] }

end TypeLayout

end Lowering
