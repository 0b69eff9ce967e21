import Lowering.Type.Basic

/-!
# Known types

Names that the lowering itself relies on: the root class, strings, the boxed
`void`, class objects, and the container that array types extend.
-/

namespace Lowering

namespace Known

def objectName : String := "java.lang.Object"
def stringName : String := "java.lang.String"
def voidName : String := "java.lang.Void"
def className : String := "java.lang.Class"

/-- The container class whose direct subclasses are the array types. -/
def arrayContainerName : String := "javaemul.internal.WasmArray"

/-- The field of the container that holds the array's elements. -/
def elementsField : String := "elements"

/-- The synthetic method that answers a value's class object. -/
def classObjectMethod : String := "$getClassImpl"

def object : Ty := .classNamed objectName
def string : Ty := .classNamed stringName
def boxedVoid : Ty := .classNamed voidName
def classObject : Ty := .classNamed className
def arrayContainer : Ty := .classNamed arrayContainerName

/-- Whether the class extends the array container directly: its superclass is
the container and it is not the container itself. -/
def extendsArrayContainer (c : ClassRef) (superName : Option String) : Bool :=
  c.qualifiedName != arrayContainerName && superName == some arrayContainerName

end Known

/-- Whether the type is the boxed `void`, whose only value is `null`. -/
def Ty.isBoxedVoid (t : Ty) : Bool :=
  t.isNamed Known.voidName

end Lowering
