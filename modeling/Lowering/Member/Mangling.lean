import Lowering.Member.Basic

/-!
# Mangled names

The mangled name of a method is its symbol in the lowered program and the key of
its dispatch slot. It is built from the erased parameter types of the method's
declaration, so a method and all methods that override it share one mangled
name. The return type has no part in it.
-/

namespace Lowering.MethodRef

/-- The first part of a mangled name: the kind of method, and a method's name. -/
def mangledHead (m : MethodRef) : String :=
  if m.isConstructor then "ctor" else "m_" ++ m.name

/-- The part of a mangled name that lists erased parameter types. -/
def mangledParameters (parameters : List Ty) : String :=
  String.join (parameters.map fun t => "__" ++ t.mangledErasure)

/-- The part of a mangled name that keeps private methods of different types
apart from each other and from overridable methods. -/
def mangledOwner (m : MethodRef) : String :=
  if m.isPrivate then "_$p_" ++ underscoreDots m.enclosing.qualifiedName else ""

/-- The method's symbol and dispatch key. -/
def mangledName (m : MethodRef) : String :=
  m.mangledHead ++ mangledParameters m.declaration.parameters ++ m.mangledOwner

end Lowering.MethodRef
