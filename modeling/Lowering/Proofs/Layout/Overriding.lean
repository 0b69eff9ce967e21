import Lowering.Layout.Basic
import Lowering.Proofs.Member.Symbol

/-!
# Overriding keeps the slot

An override may write the parameter types of the method in a way of its own: with
other nullability and type arguments, with the bound of a type variable in place of
the variable, or the other way round, at every depth. `Ty.Alike` is the least
equivalence that allows all of this. Each type is alike to its bare form, which has
nothing left that an override may change, and alike types have the same bare form
(`Ty.alike_iff`).

The erased name is that of the bare form. So methods with alike parameters have one
mangled name and one slot, whatever else they say (`MethodRef.slot_of_alike`).
-/

namespace Lowering

/-! ## Types -/

namespace Ty

/-- The types are equal up to what an override may write differently. -/
inductive Alike : Ty → Ty → Prop where
  | refl (t : Ty) : Alike t t
  | symm {t u : Ty} : Alike t u → Alike u t
  | trans {t u v : Ty} : Alike t u → Alike u v → Alike t v
  -- Of a class or an interface nothing but the name counts.
  | ref (name : String) (kind kind' : DeclKind) (arguments arguments' : List Ty)
      (nullable nullable' : Bool) :
      Alike (.ref name kind arguments nullable) (.ref name kind' arguments' nullable')
  | array {component component' : Ty} (nullable nullable' : Bool) : Alike component component' →
      Alike (.array component nullable) (.array component' nullable')
  | typeVar {bound bound' : Ty} (name name' : String) (kind kind' : TypeVarKind)
      (nullability nullability' : Nullability) : Alike bound bound' →
      Alike (.typeVar name kind bound nullability) (.typeVar name' kind' bound' nullability')
  -- A type variable may be replaced by its upper bound.
  | bound (name : String) (kind : TypeVarKind) (bound : Ty) (nullability : Nullability) :
      Alike (.typeVar name kind bound nullability) bound

/-- The type without anything that an override may write differently: names of
classes without arguments, and bounds in place of type variables. -/
def bare : Ty → Ty
  | .prim p => .prim p
  | .ref name _ _ _ => .ref name .classType [] false
  | .array component _ => .array component.bare false
  | .typeVar _ _ bound _ => bound.bare
  | .nullType => .nullType

theorem alike_bare (t : Ty) : Alike t t.bare := by
  fun_induction bare t with
  | case1 p => exact .refl _
  | case2 name kind arguments nullable =>
    exact .ref name kind .classType arguments [] nullable false
  | case3 component nullable ih => exact .array nullable false ih
  -- A variable is first replaced by its bound, and this by its bare form.
  | case4 name kind bound nullability ih => exact .trans (.bound name kind bound nullability) ih
  | case5 => exact .refl _

theorem Alike.bare_eq {t u : Ty} (h : Alike t u) : t.bare = u.bare := by
  induction h with
  | refl t => rfl
  | symm _ ih => exact ih.symm
  | trans _ _ ih ih' => exact ih.trans ih'
  | ref => rfl
  | array _ _ _ ih => simp only [bare, ih]
  | typeVar _ _ _ _ _ _ _ ih => exact ih
  -- The bare form of a variable is that of its bound.
  | bound => rfl

/-- Types are alike exactly if they have the same bare form. -/
theorem alike_iff {t u : Ty} : Alike t u ↔ t.bare = u.bare := by
  refine ⟨Alike.bare_eq, fun hsame => ?_⟩
  -- Both types are alike to the one bare form.
  have hbare : Alike t u.bare := hsame ▸ alike_bare t
  exact hbare.trans (alike_bare u).symm

instance (t u : Ty) : Decidable (Alike t u) :=
  decidable_of_iff _ alike_iff.symm

theorem erasedName_bare (t : Ty) : t.bare.erasedName = t.erasedName := by
  fun_induction bare t with
  | case1 p => rfl
  | case2 name => rfl
  | case3 component _ ih => simp only [erasedName, ih]
  | case4 _ _ bound _ ih => exact ih
  | case5 => rfl

/-- Erasure drops whatever alike types differ in. -/
theorem Alike.erasedName_eq {t u : Ty} (h : Alike t u) : t.erasedName = u.erasedName := by
  rw [← erasedName_bare t, ← erasedName_bare u, h.bare_eq]

end Ty

/-! ## Methods -/

theorem erasedNames_of_alike {parameters parameters' : List Ty}
    (h : List.Forall₂ Ty.Alike parameters parameters') :
    parameters.map Ty.erasedName = parameters'.map Ty.erasedName := by
  induction h with
  | nil => rfl
  | cons hfirst _ ih => rw [List.map_cons, List.map_cons, hfirst.erasedName_eq, ih]

namespace MethodRef

/-- Two methods of one name, or two constructors, neither of them private, whose
declarations have alike parameters: they have the same mangled name, and so in every
layout the same slot and the same implementation. -/
theorem slot_of_alike {m m' : MethodRef} (hshared : m.isPrivate = false)
    (hshared' : m'.isPrivate = false) (hname : m.name = m'.name)
    (hkind : m.isConstructor = m'.isConstructor)
    (hparameters : List.Forall₂ Ty.Alike m.declaration.parameters m'.declaration.parameters) :
    m.mangledName = m'.mangledName ∧
      ∀ l : TypeLayout, l.dispatch.slotOf m = l.dispatch.slotOf m' ∧
        l.dispatch.implementation m = l.dispatch.implementation m' := by
  -- The symbol is all that the mangled name is made of. The classes of the methods are part of it
  -- for private methods only.
  have hsymbol : m.symbol = m'.symbol := by
    refine symbol_eq_iff.mpr ⟨hkind, fun _ => hname, erasedNames_of_alike hparameters, ?_, ?_⟩
    · rw [hshared, hshared']
    · intro hprivate
      rw [hshared] at hprivate
      cases hprivate
  have hmangled := mangledName_of_symbol hsymbol
  refine ⟨hmangled, fun l => ⟨?_, ?_⟩⟩
  · rw [DispatchTable.slotOf, DispatchTable.slotOf, hmangled]
  · rw [DispatchTable.implementation, DispatchTable.implementation, hmangled]

/-- `sort(List<T>, T[])` with a `T` that extends `Item`. -/
def sortItems : MethodRef :=
  let item : Ty := .typeVar "T" .declared (.classNamed "app.Item") .parametric
  { enclosing := { qualifiedName := "app.Sorter" }, name := "sort",
    parameters := [.ref "java.util.List" .interfaceType [item] true, .array item true] }

/-- `sort(List<?>!, Item![]!)` in a subclass, as seen through a specialization. -/
def sortCards : MethodRef :=
  let wildcard : Ty := .typeVar "?" .wildcard Known.object .nullable
  let declared : MethodSignature :=
    { enclosing := { qualifiedName := "app.CardSorter" }, name := "sort",
      parameters := [.ref "java.util.List" .interfaceType [wildcard] false,
        .array ((Ty.classNamed "app.Item").toNonNullable) false]
      returnType := .prim .boolean, visibility := .protectedAccess }
  { declared with
    parameters := [Known.object, .array (.classNamed "app.Card") true], origins := [declared] }

/-- The override is found in the slot of the inherited method, which it fills. -/
theorem slot_of_sortCards :
    List.Forall₂ Ty.Alike sortItems.declaration.parameters sortCards.declaration.parameters ∧
      sortItems.mangledName = sortCards.mangledName ∧
      ∃ above l, TypeLayout.create (.ofMembers sortItems.enclosing none [] [] [sortItems]) none =
          .ok above ∧
        TypeLayout.create (.ofMembers sortCards.enclosing (some sortItems.enclosing) [] []
          [sortCards]) (some above) = .ok l ∧
        l.dispatch.slotOf sortItems = some 0 ∧ l.dispatch.slotOf sortCards = some 0 ∧
        l.dispatch.implementation sortItems = some sortCards := by
  -- Type arguments are dropped, and the variable `T` has `Item` as its bound.
  have hparameters : List.Forall₂ Ty.Alike sortItems.declaration.parameters
      sortCards.declaration.parameters := .cons (by decide) (.cons (by decide) .nil)
  have hshared : sortItems.isPrivate = false := by decide
  have hshared' : sortCards.isPrivate = false := by decide
  obtain ⟨hmangled, hlayouts⟩ := slot_of_alike hshared hshared' rfl rfl hparameters
  refine ⟨hparameters, hmangled, _, _, rfl, rfl, ?_, by decide, ?_⟩
  · rw [(hlayouts _).1]
    decide
  · rw [(hlayouts _).2]
    decide

end MethodRef

end Lowering
