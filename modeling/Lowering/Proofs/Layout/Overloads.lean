import Lowering.Proofs.Layout.Inheritance
import Lowering.Proofs.Member.Mangling

/-!
# Overloads and dispatch slots

Slots are keyed by mangled names, and overriding is sharing a slot. Methods that are
different overloads should therefore never meet in one slot. They do meet if
underscores in their names or in the names of their parameter types are taken for
those of the mangled name (`overloads_meet`): a subclass then replaces an inherited
method that it does not override.

With plain names they do not. Two dispatched methods of a chain of classes share a
slot exactly if they are the same overload, and what fills the slot of a method is
the same overload too (`overloads_apart`).
-/

namespace Lowering

namespace DispatchTable

theorem slotOf_eq_some_iff {table : DispatchTable} {m : MethodRef} :
    (∃ slot, table.slotOf m = some slot) ↔ m.mangledName ∈ table.names := by
  rw [slotOf, ← Option.isSome_iff_exists, List.isSome_idxOf?]

/-- A method that has a slot shares it with the methods of its mangled name only. -/
theorem slotOf_eq_iff {table : DispatchTable} {m m' : MethodRef}
    (hnamed : m.mangledName ∈ table.names) :
    table.slotOf m = table.slotOf m' ↔ m.mangledName = m'.mangledName := by
  constructor
  · intro hsame
    obtain ⟨slot, hfound⟩ := slotOf_eq_some_iff.mpr hnamed
    have hfound' := hsame.symm.trans hfound
    -- Both names stand at the index of the slot.
    obtain ⟨_, hthis, -⟩ := List.idxOf?_eq_some_iff.mp hfound
    obtain ⟨_, here', -⟩ := List.idxOf?_eq_some_iff.mp hfound'
    exact hthis.symm.trans here'
  · intro hsame
    rw [slotOf, slotOf, hsame]

/-- The slot of an added method is filled by an added method of its mangled name. -/
theorem implementation_of_mem {methods : List MethodRef} {m : MethodRef} (hmem : m ∈ methods)
    (table : DispatchTable) :
    ∃ m' ∈ methods, (table.addAll methods).implementation m = some m' ∧
      m'.mangledName = m.mangledName := by
  have hfound :
      (methods.reverse.find? fun method => method.mangledName == m.mangledName).isSome := by
    rw [List.find?_isSome]
    exact ⟨m, List.mem_reverse.mpr hmem, beq_self_eq_true _⟩
  -- The last method of the name fills the slot. It may be another one than `m`.
  obtain ⟨m', hlast⟩ := Option.isSome_iff_exists.mp hfound
  refine ⟨m', List.mem_reverse.mp (List.mem_of_find?_eq_some hlast), ?_, ?_⟩
  · rw [implementation_addAll, hlast, Option.some_or]
  · simpa using List.find?_some hlast

end DispatchTable

namespace TypeLayout

/-- The dispatched methods of the classes of a chain. -/
def dispatched (chain : List ClassSummary) : List MethodRef :=
  chain.flatMap (·.polymorphicMethods)

/-- All methods that a chain declares are plainly named. -/
def PlainlyNamed (chain : List ClassSummary) : Prop :=
  ∀ c ∈ chain, ∀ m ∈ c.methods, m.PlainlyNamed

/-- A dispatched method is a polymorphic one that a class declares, or answers the
class object. -/
theorem mem_dispatched {chain : List ClassSummary} {m : MethodRef} (hmem : m ∈ dispatched chain) :
    (∃ c ∈ chain, m ∈ c.methods ∧ m.isPolymorphic = true) ∨ ∃ ref, m = .classObject ref := by
  obtain ⟨c, hinChain, hthis⟩ := List.mem_flatMap.mp hmem
  rcases List.mem_append.mp hthis with hdeclared | hown
  · exact .inl ⟨c, hinChain, List.mem_filter.mp hdeclared⟩
  -- Interfaces have no class object.
  · split at hown
    · simp at hown
    · exact .inr ⟨c.ref, List.mem_singleton.mp hown⟩

theorem isPolymorphic_of_dispatched {chain : List ClassSummary} {m : MethodRef}
    (hmem : m ∈ dispatched chain) : m.isPolymorphic = true := by
  rcases mem_dispatched hmem with ⟨c, -, -, hpolymorphic⟩ | ⟨ref, rfl⟩
  · exact hpolymorphic
  · rfl

theorem PlainlyNamed.of_dispatched {chain : List ClassSummary} (hplain : PlainlyNamed chain)
    {m : MethodRef} (hmem : m ∈ dispatched chain) : m.PlainlyNamed := by
  rcases mem_dispatched hmem with ⟨c, hinChain, hdeclared, -⟩ | ⟨ref, rfl⟩
  · exact hplain c hinChain m hdeclared
  · exact MethodRef.plainlyNamed_classObject ref

theorem dispatch_of_dispatched {chain : List ClassSummary} {l : TypeLayout}
    (honly : ∀ c ∈ chain, c.OnlyPolymorphic) (hlaidOut : ofChain chain = .ok (some l)) :
    l.dispatch = ({} : DispatchTable).addAll (dispatched chain) := by
  rw [dispatched, ← flatMap_slotMethods honly]
  exact (dispatch_extend hlaidOut).1

/-- Overloads in the layout of a chain of classes whose methods are plainly named.
Every dispatched method of a class of the chain has a slot, which is filled by the
same overload; two of the methods share their slots exactly if they are the same
overload. -/
theorem overloads_apart {chain : List ClassSummary} {l : TypeLayout}
    (honly : ∀ c ∈ chain, c.OnlyPolymorphic) (hplain : PlainlyNamed chain)
    (hlaidOut : ofChain chain = .ok (some l)) :
    ∀ m ∈ dispatched chain,
      (∃ slot, l.dispatch.slotOf m = some slot) ∧
      (∃ m' ∈ dispatched chain, l.dispatch.implementation m = some m' ∧ m'.overload = m.overload) ∧
      ∀ m' ∈ dispatched chain,
        l.dispatch.slotOf m = l.dispatch.slotOf m' ↔ m.overload = m'.overload := by
  intro m hmem
  -- Plain names can be read back from the mangled name, which is where underscores matter.
  have hsame : ∀ {m'}, m' ∈ dispatched chain →
      (m.mangledName = m'.mangledName ↔ m.overload = m'.overload) := fun hmem' =>
    MethodRef.mangledName_eq_iff (isPolymorphic_of_dispatched hmem)
      (isPolymorphic_of_dispatched hmem') (hplain.of_dispatched hmem) (hplain.of_dispatched hmem')
  obtain ⟨filler, hamong, hfilled, hmangled⟩ := DispatchTable.implementation_of_mem hmem {}
  rw [← dispatch_of_dispatched honly hlaidOut] at hfilled
  -- The slot is filled, so it exists.
  have hnamed : m.mangledName ∈ l.dispatch.names := Keyed.mem_names_of_lookup hfilled
  refine ⟨DispatchTable.slotOf_eq_some_iff.mpr hnamed, ?_, ?_⟩
  · exact ⟨filler, hamong, hfilled, ((hsame hamong).mp hmangled.symm).symm⟩
  · intro m' hmem'
    exact (DispatchTable.slotOf_eq_iff hnamed).trans (hsame hmem')

/-! ## Loggers -/

/-- A method that logs a number. -/
def logNumber : MethodRef :=
  { enclosing := { qualifiedName := "app.Logger" }, name := "log", parameters := [.prim .int] }

/-- A method that formats a line. -/
def formatLine : MethodRef :=
  { enclosing := { qualifiedName := "app.Logger" }, name := "format",
    parameters := [.ref "app.text.Line" .classType [] true] }

def logger : ClassSummary :=
  .ofMembers logNumber.enclosing none [] [] [logNumber, formatLine]

/-- An overload of `logNumber` for several numbers. -/
def logNumbers : MethodRef :=
  { enclosing := { qualifiedName := "app.Terminal" }, name := "log",
    parameters := [.array (.prim .int) true] }

/-- A method with an underscore in its name. -/
def logAll : MethodRef :=
  { enclosing := logNumbers.enclosing, name := "log_all" }

/-- A logger that overrides one of its two methods and has two more. -/
def terminal : ClassSummary :=
  .ofMembers logNumbers.enclosing (some logger.ref) [] []
    [logNumbers, logAll, logNumber.within logNumbers.enclosing]

/-- The override takes over the slot of the inherited method, and the other overload
of the name has a slot of its own. -/
theorem overloads_of_terminal :
    ∃ l, ofChain [logger, terminal] = .ok (some l) ∧
      l.dispatch.slotOf logNumber = some 0 ∧
      l.dispatch.implementation logNumber = some (logNumber.within terminal.ref) ∧
      l.dispatch.slotOf logNumber = l.dispatch.slotOf (logNumber.within terminal.ref) ∧
      l.dispatch.slotOf logNumber ≠ l.dispatch.slotOf logNumbers ∧
      l.dispatch.slotOf logNumbers ≠ l.dispatch.slotOf logAll := by
  have honly : ∀ c ∈ [logger, terminal], c.OnlyPolymorphic := by
    simp only [List.forall_mem_cons, List.not_mem_nil, false_implies, implies_true, and_true]
    exact ⟨ClassSummary.onlyPolymorphic_ofMembers _ _ _ _ _,
      ClassSummary.onlyPolymorphic_ofMembers _ _ _ _ _⟩
  have hplain : PlainlyNamed [logger, terminal] := by
    intro c hinChain m hmem
    refine ⟨?_, ?_⟩
    · revert c m
      decide
    · revert c m
      decide
  -- The underscore in `log_all` does no harm, since it is not doubled.
  have hapart := overloads_apart honly hplain rfl
  refine ⟨_, rfl, by decide, by decide, ?_, ?_, ?_⟩
  · exact ((hapart logNumber (by decide)).2.2 _ (by decide)).mpr (by decide)
  · intro hsame
    exact absurd (((hapart logNumber (by decide)).2.2 _ (by decide)).mp hsame) (by decide)
  · intro hsame
    exact absurd (((hapart logNumbers (by decide)).2.2 _ (by decide)).mp hsame) (by decide)

/-- A method without parameters whose name ends like the mangled name of
`logNumber`. -/
def logSuffixed : MethodRef :=
  { enclosing := { qualifiedName := "app.Console" }, name := "log__int" }

/-- A method that formats lines of another type: the first package of the name has
an underscore. -/
def formatOther : MethodRef :=
  { enclosing := logSuffixed.enclosing, name := "format",
    parameters := [.ref "app_text.Line" .classType [] true] }

/-- A logger with two methods of its own, which override nothing. -/
def console : ClassSummary :=
  .ofMembers logSuffixed.enclosing (some logger.ref) [] [] [logSuffixed, formatOther]

/-- A character of an identifier. -/
def isIdentifierChar (c : Char) : Bool :=
  c.isAlphanum || c == '_'

/-- Different overloads, named by identifiers, meet in one slot, and the inherited
ones are replaced: a method by one of another name, and a method by one for another
type. -/
theorem overloads_meet :
    ∃ l, ofChain [logger, console] = .ok (some l) ∧
      (∀ m ∈ [logNumber, logSuffixed, formatLine, formatOther],
        m.isPolymorphic = true ∧ m.name.toList.all isIdentifierChar = true ∧
          ∀ t ∈ m.parameters, ∀ word ∈ t.erasedName.toList.splitOn '.',
            word.all isIdentifierChar = true) ∧
      logNumber.name ≠ logSuffixed.name ∧
      l.dispatch.slotOf logNumber = some 0 ∧ l.dispatch.slotOf logSuffixed = some 0 ∧
      l.dispatch.implementation logNumber = some logSuffixed ∧
      formatLine.overload ≠ formatOther.overload ∧
      l.dispatch.slotOf formatLine = some 1 ∧ l.dispatch.slotOf formatOther = some 1 ∧
      l.dispatch.implementation formatLine = some formatOther := by
  refine ⟨_, rfl, ?_⟩
  decide

end TypeLayout

end Lowering
