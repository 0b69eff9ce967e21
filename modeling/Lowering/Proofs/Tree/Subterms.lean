import Mathlib.Data.List.Forall2
import Lowering.Tree.Decl

/-!
# Parts of trees

Most properties of a unit speak of all its nodes at every depth. The module
lists the nodes of a tree: `Expr.subexpressions` and `Stmt.substatements` give
the node itself and everything below it, and a unit gathers the expressions of
its members.

Main statements:

- `Expr.childInduction` and `Stmt.childInduction`: what passes from the children
  of a node to the node holds of every tree.
- `Expr.everywhere_iff`: a property holds at every depth iff it holds at the root
  and at every depth of each child.
-/

namespace Lowering

/-! ## Expressions -/

namespace Expr

/-- The direct parts of an expression, in source order. -/
def children : Expr → List Expr
  | fieldAccess qualifier _ => qualifier.toList
  | call qualifier _ arguments => qualifier.toList ++ arguments
  | newInstance _ arguments => arguments
  | binary _ left right _ => [left, right]
  | unary _ _ operand _ => [operand]
  | cast _ operand => [operand]
  | conditional _ condition whenTrue whenFalse => [condition, whenTrue, whenFalse]
  | notNull operand => [operand]
  | multi expressions => expressions
  | declare fragments => fragments.filterMap (·.initializer)
  | _ => []

/-- Literals, `this` and variable references. -/
def isLeaf : Expr → Bool
  | nullLiteral _ => true
  | boolLiteral .. => true
  | numberLiteral .. => true
  | stringLiteral .. => true
  | thisRef _ => true
  | varRef _ => true
  | _ => false

/-- Leaves are exactly the kinds of expressions for which `children` has no equation of its own, so
a property of a leaf is a property of one node. -/
theorem children_of_isLeaf {e : Expr} (h : e.isLeaf = true) : e.children = [] := by
  cases e with
  | nullLiteral | boolLiteral | numberLiteral | stringLiteral | thisRef | varRef => rfl
  | _ => cases h

mutual

/-- The expression and all expressions below it. -/
def subexpressions : Expr → List Expr
  | nullLiteral t => [nullLiteral t]
  | boolLiteral b t => [boolLiteral b t]
  | numberLiteral n t => [numberLiteral n t]
  | stringLiteral s t => [stringLiteral s t]
  | thisRef t => [thisRef t]
  | varRef v => [varRef v]
  | fieldAccess q f => fieldAccess q f :: subexpressionsOption q
  | call q m as => call q m as :: (subexpressionsOption q ++ subexpressionsList as)
  | newInstance m as => newInstance m as :: subexpressionsList as
  | binary op l r t => binary op l r t :: (l.subexpressions ++ r.subexpressions)
  | unary op x e t => unary op x e t :: e.subexpressions
  | cast t e => cast t e :: e.subexpressions
  | conditional t c a b =>
    conditional t c a b :: (c.subexpressions ++ (a.subexpressions ++ b.subexpressions))
  | notNull e => notNull e :: e.subexpressions
  | multi es => multi es :: subexpressionsList es
  | declare fs => declare fs :: subexpressionsFragments fs
termination_by structural e => e

def subexpressionsOption : Option Expr → List Expr
  | none => []
  | some e => e.subexpressions
termination_by structural e => e

def subexpressionsList : List Expr → List Expr
  | [] => []
  | e :: es => e.subexpressions ++ subexpressionsList es
termination_by structural es => es

def subexpressionsFragments : List (Fragment Expr) → List Expr
  | [] => []
  | ⟨_, e⟩ :: fs => subexpressionsOption e ++ subexpressionsFragments fs
termination_by structural fs => fs

end

/-- The three helpers of the mutual recursion are the plain list operations; after this and the next
two lemmas nobody has to open them again. -/
theorem subexpressionsOption_eq_flatMap (q : Option Expr) :
    subexpressionsOption q = q.toList.flatMap subexpressions := by
  cases q <;> simp [subexpressionsOption]

theorem subexpressionsList_eq_flatMap (es : List Expr) :
    subexpressionsList es = es.flatMap subexpressions := by
  induction es with
  | nil => rfl
  | cons e es ih => simp only [subexpressionsList, List.flatMap_cons, ih]

/-- Variables without initializer contribute nothing, which is why the initializers are filtered
first and not mapped. -/
theorem subexpressionsFragments_eq_flatMap (fs : List (Fragment Expr)) :
    subexpressionsFragments fs = (fs.filterMap (·.initializer)).flatMap subexpressions := by
  induction fs with
  | nil => rfl
  | cons f fs ih =>
    obtain ⟨binder, initializer⟩ := f
    cases initializer <;> simp [subexpressionsFragments, subexpressionsOption, ih]

/-- Parts of an expression are the expression itself and the parts of its children, in this order.
This is the recursion that all inductions over parts follow. -/
theorem subexpressions_eq (e : Expr) :
    e.subexpressions = e :: e.children.flatMap subexpressions := by
  -- The kinds differ in how they hold their children only: as an option, a list or fragments.
  cases e <;> simp [subexpressions, children, subexpressionsOption_eq_flatMap,
    subexpressionsList_eq_flatMap, subexpressionsFragments_eq_flatMap]

/-- Children are smaller, so that recursion over children ends although they are taken out of lists
and options. -/
theorem sizeOf_lt_of_mem_children {e c : Expr} (h : c ∈ e.children) : sizeOf c < sizeOf e := by
  cases e with
  | fieldAccess q f =>
    obtain rfl := Option.mem_toList.mp h
    simp +arith
  | call q m as =>
    rcases List.mem_append.mp h with hq | has
    · obtain rfl := Option.mem_toList.mp hq
      simp +arith
    -- An argument is smaller than the list that it stands in.
    · have hlt := List.sizeOf_lt_of_mem has
      simp only [call.sizeOf_spec]
      omega
  | newInstance m as =>
    have hlt : sizeOf c < sizeOf as := List.sizeOf_lt_of_mem h
    simp only [newInstance.sizeOf_spec]
    omega
  | multi es =>
    have hlt : sizeOf c < sizeOf es := List.sizeOf_lt_of_mem h
    simp only [multi.sizeOf_spec]
    omega
  | declare fs =>
    -- The initializer is smaller than its fragment, which is smaller than the list.
    obtain ⟨⟨binder, initializer⟩, hf, hc⟩ := List.mem_filterMap.mp h
    obtain rfl : initializer = some c := hc
    have hlt := List.sizeOf_lt_of_mem hf
    simp only [declare.sizeOf_spec, Fragment.mk.sizeOf_spec, Option.some.sizeOf_spec] at hlt ⊢
    omega
  | binary op l r t =>
    simp only [children, List.mem_cons, List.not_mem_nil, or_false] at h
    rcases h with rfl | rfl <;> simp +arith
  | conditional t x a b =>
    simp only [children, List.mem_cons, List.not_mem_nil, or_false] at h
    rcases h with rfl | rfl | rfl <;> simp +arith
  | unary _ _ x _ | cast _ x | notNull x =>
    obtain rfl := List.mem_singleton.mp h
    simp +arith
  | _ => cases h

/-- What passes from the children of an expression to the expression holds of
every expression. -/
@[elab_as_elim]
theorem childInduction {P : Expr → Prop} (e : Expr)
    (step : ∀ e : Expr, (∀ c ∈ e.children, P c) → P e) : P e :=
  -- The recursion goes through lists and fragments, so it is justified by size and not by
  -- structure.
  step e fun c _ => childInduction c step
termination_by sizeOf e
decreasing_by exact sizeOf_lt_of_mem_children ‹_›

/-! ### Properties at every depth -/

/-- The property holds of the expression and of all expressions below it. -/
def Everywhere (P : Expr → Prop) (e : Expr) : Prop :=
  ∀ s ∈ e.subexpressions, P s

instance {P : Expr → Prop} [DecidablePred P] (e : Expr) : Decidable (e.Everywhere P) :=
  inferInstanceAs (Decidable (∀ s ∈ e.subexpressions, P s))

/-- A property holds at every depth exactly if it holds at the root and at every depth of each
child. Nearly all proofs about `Everywhere` go through this equation. -/
theorem everywhere_iff {P : Expr → Prop} {e : Expr} :
    e.Everywhere P ↔ P e ∧ ∀ c ∈ e.children, c.Everywhere P := by
  unfold Everywhere
  rw [subexpressions_eq]
  simp only [List.mem_cons, List.mem_flatMap, forall_eq_or_imp]
  -- What is left is the order of two quantifiers: over children, and over the parts of a child.
  exact and_congr_right fun _ =>
    ⟨fun h c hc s hs => h s ⟨c, hc, hs⟩, fun h s ⟨c, hc, hs⟩ => h c hc s hs⟩

/-- What holds at every depth holds at the root. -/
theorem Everywhere.here {P : Expr → Prop} {e : Expr} (h : e.Everywhere P) : P e :=
  (everywhere_iff.mp h).1

/-- What holds at every depth of an expression holds at every depth of each of its children. -/
theorem Everywhere.child {P : Expr → Prop} {e c : Expr} (h : e.Everywhere P)
    (hc : c ∈ e.children) : c.Everywhere P :=
  (everywhere_iff.mp h).2 c hc

theorem Everywhere.imp {P Q : Expr → Prop} {e : Expr} (h : e.Everywhere P)
    (hPQ : ∀ s, P s → Q s) : e.Everywhere Q :=
  fun s hs => hPQ s (h s hs)

/-- What holds at every depth of an expression holds at every depth of its parts. -/
theorem Everywhere.part {P : Expr → Prop} {e x : Expr} (h : e.Everywhere P)
    (hx : x ∈ e.subexpressions) : x.Everywhere P := by
  induction e using childInduction with
  | step e ih =>
    rw [subexpressions_eq, List.mem_cons, List.mem_flatMap] at hx
    -- The part is the expression itself, or it lies in one of the children.
    rcases hx with rfl | ⟨c, hc, hx⟩
    · exact h
    · exact ih c hc (h.child hc) hx

/-- The variables that a node itself names: the one it refers to, or those that
it declares. -/
def ownVariables : Expr → List Variable
  | varRef v => [v]
  | declare fragments => fragments.map (·.binder)
  | _ => []

/-- The variables that occur in an expression. -/
def allVariables (e : Expr) : List Variable :=
  e.subexpressions.flatMap ownVariables

/-- A variable occurs in an expression exactly if some part of it names the variable. -/
theorem mem_allVariables {e : Expr} {v : Variable} :
    v ∈ e.allVariables ↔ ∃ s ∈ e.subexpressions, v ∈ s.ownVariables :=
  List.mem_flatMap

/-- A reference to a variable has the type that `Γ` gives to its identity. -/
def Typed (Γ : VariableId → Ty) (e : Expr) : Prop :=
  ∀ v, e = varRef v → v.type = Γ v.id

/-- If `Γ` types all variables that occur, it types every reference. Declared variables are not
asked about: only references have a static type. -/
theorem everywhere_typed {Γ : VariableId → Ty} {e : Expr}
    (h : ∀ v ∈ e.allVariables, v.type = Γ v.id) : e.Everywhere (Typed Γ) := by
  rintro x hx v rfl
  exact h v (mem_allVariables.mpr ⟨_, hx, List.mem_cons_self⟩)

end Expr

/-! ## Statements -/

namespace Stmt

/-- The expressions that stand directly in a statement, in source order. -/
def expressions : Stmt → List Expr
  | expression e _ => [e]
  | block _ _ => []
  | returnValue value _ => value.toList
  | conditional condition _ _ _ => [condition]
  | whileLoop condition _ _ => [condition]
  | forLoop initializers condition updates _ _ => initializers ++ condition.toList ++ updates
  | assertion condition message _ => condition :: message.toList
  | throwValue value _ => [value]

/-- The statements that stand directly in a statement. -/
def children : Stmt → List Stmt
  | block statements _ => statements
  | conditional _ whenTrue whenFalse _ => whenTrue :: whenFalse.toList
  | whileLoop _ body _ => [body]
  | forLoop _ _ _ body _ => [body]
  | _ => []

mutual

/-- The statement and all statements inside it. -/
def substatements : Stmt → List Stmt
  | expression e s => [expression e s]
  | block ss s => block ss s :: substatementsList ss
  | returnValue e s => [returnValue e s]
  | conditional c a b s => conditional c a b s :: (a.substatements ++ substatementsOption b)
  | whileLoop c b s => whileLoop c b s :: b.substatements
  | forLoop i c u b s => forLoop i c u b s :: b.substatements
  | assertion c m s => [assertion c m s]
  | throwValue e s => [throwValue e s]
termination_by structural s => s

def substatementsOption : Option Stmt → List Stmt
  | none => []
  | some s => s.substatements
termination_by structural s => s

def substatementsList : List Stmt → List Stmt
  | [] => []
  | s :: ss => s.substatements ++ substatementsList ss
termination_by structural ss => ss

end

/-- As for expressions, the helpers of the mutual recursion are plain list operations. -/
theorem substatementsOption_eq_flatMap (s : Option Stmt) :
    substatementsOption s = s.toList.flatMap substatements := by
  cases s <;> simp [substatementsOption]

theorem substatementsList_eq_flatMap (ss : List Stmt) :
    substatementsList ss = ss.flatMap substatements := by
  induction ss with
  | nil => rfl
  | cons s ss ih => simp only [substatementsList, List.flatMap_cons, ih]

/-- Statements inside a statement are the statement itself and those inside its children, in source
order. -/
theorem substatements_eq (s : Stmt) :
    s.substatements = s :: s.children.flatMap substatements := by
  cases s <;> simp [substatements, children, substatementsOption_eq_flatMap,
    substatementsList_eq_flatMap]

theorem sizeOf_lt_of_mem_children {s c : Stmt} (h : c ∈ s.children) : sizeOf c < sizeOf s := by
  cases s with
  | block ss span =>
    have hlt : sizeOf c < sizeOf ss := List.sizeOf_lt_of_mem h
    simp only [block.sizeOf_spec]
    omega
  | conditional x a b span =>
    rcases List.mem_cons.mp h with rfl | hb
    · simp +arith
    · obtain rfl := Option.mem_toList.mp hb
      simp +arith
  | whileLoop _ b _ | forLoop _ _ _ b _ =>
    obtain rfl := List.mem_singleton.mp h
    simp +arith
  | _ => cases h

/-- What passes from the statements inside a statement to the statement holds of
every statement. -/
@[elab_as_elim]
theorem childInduction {P : Stmt → Prop} (s : Stmt)
    (step : ∀ s : Stmt, (∀ c ∈ s.children, P c) → P s) : P s :=
  step s fun c _ => childInduction c step
termination_by sizeOf s
decreasing_by exact sizeOf_lt_of_mem_children ‹_›

end Stmt

/-! ## Units -/

/-- All statements of a method, at every depth, in source order. -/
def MethodDecl.statements (d : MethodDecl) : List Stmt :=
  d.body.toList.flatMap fun body => body.statements.flatMap Stmt.substatements

/-- The expressions that stand in fields and statements of the type, in source
order. -/
def TypeDecl.expressions (d : TypeDecl) : List Expr :=
  d.fields.flatMap (·.initializer.toList) ++
    d.methods.flatMap fun d => d.statements.flatMap Stmt.expressions

namespace CompilationUnit

def fields (u : CompilationUnit) : List FieldDecl := u.types.flatMap (·.fields)

def methods (u : CompilationUnit) : List MethodDecl := u.types.flatMap (·.methods)

/-- The expressions that stand in fields and statements of the unit, in source
order. -/
def expressions (u : CompilationUnit) : List Expr := u.types.flatMap TypeDecl.expressions

/-- An expression that stands in a statement, however deep the statement lies in a method, is an
expression of the unit. -/
theorem mem_expressions_of_statement {u : CompilationUnit} {d : MethodDecl} {s : Stmt} {e : Expr}
    (hd : d ∈ u.methods) (hs : s ∈ d.statements) (he : e ∈ s.expressions) :
    e ∈ u.expressions := by
  obtain ⟨t, ht, hd⟩ := List.mem_flatMap.mp hd
  -- Expressions of methods come after those of the fields of the type.
  refine List.mem_flatMap.mpr ⟨t, ht, List.mem_append_right _ ?_⟩
  exact List.mem_flatMap.mpr ⟨d, hd, List.mem_flatMap.mpr ⟨s, hs, he⟩⟩

/-- The property holds of every expression of the unit, at every depth. -/
def Everywhere (P : Expr → Prop) (u : CompilationUnit) : Prop :=
  ∀ e ∈ u.expressions, e.Everywhere P

instance {P : Expr → Prop} [DecidablePred P] (u : CompilationUnit) : Decidable (u.Everywhere P) :=
  inferInstanceAs (Decidable (∀ e ∈ u.expressions, e.Everywhere P))

/-- The variables that occur in a unit: the parameters of its methods and those
in its expressions. -/
def allVariables (u : CompilationUnit) : List Variable :=
  u.methods.flatMap (·.parameters) ++ u.expressions.flatMap Expr.allVariables

/-- Variables that a node of the unit names are listed among those of the unit. -/
theorem everywhere_ownVariables (u : CompilationUnit) :
    u.Everywhere fun e => ∀ v ∈ e.ownVariables, v ∈ u.allVariables := by
  intro e he x hx v hv
  refine List.mem_append_right _ (List.mem_flatMap.mpr ⟨e, he, ?_⟩)
  exact Expr.mem_allVariables.mpr ⟨x, hx, hv⟩

end CompilationUnit

/-! ## Types of variables -/

/-- Variables of one identity have one type. -/
def Variable.Coherent (vs : List Variable) : Prop :=
  ∀ v ∈ vs, ∀ w ∈ vs, v.id = w.id → v.type = w.type

instance (vs : List Variable) : Decidable (Variable.Coherent vs) :=
  inferInstanceAs (Decidable (∀ v ∈ vs, ∀ w ∈ vs, _ → _))

/-- If variables of one identity have one type, identities can be given types. -/
theorem Variable.Coherent.exists_typing {vs : List Variable} (h : Coherent vs) :
    ∃ Γ : VariableId → Ty, ∀ v ∈ vs, v.type = Γ v.id := by
  -- The type of an identity is that of its first occurrence.
  let first (id : VariableId) := vs.find? fun v => v.id == id
  -- Identities that do not occur may have any type.
  refine ⟨fun id => ((first id).map (·.type)).getD .nullType, fun v hv => ?_⟩
  have hsome : (first v.id).isSome = true := by
    simp only [first, List.find?_isSome]
    exact ⟨v, hv, by simp⟩
  obtain ⟨w, hw⟩ := Option.isSome_iff_exists.mp hsome
  have hid : w.id = v.id := by simpa using List.find?_some hw
  show v.type = ((first v.id).map (·.type)).getD .nullType
  rw [hw]
  exact h v hv w (List.mem_of_find?_eq_some hw) hid.symm

/-- The variables of an expression are coherent. -/
abbrev Expr.Coherent (e : Expr) : Prop := Variable.Coherent e.allVariables

/-- The variables of a unit are coherent. -/
abbrev CompilationUnit.Coherent (u : CompilationUnit) : Prop := Variable.Coherent u.allVariables

/-- In a coherent expression references are typed by some assignment of types to identities. -/
theorem Expr.Coherent.typed {e : Expr} (h : e.Coherent) : ∃ Γ, e.Everywhere (Typed Γ) := by
  obtain ⟨Γ, htyped⟩ := h.exists_typing
  exact ⟨Γ, everywhere_typed htyped⟩

/-- In a coherent unit one assignment of types to identities types the references of all members. -/
theorem CompilationUnit.Coherent.typed {u : CompilationUnit} (h : u.Coherent) :
    ∃ Γ, u.Everywhere (Expr.Typed Γ) := by
  obtain ⟨Γ, htyped⟩ := h.exists_typing
  refine ⟨Γ, fun e he => Expr.everywhere_typed fun v hv => htyped v ?_⟩
  -- Parameters come first in the list of variables, those of expressions after them.
  exact List.mem_append_right _ (List.mem_flatMap.mpr ⟨e, he, hv⟩)

end Lowering
