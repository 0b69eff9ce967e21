import Lowering.Proofs.Tree.Correspondence

/-!
# Skeletons

The skeleton of a unit is all of it but the expressions: the same unit with a
placeholder in the place of every expression. It still has the name of the unit, the
types with their supertypes and spans, the fields and methods with their parameters,
and the statements with their kinds, their nesting, their spans and the presence and
number of their parts.

Main statement: `CompilationUnit.Related.skeleton`, whatever happens to the expressions
of a unit on a traversal, its skeleton stays.
-/

namespace Lowering

/-- Stands in for any expression. -/
def Expr.placeholder : Expr := .nullLiteral (.prim .void)

/-! ## Erasing expressions -/

namespace Stmt

mutual

/-- The statement without its expressions. -/
def skeleton : Stmt → Stmt
  | expression _ span => expression .placeholder span
  | block ss span => block (skeletons ss) span
  | returnValue v span => returnValue (v.map fun _ => .placeholder) span
  | conditional _ a b span => conditional .placeholder a.skeleton (optionalSkeleton b) span
  | whileLoop _ b span => whileLoop .placeholder b.skeleton span
  | forLoop i c u b span =>
    forLoop (i.map fun _ => .placeholder) (c.map fun _ => .placeholder)
      (u.map fun _ => .placeholder) b.skeleton span
  | assertion _ m span => assertion .placeholder (m.map fun _ => .placeholder) span
  | throwValue _ span => throwValue .placeholder span
termination_by structural s => s

def optionalSkeleton : Option Stmt → Option Stmt
  | none => none
  | some s => some s.skeleton
termination_by structural s => s

def skeletons : List Stmt → List Stmt
  | [] => []
  | s :: ss => s.skeleton :: skeletons ss
termination_by structural ss => ss

end

/-- Helpers of the mutual recursion are maps, as `skeletons` is too. -/
theorem optionalSkeleton_eq_map (s : Option Stmt) : optionalSkeleton s = s.map skeleton := by
  cases s <;> rfl

theorem skeletons_eq_map (ss : List Stmt) : skeletons ss = ss.map skeleton := by
  induction ss with
  | nil => rfl
  | cons s ss ih => rw [skeletons, ih, List.map_cons]

end Stmt

/-- Spans are no expressions and stay. -/
def Block.skeleton (b : Block) : Block :=
  { b with statements := b.statements.map Stmt.skeleton }

def FieldDecl.skeleton (f : FieldDecl) : FieldDecl :=
  { f with initializer := f.initializer.map fun _ => .placeholder }

def MethodDecl.skeleton (d : MethodDecl) : MethodDecl :=
  { d with body := d.body.map Block.skeleton }

def TypeDecl.skeleton (d : TypeDecl) : TypeDecl :=
  { d with fields := d.fields.map FieldDecl.skeleton, methods := d.methods.map MethodDecl.skeleton }

/-- The unit without its expressions. -/
def CompilationUnit.skeleton (u : CompilationUnit) : CompilationUnit :=
  { u with types := u.types.map TypeDecl.skeleton }

/-! ## Related units have one skeleton -/

/-- A function that cannot tell related members apart cannot tell the lists apart. Members on the
left are known, because the induction over statements only speaks of children. -/
theorem map_eq_of_forall₂ {α γ : Type} {R : α → α → Prop} {f : α → γ} {as bs : List α}
    (h : List.Forall₂ R as bs) (hf : ∀ a ∈ as, ∀ b, R a b → f b = f a) : bs.map f = as.map f := by
  induction h with
  | nil => rfl
  | cons hab _ ih =>
    rw [List.map_cons, List.map_cons, hf _ List.mem_cons_self _ hab,
      ih fun a ha => hf a (List.mem_cons_of_mem _ ha)]

/-- The same for optional parts: presence of a part is kept along with what the function sees of
it. -/
theorem map_eq_of_optionRel {α γ : Type} {R : α → α → Prop} {f : α → γ} {a b : Option α}
    (h : Option.Rel R a b) (hf : ∀ x ∈ a.toList, ∀ y, R x y → f y = f x) : b.map f = a.map f := by
  cases h with
  | none => rfl
  | some hxy => simp [hf _ (by simp) _ hxy]

/-- Whatever the steps do to expressions, the statement around them keeps its kind, its nesting and
its spans. -/
theorem Stmt.Related.skeleton {S : StmtSteps} {s s' : Stmt} (h : Stmt.Related S s s') :
    s'.skeleton = s.skeleton := by
  -- Expressions of either side become placeholders, so only child statements need the
  -- induction hypothesis.
  induction s using Stmt.childInduction generalizing s' with
  | step s ih =>
    cases h with
    | expression _ => rfl
    | throwValue _ => rfl
    | block hss =>
      simp only [Stmt.skeleton, skeletons_eq_map]
      rw [map_eq_of_forall₂ hss fun a ha _ hab => ih a ha hab]
    | returnValue hv =>
      simp only [Stmt.skeleton]
      rw [map_eq_of_optionRel hv fun _ _ _ _ => rfl]
    | conditional _ ha hb =>
      simp only [Stmt.skeleton, optionalSkeleton_eq_map]
      rw [ih _ List.mem_cons_self ha,
        map_eq_of_optionRel hb fun a ha _ hab => ih a (List.mem_cons_of_mem _ ha) hab]
    | whileLoop _ hb =>
      simp only [Stmt.skeleton]
      rw [ih _ List.mem_cons_self hb]
    | forLoop hi hc hu hb =>
      simp only [Stmt.skeleton]
      -- Number of initializers and updates and presence of the condition survive; nothing else of
      -- them does.
      rw [map_eq_of_forall₂ hi fun _ _ _ _ => rfl, map_eq_of_optionRel hc fun _ _ _ _ => rfl,
        map_eq_of_forall₂ hu fun _ _ _ _ => rfl, ih _ List.mem_cons_self hb]
    | assertion _ hm =>
      simp only [Stmt.skeleton]
      rw [map_eq_of_optionRel hm fun _ _ _ _ => rfl]

section

variable {U : UnitSteps}

/-- An initializer may change but not appear or disappear. -/
theorem FieldDecl.Related.skeleton {f f' : FieldDecl} (h : f.Related U f') :
    f'.skeleton = f.skeleton := by
  unfold FieldDecl.skeleton
  rw [h.ref, h.span, map_eq_of_optionRel h.initializer fun _ _ _ _ => rfl]

/-- Signature and statements of a method stay; abstract methods stay without body. -/
theorem MethodDecl.Related.skeleton {d d' : MethodDecl} (h : d.Related U d') :
    d'.skeleton = d.skeleton := by
  have hbody : d'.body.map Block.skeleton = d.body.map Block.skeleton := by
    apply map_eq_of_optionRel h.body
    intro b _ b' hb
    unfold Block.skeleton
    rw [hb.span, map_eq_of_forall₂ hb.statements fun _ _ _ hs => hs.skeleton]
  unfold MethodDecl.skeleton
  rw [h.ref, h.parameters, h.span, hbody]

/-- A type keeps its supertypes and the order of its members. -/
theorem TypeDecl.Related.skeleton {d d' : TypeDecl} (h : d.Related U d') :
    d'.skeleton = d.skeleton := by
  unfold TypeDecl.skeleton
  rw [h.ref, h.superclass, h.interfaces, h.span,
    map_eq_of_forall₂ h.fields fun _ _ _ hf => hf.skeleton,
    map_eq_of_forall₂ h.methods fun _ _ _ hd => hd.skeleton]

/-- Related units have one skeleton. The steps are arbitrary, so this holds of every traversal whose
hooks for statements and declarations give back what they are given. -/
theorem CompilationUnit.Related.skeleton {u u' : CompilationUnit} (h : u.Related U u') :
    u'.skeleton = u.skeleton := by
  unfold CompilationUnit.skeleton
  rw [h.name, map_eq_of_forall₂ h.types fun _ _ _ hd => hd.skeleton]

end

end Lowering
