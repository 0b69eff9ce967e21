import Lowering.Proofs.Tree.Subterms
import Lowering.Tree.Transform
import Lowering.Tree.Walk

/-!
# Nodes of all kinds

Units, types, fields, methods, blocks, statements and expressions are the nodes of one
tree. `Node.children` gives the direct parts of a node in source order, and `Node.nodes`
the node and everything below it, each node before its parts. A block statement has one
part, its block; the statements are parts of the block.

Main statements: `Node.nodes_eq` and `Node.childInduction`.
-/

namespace Lowering

/-- A node of a tree. -/
inductive Node where
  | unit (u : CompilationUnit)
  | type (d : TypeDecl)
  | field (f : FieldDecl)
  | method (d : MethodDecl)
  | block (b : Block)
  | stmt (s : Stmt)
  | expr (e : Expr)

namespace Stmt

/-- The direct parts of a statement, in source order. -/
def parts : Stmt → List Node
  | .expression e _ => [.expr e]
  | .block statements span => [.block { statements, span }]
  | .returnValue value _ => value.toList.map .expr
  | .conditional condition whenTrue whenFalse _ =>
    .expr condition :: .stmt whenTrue :: whenFalse.toList.map .stmt
  | .whileLoop condition body _ => [.expr condition, .stmt body]
  | .forLoop initializers condition updates body _ =>
    initializers.map .expr ++ (condition.toList.map .expr ++ (updates.map .expr ++ [.stmt body]))
  | .assertion condition message _ => .expr condition :: message.toList.map .expr
  | .throwValue value _ => [.expr value]

/-- The block of a block statement. -/
def block? : Stmt → Option Block
  | .block statements span => some { statements, span }
  | _ => none

/-- A statement with its block and its expressions, but without the statements in it. -/
def ownNodes (s : Stmt) : List Node :=
  .stmt s :: (s.block?.toList.map .block ++
    s.expressions.flatMap fun e => e.subexpressions.map .expr)

/-- Statements and nodes disagree about blocks: in `Stmt.children` the statements of a block follow
directly, in `Node.children` the block stands between. -/
theorem children_of_block? {s : Stmt} {b : Block} (h : s.block? = some b) :
    s.children = b.statements := by
  cases s with
  | block statements span =>
    cases h
    rfl
  | _ => cases h

/-- A part of a statement is its block, an expression or a statement in it. -/
theorem mem_parts {s : Stmt} {n : Node} (h : n ∈ s.parts) :
    (∃ b, s.block? = some b ∧ n = .block b) ∨ (∃ e, n = .expr e) ∨
      ∃ c ∈ s.children, n = .stmt c := by
  cases s with
  | block statements span =>
    left
    exact ⟨_, rfl, List.mem_singleton.mp h⟩
  | _ =>
    right
    simp only [parts, List.mem_cons, List.mem_append, List.mem_map, List.not_mem_nil, or_false] at h
    simp only [children, List.mem_cons, List.not_mem_nil, or_false]
    -- Both sides are disjunctions over the places that the kind of statement has.
    grind

end Stmt

namespace Node

/-- The direct parts of a node, in source order. -/
def children : Node → List Node
  | .unit u => u.types.map .type
  | .type d => d.fields.map .field ++ d.methods.map .method
  | .field f => f.initializer.toList.map .expr
  | .method d => d.body.toList.map .block
  | .block b => b.statements.map .stmt
  | .stmt s => s.parts
  | .expr e => e.children.map .expr

/-! ## All nodes -/

def ofExpr (e : Expr) : List Node := e.subexpressions.map .expr

def ofStmt (s : Stmt) : List Node := s.substatements.flatMap Stmt.ownNodes

def ofBlock (b : Block) : List Node := .block b :: b.statements.flatMap ofStmt

def ofField (f : FieldDecl) : List Node := .field f :: f.initializer.toList.flatMap ofExpr

def ofMethod (d : MethodDecl) : List Node := .method d :: d.body.toList.flatMap ofBlock

def ofType (d : TypeDecl) : List Node :=
  .type d :: (d.fields.flatMap ofField ++ d.methods.flatMap ofMethod)

/-- The node and all nodes below it, each before its parts. -/
def nodes : Node → List Node
  | .unit u => .unit u :: u.types.flatMap ofType
  | .type d => ofType d
  | .field f => ofField f
  | .method d => ofMethod d
  | .block b => ofBlock b
  | .stmt s => ofStmt s
  | .expr e => ofExpr e

/-- Nodes of a statement are its own and those of the statements in it. Expressions of a statement
come before its children, as in source order: no statement has an expression after a child. -/
theorem ofStmt_eq (s : Stmt) : ofStmt s = s.ownNodes ++ s.children.flatMap ofStmt := by
  rw [ofStmt, Stmt.substatements_eq, List.flatMap_cons, List.flatMap_assoc]
  rfl

/-- The nodes of a tree are its root and the nodes of its parts. -/
theorem nodes_eq (n : Node) : n.nodes = n :: n.children.flatMap nodes := by
  cases n with
  | unit u => simp [nodes, children, List.flatMap_map]
  | type d => simp [nodes, children, ofType, List.flatMap_map]
  | field f => simp [nodes, children, ofField, List.flatMap_map]
  | method d => simp [nodes, children, ofMethod, List.flatMap_map]
  | block b => simp [nodes, children, ofBlock, List.flatMap_map]
  | expr e =>
    simp only [nodes, children, ofExpr, List.flatMap_map]
    -- Expressions have parts of one kind, so their recursion is used as it is.
    rw [Expr.subexpressions_eq, List.map_cons, List.map_flatMap]
  | stmt s =>
    simp only [nodes, children]
    rw [ofStmt_eq]
    -- Here the kinds of statements matter: each lists its expressions and statements in its own
    -- order.
    cases s <;> simp [Stmt.ownNodes, Stmt.block?, Stmt.parts, Stmt.expressions, Stmt.children,
      nodes, ofBlock, ofExpr, List.flatMap_map]

/-- What passes from the parts of a node to the node holds of every node. -/
@[elab_as_elim]
theorem childInduction {P : Node → Prop} (n : Node)
    (step : ∀ n : Node, (∀ c ∈ n.children, P c) → P n) : P n := by
  -- The kinds of nodes, innermost first: each has parts of the kinds before it.
  have hexpr : ∀ e, P (.expr e) := by
    intro e
    induction e using Expr.childInduction with
    | step e ih =>
      apply step
      simpa [children] using ih
  have hstmt : ∀ s, P (.stmt s) := by
    intro s
    induction s using Stmt.childInduction with
    | step s ih =>
      apply step
      intro c hc
      rcases Stmt.mem_parts hc with ⟨b, hb, rfl⟩ | ⟨e, rfl⟩ | ⟨s', hs', rfl⟩
      · -- The statements of the block are those in the statement.
        apply step
        rw [Stmt.children_of_block? hb] at ih
        simpa [children] using ih
      · exact hexpr e
      · exact ih s' hs'
  have hblock : ∀ b, P (.block b) := by
    intro b
    apply step
    simpa [children] using fun s _ => hstmt s
  have hfield : ∀ f, P (.field f) := by
    intro f
    apply step
    simpa [children] using fun e _ => hexpr e
  have hmethod : ∀ d, P (.method d) := by
    intro d
    apply step
    simpa [children] using fun b _ => hblock b
  have htype : ∀ d, P (.type d) := by
    intro d
    apply step
    intro c hc
    rcases List.mem_append.mp hc with hc | hc
    · obtain ⟨f, _, rfl⟩ := List.mem_map.mp hc
      exact hfield f
    · obtain ⟨d, _, rfl⟩ := List.mem_map.mp hc
      exact hmethod d
  cases n with
  | unit u =>
    apply step
    simpa [children] using fun d _ => htype d
  | type d => exact htype d
  | field f => exact hfield f
  | method d => exact hmethod d
  | block b => exact hblock b
  | stmt s => exact hstmt s
  | expr e => exact hexpr e

end Node

/-! ## Traversals of a node -/

variable {m : Type → Type} [Monad m]

/-- Transforms a node of any kind. -/
def Transform.node (t : Transform m) : Node → m Node
  | .unit u => .unit <$> t.unit u
  | .type d => .type <$> t.type d
  | .field f => .field <$> t.field f
  | .method d => .method <$> t.method d
  | .block b => .block <$> t.block b
  | .stmt s => .stmt <$> t.stmt s
  | .expr e => .expr <$> t.expr e

/-- Walks a node of any kind. -/
def Walk.node (w : Walk m) : Node → m Unit
  | .unit u => w.unit u
  | .type d => w.type d
  | .field f => w.field f
  | .method d => w.method d
  | .block b => w.block b
  | .stmt s => w.stmt s
  | .expr e => w.expr e

end Lowering
