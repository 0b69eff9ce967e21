import Lowering.Tree.Expr

/-!
# Evaluation of expressions

A reference evaluator. Evaluation goes from left to right over a store of
variables and a heap of fields, and it may fail. What lies outside of the tree is
given by a `World`: operations on values, and the effects of calls and of
instance creation, which are arbitrary partial functions of their inputs and the
heap.

- A non-null assertion fails on null, and so does access to a member of null.
- `&&`, `||` and conditionals evaluate only the parts that they need.
- A sequence yields the value of its last member.
- An update evaluates the receiver of its target once.
-/

namespace Lowering

/-- Values at run time. -/
inductive Value where
  | null
  | void
  | bool (value : Bool)
  | number (value : NumberValue)
  | text (value : String)
  | object (address : Nat)
  deriving DecidableEq

/-- Where a field lives: in an instance, or in the class when it is static. -/
structure Location where
  receiver : Option Value
  owner : String
  name : String
  deriving DecidableEq

/-- The contents of all fields. -/
abbrev Heap := Location → Value

/-- The state of an evaluation; a variable without a value cannot be read. -/
structure State where
  store : VariableId → Option Value
  heap : Heap

/-- What the surroundings of an expression provide. -/
structure World where
  /-- The value of `this`. -/
  self : Value
  unary : UnaryOp → Ty → Value → Option Value
  binary : BinaryOp → Ty → Value → Value → Option Value
  cast : Ty → Value → Option Value
  call : MethodRef → Option Value → List Value → Heap → Option (Value × Heap)
  create : MethodRef → List Value → Heap → Option (Value × Heap)

/-- The value, which must not be null. -/
def Value.nonNull? : Value → Option Value
  | null => none
  | value => some value

def Value.bool? : Value → Option Bool
  | bool value => some value
  | _ => none

namespace World

/-- The location of a field, given the value of its qualifier. An instance field
without qualifier belongs to `this`. -/
def locate (w : World) (f : FieldRef) (qualifier : Option Value) : Option Location := do
  if f.isStatic then
    pure ⟨none, f.enclosing.qualifiedName, f.name⟩
  else
    let receiver ← (qualifier.getD w.self).nonNull?
    pure ⟨some receiver, f.enclosing.qualifiedName, f.name⟩

/-- The receiver of a call, given the value of its qualifier; static methods have
none. -/
def receiver (w : World) (m : MethodRef) (qualifier : Option Value) : Option (Option Value) := do
  if m.isStatic then
    pure none
  else
    let receiver ← (qualifier.getD w.self).nonNull?
    pure (some receiver)

end World

/-- Computations that change the state and may fail. -/
abbrev Eval := StateT State Option

/-- What an assignment writes to. -/
inductive Place where
  | slot (id : VariableId)
  | field (location : Location)

namespace Eval

/-! ## Steps -/

def fail {α : Type} : Eval α := fun _ => none

/-- A partial result that does not depend on the state. -/
def ofOption {α : Type} (a : Option α) : Eval α := fun s => a.map (·, s)

/-- A computation on the heap alone. -/
def onHeap {α : Type} (f : Heap → Option (α × Heap)) : Eval α := fun s =>
  (f s.heap).map fun r => (r.1, { s with heap := r.2 })

def read : Place → Eval Value
  | .slot id => fun s => (s.store id).map (·, s)
  | .field location => fun s => some (s.heap location, s)

/-- Gives a variable a value, or none. -/
def setSlot (id : VariableId) (value : Option Value) : Eval Unit := fun s =>
  some ((), { s with store := fun id' => if id' = id then value else s.store id' })

def write (place : Place) (value : Value) : Eval Unit :=
  match place with
  | .slot id => setSlot id (some value)
  | .field location => fun s =>
    some ((), { s with heap := fun location' =>
      if location' = location then value else s.heap location' })

/-- `+=` or `-=` on a place; the old value is read before the right side. -/
def compound (w : World) (op : BinaryOp) (type : Ty) (right : Eval Value) (place : Place) :
    Eval Value := do
  let old ← read place
  let value ← right
  let new ← ofOption (w.binary op type old value)
  write place new
  pure new

/-- `++` or `--` on a place; the leading form yields the new value. -/
def step (w : World) (op : UnaryOp) (fixity : Fixity) (type : Ty) (place : Place) :
    Eval Value := do
  let old ← read place
  let new ← ofOption (w.unary op type old)
  write place new
  pure (match fixity with | .leading => new | .trailing => old)

end Eval

/-! ## Expressions -/

namespace Expr

open Eval

variable (w : World)

mutual

/-- The value of an expression. -/
def eval : Expr → Eval Value
  | nullLiteral _ => pure .null
  | boolLiteral value _ => pure (.bool value)
  | numberLiteral value _ => pure (.number value)
  | stringLiteral value _ => pure (.text value)
  | thisRef _ => pure w.self
  | varRef v => read (.slot v.id)
  | fieldAccess qualifier target => do
    let q ← evalOption qualifier
    let location ← ofOption (w.locate target q)
    read (.field location)
  | call qualifier target arguments => do
    let q ← evalOption qualifier
    let values ← evalList arguments
    -- A null receiver is noticed after the arguments have been evaluated.
    let receiver ← ofOption (w.receiver target q)
    onHeap (w.call target receiver values)
  | newInstance target arguments => do
    let values ← evalList arguments
    onHeap (w.create target values)
  | binary op left right type =>
    match op with
    | .assign => do
      -- The place is settled before the right side runs.
      let place ← left.place
      let value ← right.eval
      write place value
      pure value
    | .plusAssign => left.place >>= compound w .plus type right.eval
    | .minusAssign => left.place >>= compound w .minus type right.eval
    | .conditionalAnd => do
      let value ← left.eval
      if ← ofOption value.bool? then right.eval else pure (.bool false)
    | .conditionalOr => do
      let value ← left.eval
      if ← ofOption value.bool? then pure (.bool true) else right.eval
    | _ => do
      let l ← left.eval
      let r ← right.eval
      ofOption (w.binary op type l r)
  | unary op fixity operand type =>
    match op with
    | .increment | .decrement => operand.place >>= step w op fixity type
    | _ => do
      let value ← operand.eval
      ofOption (w.unary op type value)
  | cast type operand => do
    let value ← operand.eval
    ofOption (w.cast type value)
  | conditional _ condition whenTrue whenFalse => do
    let value ← condition.eval
    if ← ofOption value.bool? then whenTrue.eval else whenFalse.eval
  | notNull operand => do
    let value ← operand.eval
    ofOption value.nonNull?
  | multi expressions => evalAfter .void expressions
  | declare fragments => do
    evalFragments fragments
    pure .void
termination_by structural e => e

/-- The place that an expression denotes; only variables and fields denote one. -/
def place : Expr → Eval Place
  | varRef v => pure (.slot v.id)
  | fieldAccess qualifier target => do
    let q ← evalOption qualifier
    let location ← ofOption (w.locate target q)
    pure (.field location)
  | _ => fail
termination_by structural e => e

def evalOption : Option Expr → Eval (Option Value)
  | none => pure none
  | some e => do
    let value ← e.eval
    pure (some value)
termination_by structural e => e

def evalList : List Expr → Eval (List Value)
  | [] => pure []
  | e :: es => do
    let value ← e.eval
    let values ← evalList es
    pure (value :: values)
termination_by structural es => es

/-- The value of the last expression, or the given one when there is none. -/
def evalAfter (last : Value) : List Expr → Eval Value
  | [] => pure last
  | e :: es => do
    let value ← e.eval
    evalAfter value es
termination_by structural es => es

def evalFragments : List (Fragment Expr) → Eval Unit
  | [] => pure ()
  | ⟨binder, initializer⟩ :: fs => do
    let value ← evalOption initializer
    -- A variable that is declared anew without a value loses the one it had.
    setSlot binder.id value
    evalFragments fs
termination_by structural fs => fs

end

end Expr

end Lowering
