import Lowering.Conversion.Site
import Lowering.Tree.Equality
import Lowering.Tree.Transform

/-!
# The traversal over conversion sites

`conversion handler` is the bottom-up transformation that brings every
conversion site of a tree to the handler.

| site | inferred type | declared type |
|---|---|---|
| right side of an assignment | type of the left side | type of the field's declaration |
| variable initializer | type of the variable | type of the variable |
| field initializer | type of the field | type of the field's declaration |
| argument of a call or `new` | parameter type | parameter type of the declaration |
| return value | return type of the method | return type of the declaration |

Receivers, thrown values and references that flow into primitive slots go to the
handler's non-null hook. The target of `++`, `--`, `+=` or `-=` that has a
wrapper type is unboxed as well, but it has to stay assignable: the hook gets a
separate read of the target, evaluated first.
-/

namespace Lowering

namespace Conversion

variable {m : Type → Type} [Monad m]

/-! ## Values -/

/-- A value that must not be null. -/
def nonNullValue (h : Handler m) (inferred declared : Ty) (value : Expr) :
    StateT Cursor m Expr := do
  let cursor ← get
  h.onNonNull inferred declared value cursor.site

/-- A value that flows into a slot. A reference in a primitive slot is unboxed,
so it must not be null. -/
def slotValue (h : Handler m) (inferred declared : Ty) (value : Expr) :
    StateT Cursor m Expr := do
  if inferred.isPrimitive && !value.type.isPrimitive then
    nonNullValue h inferred declared value
  else
    let cursor ← get
    h.onSlot inferred declared value cursor.site

/-- A value that is dereferenced, thrown or unboxed. -/
def requiredValue (h : Handler m) (value : Expr) : StateT Cursor m Expr :=
  nonNullValue h value.type value.type value

/-- The condition of a statement or of a conditional expression. -/
def conditionValue (h : Handler m) (value : Expr) : StateT Cursor m Expr :=
  slotValue h (.prim .boolean) (.prim .boolean) value

/-- An operand of a numeric or logical operator; primitive values need nothing. -/
def operandValue (h : Handler m) (value : Expr) : StateT Cursor m Expr :=
  if value.type.isPrimitive then pure value else requiredValue h value

/-- A receiver; a static member's receiver is not dereferenced. -/
def receiverValue (h : Handler m) (isStatic : Bool) :
    Option Expr → StateT Cursor m (Option Expr)
  | none => pure none
  | some value =>
    if isStatic then pure (some value)
    else do
      let value ← requiredValue h value
      pure (some value)

/-- Arguments with the parameter types at the call and in the declaration.
Arguments beyond either list stay as they are. -/
def argumentValues (h : Handler m) :
    (inferred declared : List Ty) → List Expr → StateT Cursor m (List Expr)
  | inferred :: inferredRest, declared :: declaredRest, value :: rest => do
    let value ← slotValue h inferred declared value
    let rest ← argumentValues h inferredRest declaredRest rest
    pure (value :: rest)
  | _, _, values => pure values

/-- The arguments of a call to the given method. -/
def argumentsOf (h : Handler m) (target : MethodRef) (arguments : List Expr) :
    StateT Cursor m (List Expr) :=
  argumentValues h target.parameters target.declaration.parameters arguments

/-- The initializers of a declaration. -/
def initializerValues (h : Handler m) :
    List (Fragment Expr) → StateT Cursor m (List (Fragment Expr))
  | [] => pure []
  | ⟨binder, none⟩ :: rest => do
    let rest ← initializerValues h rest
    pure (⟨binder, none⟩ :: rest)
  | ⟨binder, some value⟩ :: rest => do
    let value ← slotValue h binder.type binder.type value
    let rest ← initializerValues h rest
    pure (⟨binder, some value⟩ :: rest)

/-! ## Assignment targets -/

/-- The declared type of an assignment target. -/
def targetDeclaredType : Expr → Ty
  | .fieldAccess _ target => target.declaration.type
  | target => target.type

/-- The name of the temporaries that hold the receiver of an updated field. -/
def receiverTemporary : String := "tmp"

/-- Binds the receiver of a field to a temporary when evaluating it twice would
repeat its effects. Gives the declarations to evaluate first and the target to
use after them. -/
def bindReceiver : Expr → StateT Cursor m (List Expr × Expr)
  | .fieldAccess (some qualifier) target => do
    if qualifier.isIdempotent then
      pure ([], .fieldAccess (some qualifier) target)
    else
      let cursor ← get
      let (temporary, cursor) := cursor.fresh receiverTemporary qualifier.type
      set cursor
      pure ([.declareOne temporary (some qualifier)],
        .fieldAccess (some (.varRef temporary)) target)
  | target => pure ([], target)

/-- An update that reads its target, unboxes it and writes it back: `n++` becomes
`(n!, n++)`. When the hook leaves the read as it is and no temporary is needed,
the update stands alone. -/
def guardedUpdate (h : Handler m) (target : Expr) (update : Expr → Expr) :
    StateT Cursor m Expr := do
  if target.type.unboxed?.isNone then
    pure (update target)
  else
    let (bindings, target) ← bindReceiver target
    let checked ← requiredValue h target
    let first := bindings ++ (if checked == target then [] else [checked])
    if first.isEmpty then
      pure (update target)
    else
      pure (.multi (first ++ [update target]))

/-! ## Sequences -/

/-- Replaces a sequence inside a sequence by its members. -/
def flatten : List Expr → List Expr
  | [] => []
  | .multi inner :: rest => inner ++ flatten rest
  | e :: rest => e :: flatten rest

/-- Whether a check directly after an equal one can be left out. -/
def isRepeatedCheck (earlier later : Expr) : Bool :=
  earlier.isNotNull && earlier.isIdempotent && later == earlier

/-- Leaves out checks that repeat the member kept before them. -/
def dropRepeatedAfter (kept : Expr) : List Expr → List Expr
  | [] => []
  | e :: rest =>
    if isRepeatedCheck kept e then dropRepeatedAfter kept rest
    else e :: dropRepeatedAfter e rest

/-- Leaves out repeated checks from a sequence. -/
def dropRepeated : List Expr → List Expr
  | [] => []
  | e :: rest => e :: dropRepeatedAfter e rest

/-! ## Operations -/

/-- A binary operation whose operands have been transformed. -/
def binaryOperation (h : Handler m) (op : BinaryOp) (left right : Expr) (type : Ty) :
    StateT Cursor m Expr :=
  match op with
  | .assign => do
    let right ← slotValue h left.type (targetDeclaredType left) right
    pure (.binary op left right type)
  | .plusAssign | .minusAssign => do
    let right ←
      if left.type.unboxed?.isSome then operandValue h right
      else slotValue h left.type (targetDeclaredType left) right
    guardedUpdate h left fun target => .binary op target right type
  | .equals | .notEquals =>
    -- References are compared by identity unless the other side is primitive.
    match left.type.isPrimitive, right.type.isPrimitive with
    | true, false => do
      let right ← operandValue h right
      pure (.binary op left right type)
    | false, true => do
      let left ← operandValue h left
      pure (.binary op left right type)
    | _, _ => pure (.binary op left right type)
  | .plus =>
    -- A sum that is a reference is a concatenation of texts.
    if type.isPrimitive then do
      let left ← operandValue h left
      let right ← operandValue h right
      pure (.binary op left right type)
    else
      pure (.binary op left right type)
  | _ => do
    let left ← operandValue h left
    let right ← operandValue h right
    pure (.binary op left right type)

/-- A unary operation whose operand has been transformed. -/
def unaryOperation (h : Handler m) (op : UnaryOp) (fixity : Fixity) (operand : Expr) (type : Ty) :
    StateT Cursor m Expr :=
  match op with
  | .increment | .decrement => guardedUpdate h operand fun target => .unary op fixity target type
  | .plus | .minus | .not => do
    let operand ← operandValue h operand
    pure (.unary op fixity operand type)

/-- A conditional expression whose parts have been transformed; the branches are
unboxed when the result is primitive. -/
def conditionalOperation (h : Handler m) (type : Ty) (condition whenTrue whenFalse : Expr) :
    StateT Cursor m Expr := do
  let condition ← conditionValue h condition
  if type.isPrimitive then
    let whenTrue ← operandValue h whenTrue
    let whenFalse ← operandValue h whenFalse
    pure (.conditional type condition whenTrue whenFalse)
  else
    pure (.conditional type condition whenTrue whenFalse)

end Conversion

open Conversion in
/-- The transformation that brings every conversion site to the handler. -/
def conversion {m : Type → Type} [Monad m] (h : Handler m) : Transform (StateT Cursor m) where
  enterType d := modify (·.enterType d)
  exitType _ := modify (·.exitType)
  enterField f := modify (·.enterField f)
  enterMethod d := modify (·.enterMethod d)
  exitMethod _ := modify (·.exitMethod)
  enterStatement s := modify (·.enterStatement s)
  exitStatement _ := modify (·.exitStatement)
  onField f :=
    match f.initializer with
    | none => pure f
    | some value => do
      let value ← slotValue h f.ref.type f.ref.declaration.type value
      pure { f with initializer := some value }
  onReturn value span := do
    let cursor ← get
    match value, cursor.site.enclosingMethod with
    | some value, some method => do
      let value ← slotValue h method.returnType method.declaration.returnType value
      pure (.returnValue (some value) span)
    | _, _ => pure (.returnValue value span)
  onThrow value span := do
    let value ← requiredValue h value
    pure (.throwValue value span)
  onIf condition whenTrue whenFalse span := do
    let condition ← conditionValue h condition
    pure (.conditional condition whenTrue whenFalse span)
  onWhile condition body span := do
    let condition ← conditionValue h condition
    pure (.whileLoop condition body span)
  onFor initializers condition updates body span :=
    match condition with
    | none => pure (.forLoop initializers none updates body span)
    | some condition => do
      let condition ← conditionValue h condition
      pure (.forLoop initializers (some condition) updates body span)
  onAssert condition message span := do
    let condition ← conditionValue h condition
    pure (.assertion condition message span)
  onFieldAccess qualifier target := do
    let qualifier ← receiverValue h target.isStatic qualifier
    pure (.fieldAccess qualifier target)
  onCall qualifier target arguments := do
    let qualifier ← receiverValue h target.isStatic qualifier
    let arguments ← argumentsOf h target arguments
    pure (.call qualifier target arguments)
  onNewInstance target arguments := do
    let arguments ← argumentsOf h target arguments
    pure (.newInstance target arguments)
  onBinary := binaryOperation h
  onUnary := unaryOperation h
  onCast type operand := do
    if type.isPrimitive then
      let operand ← slotValue h type type operand
      pure (.cast type operand)
    else
      pure (.cast type operand)
  onConditional := conditionalOperation h
  onMulti expressions := pure (.multi (dropRepeated (flatten expressions)))
  onDeclare fragments := do
    let fragments ← initializerValues h fragments
    pure (.declare fragments)

end Lowering
