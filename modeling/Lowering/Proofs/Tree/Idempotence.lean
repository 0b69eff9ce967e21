import Lowering.Proofs.Tree.Subterms

/-!
# Expressions that may stand twice

Checks repeat a read, and defaults name a value twice. Both do so only if the expression
is idempotent, which is a recursive question about its parts. The answer is "yes" exactly
if no node at any depth has an effect. So the answer passes to all parts, and it does not
change when a part is put under an assertion.

The place of a part is given by the frames around it, from the outside to the inside:
`plug frames x` is the expression that has `x` in this place.

Main statement: `Expr.isIdempotent_iff_effectFree`.
-/

namespace Lowering

namespace Expr

/-! ## Nodes with effects -/

/-- Calls, instance creations, sequences, declarations, assignments and steps. -/
def isEffectful : Expr → Bool
  | call .. => true
  | newInstance .. => true
  | multi _ => true
  | declare _ => true
  | binary .assign .. => true
  | binary .plusAssign .. => true
  | binary .minusAssign .. => true
  | unary .increment .. => true
  | unary .decrement .. => true
  | _ => false

/-- A node is idempotent if it has no effect itself and its parts are idempotent. -/
theorem isIdempotent_iff (e : Expr) :
    e.isIdempotent = true ↔
      e.isEffectful = false ∧ ∀ c ∈ e.children, c.isIdempotent = true := by
  cases e with
  -- A field without receiver is one of the own instance or a static one; both are read without
  -- effect.
  | fieldAccess q f => cases q <;> simp [isIdempotent, isEffectful, children]
  | binary op l r t =>
    cases op <;> simp [isIdempotent, isEffectful, children, BinaryOp.isAssignment]
  | unary op fixity x t =>
    cases op <;> simp [isIdempotent, isEffectful, children, UnaryOp.hasSideEffect]
  | conditional t c a b => simp [isIdempotent, isEffectful, children, and_assoc]
  | _ => simp [isIdempotent, isEffectful, children]

/-- An expression is idempotent if no node at any depth has an effect. The recursion of the function
is unfolded once here, and never again. -/
theorem isIdempotent_iff_everywhere (e : Expr) :
    e.isIdempotent = true ↔ e.Everywhere fun x => x.isEffectful = false := by
  induction e using childInduction with
  | step e ih =>
    rw [isIdempotent_iff, everywhere_iff]
    exact and_congr_right fun _ => forall₂_congr ih

/-! ## Places -/

/-- A node with a place for one of its parts. -/
inductive Frame where
  /-- The receiver of a field. -/
  | fieldReceiver (target : FieldRef)
  /-- The receiver of a call. -/
  | callReceiver (target : MethodRef) (arguments : List Expr)
  /-- An argument of a call, between other arguments. -/
  | callArgument (qualifier : Option Expr) (target : MethodRef) (before after : List Expr)
  /-- An argument of an instance creation. -/
  | newArgument (target : MethodRef) (before after : List Expr)
  /-- The left side of an operation. -/
  | left (op : BinaryOp) (right : Expr) (type : Ty)
  /-- The right side of an operation. -/
  | right (op : BinaryOp) (left : Expr) (type : Ty)
  /-- The operand of a unary operation. -/
  | operand (op : UnaryOp) (fixity : Fixity) (type : Ty)
  /-- The operand of a cast. -/
  | castOperand (type : Ty)
  /-- The condition of a conditional. -/
  | condition (type : Ty) (whenTrue whenFalse : Expr)
  /-- The first branch of a conditional. -/
  | whenTrue (type : Ty) (condition whenFalse : Expr)
  /-- The second branch of a conditional. -/
  | whenFalse (type : Ty) (condition whenTrue : Expr)
  /-- What an assertion is about. -/
  | asserted
  /-- A member of a sequence. -/
  | member (before after : List Expr)
  /-- The initializer of a declared variable. -/
  | initializer (before : List (Fragment Expr)) (binder : Variable)
      (after : List (Fragment Expr))

/-- The node with a part put in its place. -/
def Frame.fill : Frame → Expr → Expr
  | fieldReceiver f, x => .fieldAccess (some x) f
  | callReceiver m as, x => .call (some x) m as
  | callArgument q m before after, x => .call q m (before ++ x :: after)
  | newArgument m before after, x => .newInstance m (before ++ x :: after)
  | left op r t, x => .binary op x r t
  | right op l t, x => .binary op l x t
  | operand op fixity t, x => .unary op fixity x t
  | castOperand t, x => .cast t x
  | condition t a b, x => .conditional t x a b
  | whenTrue t c b, x => .conditional t c x b
  | whenFalse t c a, x => .conditional t c a x
  | asserted, x => .notNull x
  | member before after, x => .multi (before ++ x :: after)
  | initializer before binder after, x => .declare (before ++ ⟨binder, some x⟩ :: after)

/-- The expression that has a part in the place that the frames give, the outermost frame
first. -/
def plug (frames : List Frame) (x : Expr) : Expr := frames.foldr Frame.fill x

/-- What is put into a frame is a direct part of the result. -/
theorem mem_children_fill (frame : Frame) (x : Expr) : x ∈ (frame.fill x).children := by
  cases frame <;> simp [Frame.fill, children]

/-- Every part of a node has a place in it. A part may occur more than once, and then any of its
places will do. -/
theorem exists_fill_of_mem_children {e x : Expr} (h : x ∈ e.children) :
    ∃ frame : Frame, frame.fill x = e := by
  cases e with
  | fieldAccess q f =>
    obtain rfl := Option.mem_toList.mp h
    exact ⟨.fieldReceiver f, rfl⟩
  | call q target as =>
    rcases List.mem_append.mp h with hq | has
    · obtain rfl := Option.mem_toList.mp hq
      exact ⟨.callReceiver target as, rfl⟩
    -- Where parts stand in a list, the frame holds those on both sides.
    · obtain ⟨before, after, rfl⟩ := List.append_of_mem has
      exact ⟨.callArgument q target before after, rfl⟩
  | newInstance target as =>
    obtain ⟨before, after, rfl⟩ := List.append_of_mem (show x ∈ as from h)
    exact ⟨.newArgument target before after, rfl⟩
  | binary op l r t =>
    simp only [children, List.mem_cons, List.not_mem_nil, or_false] at h
    rcases h with rfl | rfl
    · exact ⟨.left op r t, rfl⟩
    · exact ⟨.right op l t, rfl⟩
  | unary op fixity y t =>
    obtain rfl := List.mem_singleton.mp h
    exact ⟨.operand op fixity t, rfl⟩
  | cast t y =>
    obtain rfl := List.mem_singleton.mp h
    exact ⟨.castOperand t, rfl⟩
  | conditional t c a b =>
    simp only [children, List.mem_cons, List.not_mem_nil, or_false] at h
    rcases h with rfl | rfl | rfl
    · exact ⟨.condition t a b, rfl⟩
    · exact ⟨.whenTrue t c b, rfl⟩
    · exact ⟨.whenFalse t c a, rfl⟩
  | notNull y =>
    obtain rfl := List.mem_singleton.mp h
    exact ⟨.asserted, rfl⟩
  | multi es =>
    obtain ⟨before, after, rfl⟩ := List.append_of_mem (show x ∈ es from h)
    exact ⟨.member before after, rfl⟩
  | declare fs =>
    obtain ⟨⟨binder, i⟩, hf, hx⟩ := List.mem_filterMap.mp h
    obtain rfl : i = some x := hx
    obtain ⟨before, after, rfl⟩ := List.append_of_mem hf
    exact ⟨.initializer before binder after, rfl⟩
  | _ => cases h

/-- The parts of an expression are what has a place in it. -/
theorem mem_subexpressions_iff_plug {e x : Expr} :
    x ∈ e.subexpressions ↔ ∃ frames, e = plug frames x := by
  constructor
  · intro hx
    induction e using childInduction with
    | step e ih =>
      rw [subexpressions_eq, List.mem_cons, List.mem_flatMap] at hx
      rcases hx with rfl | ⟨c, hc, hx⟩
      · exact ⟨[], rfl⟩
      -- The place in the child, and around it the place of the child.
      · obtain ⟨frames, rfl⟩ := ih c hc hx
        obtain ⟨frame, rfl⟩ := exists_fill_of_mem_children hc
        exact ⟨frame :: frames, rfl⟩
  · rintro ⟨frames, rfl⟩
    induction frames with
    | nil =>
      rw [subexpressions_eq]
      exact List.mem_cons_self
    | cons frame frames ih =>
      rw [subexpressions_eq]
      refine List.mem_cons_of_mem _ (List.mem_flatMap.mpr ⟨plug frames x, ?_, ih⟩)
      exact mem_children_fill frame _

/-- Parts that give the same answer may take each other's place, however deep they stand. -/
theorem isIdempotent_plug {x y : Expr} (h : x.isIdempotent = y.isIdempotent)
    (frames : List Frame) : (plug frames x).isIdempotent = (plug frames y).isIdempotent := by
  induction frames with
  | nil => exact h
  | cons frame frames ih =>
    show (frame.fill (plug frames x)).isIdempotent = (frame.fill (plug frames y)).isIdempotent
    -- Frames with an effect of their own give `false` for both sides.
    cases frame <;> simp [Frame.fill, isIdempotent, ih]

/-! ## Idempotence -/

/-- An expression is idempotent exactly if no node in it is a call, an instance creation, a
sequence, a declaration, an assignment or a step. Then all of its parts are idempotent.
Every part has a place in the expression, and in whatever place it is put under an
assertion, the answer for the whole stays the same. -/
theorem isIdempotent_iff_effectFree (e : Expr) :
    (e.isIdempotent = true ↔ ∀ x ∈ e.subexpressions, x.isEffectful = false) ∧
      (e.isIdempotent = true → ∀ x ∈ e.subexpressions, x.isIdempotent = true) ∧
      ∀ x ∈ e.subexpressions, (∃ frames, e = plug frames x) ∧
        ∀ frames, e = plug frames x →
          (plug frames (.notNull x)).isIdempotent = e.isIdempotent := by
  refine ⟨e.isIdempotent_iff_everywhere, fun h x hx => ?_, fun x hx => ?_⟩
  · have heffects : x.Everywhere fun y => y.isEffectful = false :=
      (e.isIdempotent_iff_everywhere.mp h).part hx
    exact x.isIdempotent_iff_everywhere.mpr heffects
  · refine ⟨mem_subexpressions_iff_plug.mp hx, ?_⟩
    rintro frames rfl
    -- An assertion asks its operand.
    have hasserted : (notNull x).isIdempotent = x.isIdempotent := rfl
    exact isIdempotent_plug hasserted frames

end Expr

end Lowering
