import Lowering.Proofs.Tree.Firing

/-!
# Two transformations that do the same

Two transformations may run in different monads and still do the same, for
instance if one of them only keeps more records. When every hook of the one does
what the hook of the other does, so do the transformations: this is what holds of
firing hooks, the firings left aside.

Main statement: `Transform.Simulated.unit`.
-/

namespace Lowering

/-- A notion of "these two computations do the same" that passes through `pure` and
`bind`. -/
structure Simulation (m n : Type → Type) [Monad m] [Monad n] where
  Holds : {α : Type} → m α → n α → Prop
  pure : ∀ {α : Type} (a : α), Holds (Pure.pure a) (Pure.pure a)
  bind : ∀ {α β : Type} {x : m α} {y : n α} {f : α → m β} {g : α → n β},
    Holds x y → (∀ a, Holds (f a) (g a)) → Holds (x >>= f) (y >>= g)

variable {m n : Type → Type} [Monad m] [Monad n]

namespace Simulation

/-- A last step that only packs the result. -/
theorem map (L : Simulation m n) {α β : Type} {x : m α} {y : n α} (h : L.Holds x y) (f : α → β) :
    L.Holds (x >>= fun a => Pure.pure (f a)) (y >>= fun a => Pure.pure (f a)) :=
  L.bind h fun a => L.pure (f a)

/-- The same notion, whichever hooks fire. -/
def unmarked (L : Simulation m n) : FiringLogic m n where
  Holds _ x y := L.Holds x y
  pure := L.pure
  bind := L.bind

end Simulation

namespace Transform

/-- Every hook of the first transformation does what the hook of the second one
does. -/
abbrev Simulated (L : Simulation m n) (t : Transform m) (t' : Transform n) : Prop :=
  Fires L.unmarked t t'

/-- Whole transformations do the same if their hooks do. It is the statement about firing hooks,
read without the list of firings. -/
theorem Simulated.unit [LawfulMonad m] [LawfulMonad n] {L : Simulation m n} {t : Transform m}
    {t' : Transform n} (h : Simulated L t t') (u : CompilationUnit) :
    L.Holds (t.unit u) (t'.unit u) :=
  Fires.unit h u

end Transform

end Lowering
