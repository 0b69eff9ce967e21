/-!
# Interleavings

Threads that share a state take turns. A turn says who moves and how; a step
function says what the move makes of the shared state, or that it cannot be made
now. An interleaving is a list of turns, so what holds after every interleaving
follows from what one turn keeps (`invariant_of_play`).
-/

namespace Lowering

variable {σ τ : Type}

/-- The state after the given turns, unless one of them cannot be taken. -/
def play (step : σ → τ → Option σ) (s : σ) : List τ → Option σ
  | [] => some s
  | turn :: rest => (step s turn).bind fun s => play step s rest

variable {step : σ → τ → Option σ} {s s' : σ}

@[simp] theorem play_nil_eq_some : play step s [] = some s' ↔ s = s' :=
  ⟨fun h => Option.some.inj h, fun h => congrArg some h⟩

theorem play_cons_eq_some {turn : τ} {rest : List τ} :
    play step s (turn :: rest) = some s' ↔
      ∃ s₁, step s turn = some s₁ ∧ play step s₁ rest = some s' :=
  Option.bind_eq_some_iff

theorem play_append_eq_some {first second : List τ} :
    play step s (first ++ second) = some s' ↔
      ∃ s₁, play step s first = some s₁ ∧ play step s₁ second = some s' := by
  induction first generalizing s with
  | nil => simp
  | cons turn rest ih =>
    rw [List.cons_append, play_cons_eq_some]
    constructor
    · rintro ⟨s₁, hturn, hplay⟩
      obtain ⟨s₂, hrest, hsecond⟩ := ih.mp hplay
      exact ⟨s₂, play_cons_eq_some.mpr ⟨s₁, hturn, hrest⟩, hsecond⟩
    · rintro ⟨s₂, hfirst, hsecond⟩
      obtain ⟨s₁, hturn, hrest⟩ := play_cons_eq_some.mp hfirst
      exact ⟨s₁, hturn, ih.mpr ⟨s₂, hrest, hsecond⟩⟩

/-- What every turn keeps holds after every interleaving. -/
theorem invariant_of_play {P : σ → Prop}
    (hstep : ∀ s turn s', P s → step s turn = some s' → P s') {turns : List τ}
    (h : play step s turns = some s') (hs : P s) : P s' := by
  induction turns generalizing s with
  | nil =>
    rw [← play_nil_eq_some.mp h]
    exact hs
  | cons turn rest ih =>
    obtain ⟨s₁, hfirst, hrest⟩ := play_cons_eq_some.mp h
    exact ih hrest (hstep s turn s₁ hs hfirst)

end Lowering
