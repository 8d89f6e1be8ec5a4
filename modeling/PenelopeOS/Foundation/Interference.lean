import PenelopeOS.Foundation.Run

/-!
# Runs with moves of the surroundings

Some moves of a run belong to a program and the others to its surroundings. When the surroundings change
nothing that the program can tell and the program does the same in states that it cannot tell apart, it
does the same without its surroundings.
-/

namespace PenelopeOS.Foundation

variable {σ ε : Type*} {step : σ → ε → σ → Prop} {alike : σ → σ → Prop} {own : ε → Bool}
  {start start' final : σ} {moves : List (σ × ε)}

/-- What is needed of the program and of its surroundings. -/
structure Undisturbed (step : σ → ε → σ → Prop) (alike : σ → σ → Prop) (own : ε → Bool) : Prop where
  program : ∀ state event next state', own event = true → alike state state' → step state event next →
    ∃ next', step state' event next' ∧ alike next next'
  surroundings : ∀ state event next state', own event = false → alike state state' →
    step state event next → alike next state'

/-- The moves of the program alone lead to a state that it cannot tell apart. -/
theorem Undisturbed.exists_run (h : Undisturbed step alike own) (run : Run step start moves final)
    (hstart : alike start start') :
    ∃ moves' final', Run step start' moves' final' ∧
      moves'.map Prod.snd = (moves.map Prod.snd).filter own ∧ alike final final' := by
  induction run with
  | nil => exact ⟨[], start', .nil, rfl, hstart⟩
  | @snoc moves state next event run hstep ih =>
    obtain ⟨moves', state', hrun, hmoves, halike⟩ := ih
    cases howner : own event with
    | true =>
      obtain ⟨next', hstep', halike'⟩ := h.program state event next state' howner halike hstep
      refine ⟨moves' ++ [(state', event)], next', .snoc hrun hstep', ?_, halike'⟩
      simp [hmoves, howner]
    | false =>
      refine ⟨moves', state', hrun, ?_, h.surroundings state event next state' howner halike hstep⟩
      simp [hmoves, howner]

end PenelopeOS.Foundation
