import Mathlib.Data.List.Basic

/-!
# Runs of a labelled transition relation

A run is recorded by its moves, each the state it was made in together with the event. A condition
on moves may look at both, so a run can be restricted to moves that are harmless where they are
made, and a property of moves can be compared with such a restriction.
-/

namespace PenelopeOS.Foundation

variable {σ ε : Type*}

inductive Run (step : σ → ε → σ → Prop) (start : σ) : List (σ × ε) → σ → Prop
  | nil : Run step start [] start
  | snoc {moves : List (σ × ε)} {state state' : σ} {event : ε} (run : Run step start moves state)
      (hstep : step state event state') : Run step start (moves ++ [(state, event)]) state'

namespace Run

variable {step : σ → ε → σ → Prop} {start final : σ} {moves : List (σ × ε)}

theorem forall_mem_snoc {property : σ → ε → Prop} {state : σ} {event : ε} :
    (∀ move ∈ moves ++ [(state, event)], property move.1 move.2) ↔
      (∀ move ∈ moves, property move.1 move.2) ∧ property state event := by
  simp only [List.forall_mem_append, List.forall_mem_singleton]

theorem cons {state : σ} {event : ε} (run : Run step start moves final)
    (hstep : step state event start) : Run step state ((state, event) :: moves) final := by
  induction run with
  | nil => exact .snoc .nil hstep
  | snoc run hmove ih => exact .snoc ih hmove

/-- What every good move keeps holds at the end of a run of good moves. -/
theorem invariant (run : Run step start moves final) (inv : σ → Prop) (good : σ → ε → Prop)
    (hstart : inv start)
    (hstep : ∀ state event state', inv state → good state event → step state event state' →
      inv state')
    (hgood : ∀ move ∈ moves, good move.1 move.2) : inv final := by
  induction run with
  | nil => exact hstart
  | snoc run hmove ih =>
    obtain ⟨hmoves, hlast⟩ := forall_mem_snoc.mp hgood
    exact hstep _ _ _ (ih hmoves) hlast hmove

/-- Up to the first bad move the invariant holds, so a property that amounts to being good wherever
the invariant holds amounts to it along the whole run. -/
theorem forall_iff (run : Run step start moves final) (inv : σ → Prop)
    (holds good : σ → ε → Prop) (hstart : inv start)
    (hstep : ∀ state event state', inv state → good state event → step state event state' →
      inv state')
    (hiff : ∀ state event state', inv state → step state event state' →
      (holds state event ↔ good state event)) :
    (∀ move ∈ moves, holds move.1 move.2) ↔ ∀ move ∈ moves, good move.1 move.2 := by
  induction run with
  | nil => simp
  | snoc run hmove ih =>
    rw [forall_mem_snoc, forall_mem_snoc, ih]
    refine and_congr_right fun hmoves ↦ hiff _ _ _ (run.invariant inv good hstart hstep hmoves) hmove

end Run

end PenelopeOS.Foundation
