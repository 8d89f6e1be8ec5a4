import Mathlib.Init

/-!
# Faults

An access that the machine or the language leaves without a meaning is a `Fault`, and a computation
that may perform one is an `Except Fault`.
-/

namespace PenelopeOS.Machine

/-- The ways in which an execution has no further defined behaviour. -/
inductive Fault where
  | nullDereference
  | outOfBounds
  | divergence
  deriving DecidableEq, Repr

/-- The fault of an execution, when it ends in one. -/
def faultOf {α : Type} : Except Fault α → Option Fault
  | .ok _ => none
  | .error fault => some fault

@[simp]
theorem ok_bind {α β : Type} (value : α) (next : α → Except Fault β) :
    (Except.ok value >>= next) = next value := rfl

@[simp]
theorem error_bind {α β : Type} (fault : Fault) (next : α → Except Fault β) :
    (Except.error fault >>= next) = .error fault := rfl

/-- A sequence that completes has completed its first part. -/
theorem bind_eq_ok_iff {α β : Type} {first : Except Fault α} {next : α → Except Fault β} {result : β} :
    (first >>= next) = .ok result ↔ ∃ value, first = .ok value ∧ next value = .ok result := by
  cases first with
  | ok value => simp
  | error fault => simp

/-- An execution has one answer and leaves one state. -/
theorem ok_pair_inj {α σ : Type} {run : Except Fault (α × σ)} {answer answer' : α} {state state' : σ}
    (h : run = .ok (answer, state)) (h' : run = .ok (answer', state')) :
    answer = answer' ∧ state = state' :=
  Prod.mk.inj (Except.ok.inj (h.symm.trans h'))

end PenelopeOS.Machine
