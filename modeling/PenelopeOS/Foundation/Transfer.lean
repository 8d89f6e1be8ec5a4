import Mathlib.Data.List.Range
import Mathlib.Logic.Function.Basic

/-!
# Copies within one store

Cells are copied one after the other, and each copy reads what the earlier ones have left. When no
copy touches a cell that an earlier one has written, all of them read the contents from the start, as
if they were made at once. A row of cells can then be copied in ascending or in descending order.
-/

namespace PenelopeOS.Foundation

/-- The copy of one cell. -/
structure Move (ι : Type*) where
  target : ι
  source : ι

variable {ι α : Type*} {moves : List (Move ι)} {move : Move ι} {cell : ι}

section Transfer

variable [DecidableEq ι]

/-- The contents after the copies, in the order of the list. -/
def transfer (contents : ι → α) : List (Move ι) → ι → α
  | [] => contents
  | move :: moves =>
    transfer (Function.update contents move.target (contents move.source)) moves

/-- The later copy touches no cell that the earlier one has written. -/
def Spares (earlier later : Move ι) : Prop :=
  later.source ≠ earlier.target ∧ later.target ≠ earlier.target

theorem transfer_of_forall_ne (contents : ι → α) (h : ∀ move ∈ moves, cell ≠ move.target) :
    transfer contents moves cell = contents cell := by
  induction moves generalizing contents with
  | nil => rfl
  | cons first moves ih =>
    obtain ⟨hfirst, hmoves⟩ := List.forall_mem_cons.mp h
    rw [transfer, ih _ hmoves, Function.update_of_ne hfirst]

/-- A cell that is written ends up with what its source held at the start. -/
theorem transfer_target (contents : ι → α) (h : moves.Pairwise Spares) (hmove : move ∈ moves) :
    transfer contents moves move.target = contents move.source := by
  induction moves generalizing contents with
  | nil => cases hmove
  | cons first moves ih =>
    obtain ⟨hfirst, hmoves⟩ := List.pairwise_cons.mp h
    rw [transfer]
    rcases List.mem_cons.mp hmove with rfl | hmove
    · -- no later copy writes the cell again
      rw [transfer_of_forall_ne _ fun later hlater ↦ (hfirst later hlater).2.symm]
      exact Function.update_self _ _ _
    · rw [ih _ hmoves hmove]
      exact Function.update_of_ne (hfirst move hmove).1 _ _

end Transfer

/-! ## Rows of cells -/

section Rows

variable {target source : ℕ → ι} {length : ℕ}

def moveAt (target source : ℕ → ι) (index : ℕ) : Move ι := ⟨target index, source index⟩

variable (htarget : ∀ lower upper, lower < upper → upper < length → target lower ≠ target upper)

include htarget

/-- In ascending order no source may be a target further down. -/
theorem pairwise_ascending
    (hsource : ∀ lower upper, lower < upper → upper < length → source upper ≠ target lower) :
    ((List.range length).map (moveAt target source)).Pairwise Spares := by
  refine List.pairwise_map.mpr (List.pairwise_lt_range.imp_of_mem fun {lower upper} _ hupper hlt ↦ ?_)
  have hrange := List.mem_range.mp hupper
  exact ⟨hsource lower upper hlt hrange, (htarget lower upper hlt hrange).symm⟩

/-- In descending order no source may be a target further up. -/
theorem pairwise_descending
    (hsource : ∀ lower upper, lower < upper → upper < length → source lower ≠ target upper) :
    ((List.range length).reverse.map (moveAt target source)).Pairwise Spares := by
  rw [List.map_reverse, List.pairwise_reverse, List.pairwise_map]
  refine List.pairwise_lt_range.imp_of_mem fun {lower upper} _ hupper hlt ↦ ?_
  have hrange := List.mem_range.mp hupper
  exact ⟨hsource lower upper hlt hrange, htarget lower upper hlt hrange⟩

end Rows

/-! ## A row onto itself -/

section Shifted

variable [DecidableEq ι]

theorem transfer_append (contents : ι → α) (first second : List (Move ι)) :
    transfer contents (first ++ second) = transfer (transfer contents first) second := by
  induction first generalizing contents with
  | nil => rfl
  | cons move first ih => exact ih _

/-- A row that is copied onto itself some cells further up, in ascending order, repeats its first
cells. -/
theorem transfer_shifted (contents : ι → α) {row : ℕ → ι} {shift count index : ℕ} (hshift : 0 < shift)
    (hrow : ∀ lower upper, lower < upper → upper < shift + count → row lower ≠ row upper)
    (hindex : index < shift + count) :
    transfer contents ((List.range count).map (moveAt (fun index ↦ row (shift + index)) row))
      (row index) = contents (row (index % shift)) := by
  induction count generalizing index with
  | zero =>
    have hsmall : index % shift = index := Nat.mod_eq_of_lt hindex
    rw [hsmall]
    rfl
  | succ count ih =>
    have hbelow {index : ℕ} (hbelow : index < shift + count) := ih (fun lower upper hlt hupper ↦
      hrow lower upper hlt (by omega)) hbelow
    rw [List.range_succ, List.map_append, transfer_append]
    change Function.update _ (row (shift + count)) _ (row index) = _
    rcases Nat.lt_succ_iff_lt_or_eq.mp hindex with hlt | rfl
    · rw [Function.update_of_ne (hrow index (shift + count) hlt (by omega)), hbelow hlt]
    · -- the last cell repeats one that is further down by the shift
      change Function.update _ (row (shift + count)) _ (row (shift + count)) = _
      have hmod : (shift + count) % shift = count % shift := Nat.add_mod_left shift count
      rw [Function.update_self]
      exact (hbelow (by omega)).trans (congrArg (contents <| row ·) hmod.symm)

end Shifted

end PenelopeOS.Foundation
