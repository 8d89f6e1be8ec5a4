import Mathlib.Algebra.BigOperators.Group.List.Basic
import Mathlib.Tactic.SplitIfs
import PenelopeOS.Machine.ByteMemory

/-!
# The boot memory map

The bootloader answers the memory-map request with an array of entries, each a physical base, a
length and a type, and the higher-half request with the offset at which physical memory is mapped.
`MemoryMap` carries what the boot protocol promises of the usable entries: page-aligned base and
length, ascending order without overlap, and an end that is itself a 64-bit address.
-/

namespace PenelopeOS.Limine

open Machine

/-- `limine_memmap_entry` -/
structure MemmapEntry where
  base : Word
  length : Word
  type : Word
  deriving DecidableEq, Repr

/-- `LIMINE_MEMMAP_USABLE` -/
def memmapUsable : Word := 0

def MemmapEntry.stop (entry : MemmapEntry) : ℕ := entry.base.toNat + entry.length.toNat

def usable (entries : List MemmapEntry) : List MemmapEntry :=
  entries.filter fun entry ↦ entry.type = memmapUsable

@[simp]
theorem usable_cons (entry : MemmapEntry) (entries : List MemmapEntry) :
    usable (entry :: entries) =
      if entry.type = memmapUsable then entry :: usable entries else usable entries := by
  simp [usable, List.filter_cons]

/-- The loops that add up something over the usable entries. -/
def sumUsable (term : MemmapEntry → Word) (entries : List MemmapEntry) : Word :=
  entries.foldl
    (fun total entry ↦ if entry.type = memmapUsable then total + term entry else total) 0

/-- `calculateAvailableMemory` -/
def calculateAvailableMemory (entries : List MemmapEntry) : Word :=
  sumUsable MemmapEntry.length entries

structure MemoryMap where
  entries : List MemmapEntry
  sorted : (usable entries).Pairwise fun first second ↦ first.stop ≤ second.base.toNat
  aligned : ∀ entry ∈ usable entries, 0x1000 ∣ entry.base.toNat ∧ 0x1000 ∣ entry.length.toNat
  bounded : ∀ entry ∈ usable entries, entry.stop < 2 ^ 64

variable {term : MemmapEntry → Word} {entries : List MemmapEntry}

theorem sumUsable_eq (term : MemmapEntry → Word) (entries : List MemmapEntry) :
    sumUsable term entries = ((usable entries).map term).sum := by
  have haccumulate (total : Word) : entries.foldl
      (fun total entry ↦ if entry.type = memmapUsable then total + term entry else total) total =
        total + ((usable entries).map term).sum := by
    induction entries generalizing total with
    | nil => exact (add_zero total).symm
    | cons entry entries ih =>
      rw [List.foldl_cons, ih, usable_cons]
      split_ifs
      · rw [List.map_cons, List.sum_cons, add_assoc]
      · rfl
  exact (haccumulate 0).trans (zero_add _)

theorem toNat_sum {words : List Word} (h : (words.map BitVec.toNat).sum < 2 ^ 64) :
    words.sum.toNat = (words.map BitVec.toNat).sum := by
  induction words with
  | nil => rfl
  | cons word words ih =>
    rw [List.map_cons, List.sum_cons] at h ⊢
    rw [List.sum_cons, BitVec.toNat_add, ih (by omega), Nat.mod_eq_of_lt h]

/-- Entries that follow each other below 2^64 have no more than that between them. -/
theorem add_sum_lt {start : ℕ} (hstart : start < 2 ^ 64)
    (hsorted : entries.Pairwise fun first second ↦ first.stop ≤ second.base.toNat)
    (habove : ∀ entry ∈ entries, start ≤ entry.base.toNat)
    (hbounded : ∀ entry ∈ entries, entry.stop < 2 ^ 64)
    (hterm : ∀ entry ∈ entries, (term entry).toNat ≤ entry.length.toNat) :
    start + (entries.map fun entry ↦ (term entry).toNat).sum < 2 ^ 64 := by
  induction entries generalizing start with
  | nil => exact hstart
  | cons entry entries ih =>
    obtain ⟨hfollow, hsorted⟩ := List.pairwise_cons.mp hsorted
    obtain ⟨hbase, -⟩ := List.forall_mem_cons.mp habove
    obtain ⟨hstop, hbounded⟩ := List.forall_mem_cons.mp hbounded
    obtain ⟨hhead, hterm⟩ := List.forall_mem_cons.mp hterm
    have hrest := ih hstop hsorted hfollow hbounded hterm
    rw [MemmapEntry.stop] at hrest
    rw [List.map_cons, List.sum_cons]
    omega

/-- A sum of terms that are not longer than the entries does not wrap. -/
theorem toNat_sumUsable (map : MemoryMap)
    (hterm : ∀ entry ∈ usable map.entries, (term entry).toNat ≤ entry.length.toNat) :
    (sumUsable term map.entries).toNat =
      ((usable map.entries).map fun entry ↦ (term entry).toNat).sum := by
  have hbelow := add_sum_lt (Nat.two_pow_pos 64) map.sorted (fun _ _ ↦ Nat.zero_le _) map.bounded hterm
  rw [Nat.zero_add] at hbelow
  rw [sumUsable_eq, toNat_sum, List.map_map]
  · rfl
  · rwa [List.map_map]

/-- `paddrToVaddr`, for the given offset of the higher-half mapping -/
def paddrToVaddr (hhdm paddr : Word) : Word := paddr + hhdm

/-- `vaddrToPaddr` -/
def vaddrToPaddr (hhdm vaddr : Word) : Word := vaddr - hhdm

end PenelopeOS.Limine
