import PenelopeOS.Machine.PageWalk

/-!
# Paging structures and linear addresses

The definitions of `pstructs.hpp` and `pstructs.cpp`, of `VirtualToPageBase` in `pages.cpp`, and of
`FormLinearAddress` and `ExtractPagingIndices` in `memory.cpp`. Physical memory is read at identity
mapped addresses, and cr3 is an argument.
-/

namespace PenelopeOS.Memory

open Machine

/-- `0xFFF'FFFF << 12`: the literal and the shift are in `int`, and the result is extended from there
to the 64 bits of the entry. -/
def addressMask : Word := ((0xfffffff : BitVec 32) <<< 12).signExtend 64

/-- `PagingEntryDescriptor::address` -/
def address (entry : Word) : Word := entry &&& addressMask

/-- `GetCurrentPM4L` -/
def getCurrentPM4L (cr3 : Word) : Word := (cr3 >>> 12) <<< 12

/-- `(vaddr & (0x1FFull << shift)) >> shift` -/
def indexAt (shift : ℕ) (vaddr : Word) : BitVec 16 :=
  ((vaddr &&& ((0x1ff : Word) <<< shift)) >>> shift).setWidth 16

/-- The entries that `VirtualToPageBase` reads, as pointers, and what it returns. -/
structure PageWalk where
  p4e : Word
  pdpte : Word
  pde : Word
  pte : Word
  base : Word
  deriving DecidableEq, Repr

/-- `VirtualToPageBase` -/
def virtualToPageBase (memory : Memory) (cr3 vaddr : Word) : PageWalk :=
  let pte_i := indexAt 12 vaddr
  let pde_i := indexAt 21 vaddr
  let pdpte_i := indexAt 30 vaddr
  let pm4le_i := indexAt 39 vaddr
  let pm4laddr := getCurrentPM4L cr3
  let p4e := pm4laddr + 8 * pm4le_i.setWidth 64
  let pdpte := address (load64 memory p4e) + 8 * pdpte_i.setWidth 64
  let pde := address (load64 memory pdpte) + 8 * pde_i.setWidth 64
  let pte := address (load64 memory pde) + 8 * pte_i.setWidth 64
  ⟨p4e, pdpte, pde, pte, address (load64 memory pte)⟩

/-- The arguments of `FormLinearAddress`, and what `ExtractPagingIndices` prints. -/
@[ext]
structure PagingIndices where
  pm4le_i : BitVec 16
  pdpte_i : BitVec 16
  pde_i : BitVec 16
  pt_i : BitVec 16
  offset : BitVec 16
  deriving DecidableEq, Repr

/-- `FormLinearAddress` -/
def formLinearAddress (indices : PagingIndices) : Word :=
  let vaddr : Word := 0
  let vaddr := vaddr ||| 0xffff
  let vaddr := vaddr <<< 9
  let vaddr := vaddr ||| (indices.pm4le_i &&& 0x1ff).setWidth 64
  let vaddr := vaddr <<< 9
  let vaddr := vaddr ||| (indices.pdpte_i &&& 0x1ff).setWidth 64
  let vaddr := vaddr <<< 9
  let vaddr := vaddr ||| (indices.pde_i &&& 0x1ff).setWidth 64
  let vaddr := vaddr <<< 9
  let vaddr := vaddr ||| (indices.pt_i &&& 0x1ff).setWidth 64
  let vaddr := vaddr <<< 12
  vaddr ||| (indices.offset &&& 0xfff).setWidth 64

/-- `ExtractPagingIndices` -/
def extractPagingIndices (vaddr : Word) : PagingIndices where
  pm4le_i := indexAt 39 vaddr
  pdpte_i := indexAt 30 vaddr
  pde_i := indexAt 21 vaddr
  pt_i := indexAt 12 vaddr
  offset := (vaddr &&& 0xfff).setWidth 16

/-! ## Address fields -/

/-- The entries that are read, from the PML4 downwards. -/
def PageWalk.reads (walk : PageWalk) : List Word := [walk.p4e, walk.pdpte, walk.pde, walk.pte]

variable {entry vaddr : Word} {bit : ℕ}

/-- The sign of the `int` keeps every bit above the low twelve. -/
theorem getLsbD_addressMask : ∀ bit < 64, addressMask.getLsbD bit = decide (12 ≤ bit) := by
  decide

theorem getLsbD_address (hbit : bit < 64) :
    (address entry).getLsbD bit = (entry.getLsbD bit && decide (12 ≤ bit)) := by
  rw [address, BitVec.getLsbD_and, getLsbD_addressMask bit hbit]

theorem getLsbD_pageFrame (hbit : bit < 64) :
    (pageFrame entry).getLsbD bit = (entry.getLsbD bit && decide (12 ≤ bit ∧ bit < 52)) := by
  have hmask : ∀ bit < 64, (0x000ffffffffff000 : Word).getLsbD bit = decide (12 ≤ bit ∧ bit < 52) := by
    decide
  rw [pageFrame, BitVec.getLsbD_and, hmask bit hbit]

theorem getCurrentPM4L_eq (cr3 : Word) : getCurrentPM4L cr3 = address cr3 := by
  apply BitVec.eq_of_getLsbD_eq
  intro bit hbit
  rw [getLsbD_address hbit, getCurrentPM4L, BitVec.getLsbD_shiftLeft, BitVec.getLsbD_ushiftRight]
  by_cases hlow : bit < 12
  · simp [hlow, hbit]
  · simp [hlow, hbit, not_lt.mp hlow, Nat.add_sub_cancel' (not_lt.mp hlow)]

/-- The code takes the address that the processor takes exactly when bits 63:52 are clear. -/
theorem address_eq_pageFrame_iff : address entry = pageFrame entry ↔ entry >>> 52 = 0 := by
  constructor
  · intro heq
    apply BitVec.eq_of_getLsbD_eq
    intro bit hbit
    rw [BitVec.getLsbD_ushiftRight]
    by_cases hrange : 52 + bit < 64
    · have hsame := congrArg (BitVec.getLsbD · (52 + bit)) heq
      simp only [getLsbD_address hrange, getLsbD_pageFrame hrange] at hsame
      simpa [show 12 ≤ 52 + bit by omega] using hsame
    · simp [BitVec.getLsbD_of_ge entry (52 + bit) (not_lt.mp hrange)]
  · intro hclear
    apply BitVec.eq_of_getLsbD_eq
    intro bit hbit
    rw [getLsbD_address hbit, getLsbD_pageFrame hbit]
    by_cases hhigh : bit < 52
    · simp [hhigh]
    · have hzero := congrArg (BitVec.getLsbD · (bit - 52)) hclear
      simp only [BitVec.getLsbD_ushiftRight, Nat.add_sub_cancel' (not_lt.mp hhigh)] at hzero
      simp [hzero]

/-! ## Indices -/

theorem toNat_indexAt {level : ℕ} (hlevel : level < 4) (vaddr : Word) :
    (indexAt (12 + 9 * level) vaddr).toNat = vaddr.toNat / 2 ^ (12 + 9 * level) % 2 ^ 9 := by
  have hmask : ∀ level < 4, ((0x1ff : Word) <<< (12 + 9 * level)) >>> (12 + 9 * level) = 0x1ff := by
    decide
  rw [indexAt, BitVec.ushiftRight_and_distrib, hmask level hlevel, BitVec.toNat_setWidth]
  change (tableIndex level vaddr).toNat % 2 ^ 16 = _
  rw [toNat_tableIndex]
  omega

/-- The code computes the indices of the processor. -/
theorem setWidth_indexAt {level : ℕ} (hlevel : level < 4) (vaddr : Word) :
    (indexAt (12 + 9 * level) vaddr).setWidth 64 = tableIndex level vaddr := by
  apply BitVec.eq_of_toNat_eq
  rw [BitVec.toNat_setWidth, toNat_indexAt hlevel, toNat_tableIndex]
  omega

/-- The code descends through every entry that it finds. -/
theorem virtualToPageBase_eq (memory : Memory) (cr3 vaddr : Word) :
    ((virtualToPageBase memory cr3 vaddr).reads, (virtualToPageBase memory cr3 vaddr).base) =
      descend address memory vaddr 4 (address cr3) := by
  have hpt := setWidth_indexAt (show 0 < 4 by decide) vaddr
  have hpd := setWidth_indexAt (show 1 < 4 by decide) vaddr
  have hpdpt := setWidth_indexAt (show 2 < 4 by decide) vaddr
  have hpm4l := setWidth_indexAt (show 3 < 4 by decide) vaddr
  simp only [virtualToPageBase, PageWalk.reads, descend, entryAddress, getCurrentPM4L_eq, ← hpt, ← hpd,
    ← hpdpt, ← hpm4l]

end PenelopeOS.Memory
