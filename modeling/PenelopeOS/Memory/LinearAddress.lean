import PenelopeOS.Machine.BitField
import PenelopeOS.Memory.Paging

/-!
# Whether linear addresses and paging indices are inverse

`FormLinearAddress` presets bits 63:48 with ones, whatever the PML4 index is. The indices always come
back, but the address is canonical only in the upper half, and the lower half is not reached at all.
-/

namespace PenelopeOS.Memory

open Machine

/-- The indices fit their nine bits and the offset its twelve. -/
structure PagingIndices.InRange (indices : PagingIndices) : Prop where
  pm4le_i : indices.pm4le_i.toNat < 512
  pdpte_i : indices.pdpte_i.toNat < 512
  pde_i : indices.pde_i.toNat < 512
  pt_i : indices.pt_i.toNat < 512
  offset : indices.offset.toNat < 4096

/-- The entries that the indices select from the PML4 downwards, and the page of the last one. -/
def PagingIndices.walk (memory : Memory) (cr3 : Word) (indices : PagingIndices) : PageWalk :=
  let p4e := getCurrentPM4L cr3 + 8 * indices.pm4le_i.setWidth 64
  let pdpte := address (load64 memory p4e) + 8 * indices.pdpte_i.setWidth 64
  let pde := address (load64 memory pdpte) + 8 * indices.pde_i.setWidth 64
  let pte := address (load64 memory pde) + 8 * indices.pt_i.setWidth 64
  ⟨p4e, pdpte, pde, pte, address (load64 memory pte)⟩

/-- The address that is formed is canonical, and its indices are the ones it was formed from, also
where the page tables are walked. -/
structure PagingIndices.RoundTrips (indices : PagingIndices) : Prop where
  canonical : Canonical (formLinearAddress indices)
  extract : extractPagingIndices (formLinearAddress indices) = indices
  walk : ∀ memory cr3, virtualToPageBase memory cr3 (formLinearAddress indices) =
    indices.walk memory cr3

variable {indices : PagingIndices} {vaddr : Word}

/-! ## The digits of an address -/

/-- One index is shifted in below what is there. -/
theorem toNat_shiftIn_index {upper : Word} (index : BitVec 16) (hupper : upper.toNat < 2 ^ 55) :
    (upper <<< 9 ||| (index &&& 0x1ff).setWidth 64).toNat =
      upper.toNat * 512 + index.toNat % 512 := by
  have hmask : (index &&& 0x1ff).toNat = index.toNat % 512 := Nat.and_two_pow_sub_one_eq_mod _ 9
  have hfield : ((index &&& 0x1ff).setWidth 64 : Word).toNat = index.toNat % 512 := by
    rw [BitVec.toNat_setWidth, hmask]
    omega
  rw [toNat_shiftLeft_or, hfield] <;> omega

/-- The offset is shifted in below the indices. -/
theorem toNat_shiftIn_offset {upper : Word} (offset : BitVec 16) (hupper : upper.toNat < 2 ^ 52) :
    (upper <<< 12 ||| (offset &&& 0xfff).setWidth 64).toNat =
      upper.toNat * 4096 + offset.toNat % 4096 := by
  have hmask : (offset &&& 0xfff).toNat = offset.toNat % 4096 := Nat.and_two_pow_sub_one_eq_mod _ 12
  have hfield : ((offset &&& 0xfff).setWidth 64 : Word).toNat = offset.toNat % 4096 := by
    rw [BitVec.toNat_setWidth, hmask]
    omega
  rw [toNat_shiftLeft_or, hfield] <;> omega

/-- The number of the address, field by field. -/
theorem toNat_formLinearAddress (indices : PagingIndices) :
    (formLinearAddress indices).toNat =
      ((((0xffff * 512 + indices.pm4le_i.toNat % 512) * 512 + indices.pdpte_i.toNat % 512) * 512 +
        indices.pde_i.toNat % 512) * 512 + indices.pt_i.toNat % 512) * 4096 +
        indices.offset.toNat % 4096 := by
  have hpreset : ((0 : Word) ||| 0xffff).toNat = 0xffff := by decide
  have hpm4l := toNat_shiftIn_index indices.pm4le_i (hpreset.trans_lt (by decide))
  have hpdpt := toNat_shiftIn_index indices.pdpte_i (hpm4l.trans_lt (by omega))
  have hpd := toNat_shiftIn_index indices.pde_i (hpdpt.trans_lt (by omega))
  have hpt := toNat_shiftIn_index indices.pt_i (hpd.trans_lt (by omega))
  have hoffset := toNat_shiftIn_offset indices.offset (hpt.trans_lt (by omega))
  rw [hpt, hpd, hpdpt, hpm4l, hpreset] at hoffset
  exact hoffset

/-- The numbers of the indices of an address. -/
theorem toNat_extractPagingIndices (vaddr : Word) :
    (extractPagingIndices vaddr).pm4le_i.toNat = vaddr.toNat / 2 ^ 39 % 512 ∧
      (extractPagingIndices vaddr).pdpte_i.toNat = vaddr.toNat / 2 ^ 30 % 512 ∧
      (extractPagingIndices vaddr).pde_i.toNat = vaddr.toNat / 2 ^ 21 % 512 ∧
      (extractPagingIndices vaddr).pt_i.toNat = vaddr.toNat / 2 ^ 12 % 512 ∧
      (extractPagingIndices vaddr).offset.toNat = vaddr.toNat % 4096 := by
  refine ⟨toNat_indexAt (show 3 < 4 by decide) vaddr, toNat_indexAt (show 2 < 4 by decide) vaddr,
    toNat_indexAt (show 1 < 4 by decide) vaddr, toNat_indexAt (show 0 < 4 by decide) vaddr, ?_⟩
  have hmask : (vaddr &&& 0xfff).toNat = vaddr.toNat % 4096 := Nat.and_two_pow_sub_one_eq_mod _ 12
  change ((vaddr &&& 0xfff).setWidth 16).toNat = _
  rw [BitVec.toNat_setWidth, hmask]
  omega

/-! ## Round trips -/

/-- The fields are the digits of the number that is written with them. -/
theorem digits_of_fields {pm4l pdpt pd pt offset : ℕ} (hpm4l : pm4l < 512) (hpdpt : pdpt < 512)
    (hpd : pd < 512) (hpt : pt < 512) (hoffset : offset < 4096) :
    let number := ((((0xffff * 512 + pm4l % 512) * 512 + pdpt % 512) * 512 + pd % 512) * 512 +
      pt % 512) * 4096 + offset % 4096
    number / 2 ^ 39 % 512 = pm4l ∧ number / 2 ^ 30 % 512 = pdpt ∧ number / 2 ^ 21 % 512 = pd ∧
      number / 2 ^ 12 % 512 = pt ∧ number % 4096 = offset := by
  intro number
  refine ⟨?_, ?_, ?_, ?_, ?_⟩ <;> omega

/-- The indices always come back. -/
theorem extract_formLinearAddress (h : indices.InRange) :
    extractPagingIndices (formLinearAddress indices) = indices := by
  obtain ⟨hpm4l, hpdpt, hpd, hpt, hoffset⟩ := toNat_extractPagingIndices (formLinearAddress indices)
  rw [toNat_formLinearAddress] at hpm4l hpdpt hpd hpt hoffset
  obtain ⟨hpm4l', hpdpt', hpd', hpt', hoffset'⟩ :=
    digits_of_fields h.pm4le_i h.pdpte_i h.pde_i h.pt_i h.offset
  apply PagingIndices.ext <;> apply BitVec.eq_of_toNat_eq
  · exact hpm4l.trans hpm4l'
  · exact hpdpt.trans hpdpt'
  · exact hpd.trans hpd'
  · exact hpt.trans hpt'
  · exact hoffset.trans hoffset'

/-- `VirtualToPageBase` extracts the indices that `ExtractPagingIndices` extracts. -/
theorem virtualToPageBase_eq_walk (memory : Memory) (cr3 vaddr : Word) :
    virtualToPageBase memory cr3 vaddr = (extractPagingIndices vaddr).walk memory cr3 := rfl

/-- The address is canonical when the index into the PML4 is in its upper half. -/
theorem canonical_formLinearAddress_iff (h : indices.InRange) :
    Canonical (formLinearAddress indices) ↔ 256 ≤ indices.pm4le_i.toNat := by
  have hpm4l := h.pm4le_i
  rw [canonical_iff, toNat_formLinearAddress]
  omega

/-- The low 48 bits of an address come back from its indices. -/
theorem toNat_formLinearAddress_extract (vaddr : Word) :
    (formLinearAddress (extractPagingIndices vaddr)).toNat =
      0xffff * 2 ^ 48 + vaddr.toNat % 2 ^ 48 := by
  obtain ⟨hpm4l, hpdpt, hpd, hpt, hoffset⟩ := toNat_extractPagingIndices vaddr
  -- one field after the other, from the offset upwards
  have hpage : _ = vaddr.toNat % 2 ^ 21 := mod_add_field vaddr.toNat 12 9
  have htable : _ = vaddr.toNat % 2 ^ 30 := mod_add_field vaddr.toNat 21 9
  have hdirectory : _ = vaddr.toNat % 2 ^ 39 := mod_add_field vaddr.toNat 30 9
  have hall : _ = vaddr.toNat % 2 ^ 48 := mod_add_field vaddr.toNat 39 9
  rw [toNat_formLinearAddress, hpm4l, hpdpt, hpd, hpt, hoffset, ← hall, ← hdirectory, ← htable,
    ← hpage]
  simp only [Nat.mod_mod, Nat.reducePow]
  ring

/-- A canonical address comes back from its indices when it is in the upper half. -/
theorem formLinearAddress_extract_iff (h : Canonical vaddr) :
    formLinearAddress (extractPagingIndices vaddr) = vaddr ↔ vaddr.getLsbD 47 = true := by
  have hbound := vaddr.isLt
  rw [canonical_iff] at h
  rw [← BitVec.toNat_inj, toNat_formLinearAddress_extract, getLsbD_eq_decide, decide_eq_true_iff]
  omega

/-- Indices and canonical addresses determine each other exactly in the upper half of the address
space. -/
theorem linearAddress_inverse_iff (indices : PagingIndices) (vaddr : Word) :
    (indices.InRange → (indices.RoundTrips ↔ 256 ≤ indices.pm4le_i.toNat)) ∧
      (Canonical vaddr →
        (formLinearAddress (extractPagingIndices vaddr) = vaddr ↔ vaddr.getLsbD 47 = true)) := by
  refine ⟨fun hrange ↦ ?_, formLinearAddress_extract_iff⟩
  have hextract := extract_formLinearAddress hrange
  rw [← canonical_formLinearAddress_iff hrange]
  refine ⟨PagingIndices.RoundTrips.canonical, fun h ↦ ⟨h, hextract, fun memory cr3 ↦ ?_⟩⟩
  rw [virtualToPageBase_eq_walk, hextract]

/-- The address of the integration test. -/
theorem roundTrips_higherHalf :
    PagingIndices.RoundTrips ⟨0x100, 0x001, 0x1fe, 0x002, 0x001⟩ ∧
      formLinearAddress (extractPagingIndices 0xffff80007fc02001) = 0xffff80007fc02001 := by
  obtain ⟨hindices, hvaddr⟩ :=
    linearAddress_inverse_iff ⟨0x100, 0x001, 0x1fe, 0x002, 0x001⟩ 0xffff80007fc02001
  constructor
  · exact (hindices ⟨by decide, by decide, by decide, by decide, by decide⟩).mpr (by decide)
  · exact (hvaddr (canonical_iff.mpr (by decide))).mpr (by decide)

/-- The lowest page is given an address that is not canonical, and its own address does not come back. -/
theorem not_roundTrips_zero :
    PagingIndices.InRange ⟨0, 0, 0, 0, 0⟩ ∧
      formLinearAddress ⟨0, 0, 0, 0, 0⟩ = 0xffff000000000000 ∧
      ¬ PagingIndices.RoundTrips ⟨0, 0, 0, 0, 0⟩ ∧
      Canonical 0 ∧ formLinearAddress (extractPagingIndices 0) ≠ 0 := by
  have hrange : PagingIndices.InRange ⟨0, 0, 0, 0, 0⟩ :=
    ⟨by decide, by decide, by decide, by decide, by decide⟩
  refine ⟨hrange, by decide, fun h ↦ ?_, canonical_iff.mpr (by decide), by decide⟩
  exact absurd ((canonical_formLinearAddress_iff hrange).mp h.canonical) (by decide)

end PenelopeOS.Memory
