import PenelopeOS.Foundation.Extent
import PenelopeOS.Foundation.Segment
import PenelopeOS.Memory.MemoryList

/-!
# Block headers in memory

Every header the allocator touches stands at a multiple of its own size, so the two words of one
header never meet a word of another. What a store does to a header is therefore decided by
comparing addresses, and the free list is a linked segment that ends in null.

`AgreeOutside` is the frame of an operation: the bytes outside the given extents are unchanged.
-/

namespace PenelopeOS.Memory

open Machine Foundation Extent

/-- An extent of whole granules that can hold a header: not at null, not beyond the last address. -/
structure Granular (extent : Extent) : Prop where
  base_dvd : 16 ∣ extent.base
  length_dvd : 16 ∣ extent.length
  base_pos : 0 < extent.base
  length_pos : 0 < extent.length
  stop_le : extent.stop ≤ 2 ^ 64

variable {memory memory' : Memory} {block other value : Word}

/-! ## Two words to a header -/

theorem toNat_add_eight (h : 16 ∣ block.toNat) : (block + 8).toNat = block.toNat + 8 := by
  have := block.isLt
  rw [BitVec.toNat_add]
  change (block.toNat + 8) % 2 ^ 64 = _
  omega

section Store

variable (hblock : 16 ∣ block.toNat) (hother : 16 ∣ other.toNat)

include hblock hother

theorem nextOf_store_next :
    nextOf (store64 memory block value) other = if block = other then value else nextOf memory other := by
  split_ifs with heq
  · rw [← heq, nextOf, load64_store64_same]
  · exact load64_store64_apart _ _ (apart_of_dvd (by omega) (by omega) heq)

theorem lengthOf_store_length :
    lengthOf (store64 memory (block + 8) value) other =
      if block = other then value else lengthOf memory other := by
  split_ifs with heq
  · rw [← heq, lengthOf, load64_store64_same]
  · refine load64_store64_apart _ _ (apart_of_dvd ?_ ?_ fun h ↦ heq ?_)
    · rw [toNat_add_eight hblock]
      omega
    · rw [toNat_add_eight hother]
      omega
    · exact add_right_cancel h

theorem nextOf_store_length :
    nextOf (store64 memory (block + 8) value) other = nextOf memory other := by
  refine load64_store64_apart _ _ (apart_of_dvd ?_ (by omega) fun h ↦ ?_)
  · rw [toNat_add_eight hblock]
    omega
  · have := congrArg BitVec.toNat h
    rw [toNat_add_eight hblock] at this
    omega

theorem lengthOf_store_next :
    lengthOf (store64 memory block value) other = lengthOf memory other := by
  refine load64_store64_apart _ _ (apart_of_dvd (by omega) ?_ fun h ↦ ?_)
  · rw [toNat_add_eight hother]
    omega
  · have := congrArg BitVec.toNat h
    rw [toNat_add_eight hother] at this
    omega

end Store

/-! ## Frames -/

def AgreeOutside (extents : List Extent) (memory memory' : Memory) : Prop :=
  ∀ location : Word, (∀ extent ∈ extents, location.toNat ∉ extent.bytes) →
    memory' location = memory location

variable {extents : List Extent} {extent : Extent}

theorem AgreeOutside.refl : AgreeOutside extents memory memory := fun _ _ ↦ rfl

/-- A word store inside one of the extents extends the frame. -/
theorem AgreeOutside.store (h : AgreeOutside extents memory memory') (hmem : extent ∈ extents)
    (hgranular : Granular extent) {address : Word} (hbase : extent.base ≤ address.toNat)
    (hstop : address.toNat + 8 ≤ extent.stop) :
    AgreeOutside extents memory (store64 memory' address value) := by
  intro location hlocation
  rw [store64_of_outside, h location hlocation]
  have hout := hlocation extent hmem
  have := location.isLt
  have := hgranular.stop_le
  rw [mem_bytes] at hout
  rw [BitVec.toNat_sub]
  omega

/-- The header of an extent apart from all those that were changed is what it was. -/
theorem AgreeOutside.load (h : AgreeOutside extents memory memory') (hgranular : Granular extent)
    (hdisjoint : ∀ changed ∈ extents, Disjoint changed.bytes extent.bytes)
    {address : Word} (hbase : extent.base ≤ address.toNat)
    (hstop : address.toNat + 8 ≤ extent.stop) :
    load64 memory' address = load64 memory address := by
  refine load64_congr fun offset hoffset ↦ h _ fun changed hchanged ↦ ?_
  have hfits := hgranular.stop_le
  apply Set.disjoint_right.mp (hdisjoint changed hchanged)
  rw [mem_bytes, BitVec.toNat_add]
  omega

theorem Granular.sixteen_le (h : Granular extent) : 16 ≤ extent.length := by
  have := h.length_dvd
  have := h.length_pos
  omega

theorem Granular.base_lt (h : Granular extent) : extent.base + 16 ≤ 2 ^ 64 := by
  have := h.sixteen_le
  have := h.stop_le
  simp only [stop] at this
  omega

theorem Granular.upper (h : Granular extent) {cut : ℕ} (hdvd : 16 ∣ cut) (hcut : cut < extent.length) :
    Granular (extent.upper cut) where
  base_dvd := Nat.dvd_add h.base_dvd hdvd
  length_dvd := Nat.dvd_sub h.length_dvd hdvd
  base_pos := Nat.add_pos_left h.base_pos cut
  length_pos := Nat.sub_pos_of_lt hcut
  stop_le := (upper_stop hcut.le).trans_le h.stop_le

theorem Granular.lower (h : Granular extent) {cut : ℕ} (hdvd : 16 ∣ cut) (hpos : 0 < cut)
    (hcut : cut < extent.length) : Granular (extent.lower cut) where
  base_dvd := h.base_dvd
  length_dvd := hdvd
  base_pos := h.base_pos
  length_pos := hpos
  stop_le := by
    have := h.stop_le
    simp only [stop, lower_base, lower_length] at this ⊢
    omega

theorem Granular.join {second : Extent} (h : Granular extent) (hsecond : Granular second)
    (htouch : extent.stop = second.base) : Granular (extent.join second) where
  base_dvd := h.base_dvd
  length_dvd := Nat.dvd_add h.length_dvd hsecond.length_dvd
  base_pos := h.base_pos
  length_pos := Nat.add_pos_left h.length_pos _
  stop_le := (join_stop htouch).trans_le hsecond.stop_le

/-- Nonempty extents that are disjoint have their bases apart by at least a header. -/
theorem base_ne_of_disjoint {first second : Extent} (h : Disjoint first.bytes second.bytes)
    (hfirst : Granular first) (hsecond : Granular second) (cut : ℕ) (hcut : cut < second.length) :
    first.base ≠ second.base + cut := by
  have hpos := hfirst.length_pos
  have hapart := (disjoint_iff hfirst.length_pos hsecond.length_pos).mp h
  simp only [stop] at hapart
  omega

/-- Disjoint extents begin at different addresses. -/
theorem ne_of_disjoint {position position' : Word} {first second : Extent}
    (h : Disjoint first.bytes second.bytes) (hfirst : Granular first) (hsecond : Granular second)
    (hposition : position.toNat = first.base) (hposition' : position'.toNat = second.base) :
    position ≠ position' := by
  rintro rfl
  exact base_ne_of_disjoint h hfirst hsecond 0 hsecond.length_pos (hposition.symm.trans hposition')

/-! ## The free list -/

/-- The block at `position` is the given extent. -/
def Stores (memory : Memory) (position : Word) (extent : Extent) : Prop :=
  position.toNat = extent.base ∧ (lengthOf memory position).toNat = extent.length

abbrev FreeSegment (memory : Memory) : Word → List Extent → Word → Prop :=
  Segment (nextOf memory) (Stores memory)

/-- The list from the head, ending in null, is `free`, and its blocks lie apart. -/
structure WellFormed (list : BlockList) (free : List Extent) : Prop where
  chain : FreeSegment list.memory list.head free 0
  disjoint : free.Pairwise fun first second ↦ Disjoint first.bytes second.bytes
  granular : ∀ block ∈ free, Granular block

theorem Stores.dvd {position : Word} (h : Stores memory position extent)
    (hgranular : Granular extent) : 16 ∣ position.toNat := h.1 ▸ hgranular.base_dvd

theorem Stores.ne_zero {position : Word} (h : Stores memory position extent)
    (hgranular : Granular extent) : position ≠ 0 := by
  rintro rfl
  exact hgranular.base_pos.ne h.1

/-- No chunk of a block lies at the last address. -/
theorem add_blockSize_ne_allocFailed {position : Word} (hgranular : Granular extent)
    (hposition : position.toNat = extent.base) : position + blockSize ≠ allocFailed := by
  intro hfailed
  have hdvd := hgranular.base_dvd
  have hvalue := congrArg BitVec.toNat hfailed
  rw [BitVec.toNat_add, hposition] at hvalue
  change (extent.base + 16) % 2 ^ 64 = 2 ^ 64 - 1 at hvalue
  omega

theorem FreeSegment.ne_zero {position final : Word} {free : List Extent}
    (h : FreeSegment memory position free final) (hne : free ≠ [])
    (hgranular : ∀ block ∈ free, Granular block) : position ≠ 0 := by
  match free, hne with
  | block :: free, _ => exact h.stores_head.ne_zero (hgranular block List.mem_cons_self)

/-- An extent is stored at one position only. -/
theorem Stores.unique {position position' : Word} (h : Stores memory position extent)
    (h' : Stores memory' position' extent) : position = position' :=
  BitVec.eq_of_toNat_eq (h.1.trans h'.1.symm)

/-- The memory and the head decide the list. -/
theorem WellFormed.unique {list : BlockList} {free free' : List Extent} (h : WellFormed list free)
    (h' : WellFormed list free') : free = free' := by
  obtain ⟨hchain, -, hgranular⟩ := h
  obtain ⟨hchain', -, hgranular'⟩ := h'
  generalize list.head = start at hchain hchain'
  induction free generalizing free' start with
  | nil =>
    by_contra hne
    exact FreeSegment.ne_zero hchain' (Ne.symm hne) hgranular' hchain
  | cons block free ih =>
    match free' with
    | [] => exact absurd hchain' (FreeSegment.ne_zero hchain (by simp) hgranular)
    | block' :: free' =>
      obtain ⟨hgranularBlock, hgranularFree⟩ := List.forall_mem_cons.mp hgranular
      obtain ⟨hgranularBlock', hgranularFree'⟩ := List.forall_mem_cons.mp hgranular'
      obtain ⟨⟨hbase, hlength⟩, hrest⟩ := hchain
      obtain ⟨⟨hbase', hlength'⟩, hrest'⟩ := hchain'
      have hblock : block = block' := by
        cases block
        cases block'
        simp only at hbase hlength hbase' hlength'
        rw [← hbase, ← hlength, ← hbase', ← hlength']
      rw [hblock, ih hgranularFree hgranularFree' _ hrest hrest']

/-- A list of extents that lie apart has at most as many as there are addresses. -/
theorem WellFormed.length_le {list : BlockList} {free : List Extent} (h : WellFormed list free) :
    free.length ≤ walkBound := by
  have htiles : Tiles bytes free {address | ∃ block ∈ free, address ∈ block.bytes} :=
    ⟨h.disjoint, fun _ ↦ Iff.rfl⟩
  refine htiles.length_le (fun block hblock ↦ (h.granular block hblock).length_pos) ?_
  rintro address ⟨block, hblock, -, hlt⟩
  exact hlt.trans_le (h.granular block hblock).stop_le

end PenelopeOS.Memory
