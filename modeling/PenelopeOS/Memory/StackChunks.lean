import PenelopeOS.Memory.HeapRun
import PenelopeOS.Memory.Headers

/-!
# Where `allocStack` takes its chunks from

`allocStack` walks to the last block of the list and subtracts the size from the address of that
block, so the chunk ends where the block starts: it lies below the block, in memory that another
client or nobody owns, and the length of the block is reduced all the same.
-/

namespace PenelopeOS.Memory

open Machine Foundation Extent

/-- A state that some run reaches, whose list is intact. -/
structure HeapState.Reached (layout : Layout) (state : HeapState) (free : List Extent) : Prop where
  run : ∃ start moves, start.Initial layout ∧ HeapRun layout.getHeadAddress start moves state
  wellFormed : WellFormed state.list free

/-- The chunk behind `result` is a part of the last block, the rest of which stays on the list. -/
structure CarvesLast (nbytes : Word) (state : HeapState) (before : List Extent) (last : Extent)
    (result : Word) (list' : BlockList) : Prop where
  inside : (chunkAt list'.memory result).bytes ⊆ last.bytes
  remainder : ∃ rest : Extent, FreeSegment list'.memory list'.head (before ++ [rest]) 0 ∧
    Disjoint rest.bytes (chunkAt list'.memory result).bytes ∧
    rest.bytes ∪ (chunkAt list'.memory result).bytes = last.bytes
  noWrap : (stackSize nbytes).toNat ≤ last.length
  frame : AgreeOutside [last] state.list.memory list'.memory
  free_apart : ∀ block ∈ before, Disjoint block.bytes (chunkAt list'.memory result).bytes
  live_apart : ∀ chunk ∈ state.chunks, Disjoint chunk.bytes (chunkAt list'.memory result).bytes

/-- A request is refused without a change, or carved from the last block. -/
def AllocStackSound (nbytes : Word) (state : HeapState) (free : List Extent) : Prop :=
  ∃ result list', allocStack nbytes state.list = .ok (result, list') ∧
    if result = allocFailed then list' = state.list
    else ∃ before last, free = before ++ [last] ∧ CarvesLast nbytes state before last result list'

/-! ## What a call does -/

variable {list list' : BlockList} {memory : Memory} {free before : List Extent} {last : Extent}
  {nbytes mptr size : Word} {fuel : ℕ}

/-- The walk ends at the last block. -/
theorem lastWalk_spec (hchain : FreeSegment list.memory mptr (before ++ [last]) 0)
    (hgranular : ∀ block ∈ before ++ [last], Granular block) (hfuel : before.length < fuel) :
    ∃ position, Stores list.memory position last ∧
      lastWalk fuel mptr (nextOf list.memory mptr) list = .ok position := by
  induction before generalizing mptr fuel with
  | nil =>
    obtain ⟨fuel, rfl⟩ : ∃ rounds, fuel = rounds + 1 := ⟨fuel - 1, by omega⟩
    exact ⟨mptr, hchain.stores_head, if_pos hchain.2⟩
  | cons first before ih =>
    obtain ⟨fuel, rfl⟩ : ∃ rounds, fuel = rounds + 1 := ⟨fuel - 1, by omega⟩
    obtain ⟨hstores, hrest⟩ := Segment.cons_iff.mp hchain
    obtain ⟨hfirst, hgranular'⟩ := List.forall_mem_cons.mp hgranular
    have hne : mptr ≠ 0 := hstores.ne_zero hfirst
    have hnext : nextOf list.memory mptr ≠ 0 := FreeSegment.ne_zero hrest (by simp) hgranular'
    obtain ⟨position, hposition, hwalk⟩ := ih hrest hgranular' (Nat.succ_lt_succ_iff.mp hfuel)
    refine ⟨position, hposition, ?_⟩
    rw [lastWalk, if_neg hnext, BlockList.readNext_of_ne hne, ok_bind,
      BlockList.readNext_of_ne hnext, ok_bind, hwalk]

/-- The memory once the header of the chunk below `mptr` is written. -/
def stackHeader (size mptr : Word) (memory : Memory) : Memory :=
  store64 (store64 memory (mptr - size) 0) (mptr - size + 8) size

/-- The memory after `allocStack` has taken `size` bytes from below `mptr`. -/
def stackMemory (size mptr : Word) (memory : Memory) : Memory :=
  store64 (stackHeader size mptr memory) (mptr + 8)
    (lengthOf (stackHeader size mptr memory) mptr - size)

theorem allocStack_empty (h : WellFormed list []) (hne : nbytes ≠ 0) :
    allocStack nbytes list = .error .nullDereference := by
  have hhead : list.head = 0 := h.chain
  have hpos : ¬ nbytes ≤ 0 := fun hle ↦ hne (BitVec.le_zero_iff.mp hle)
  rw [allocStack, if_neg hpos]
  simp only [BlockList.getHead, hhead, BlockList.readNext_zero, error_bind]

/-- A call that returns has written a header below the last block and shortened the block. -/
theorem allocStack_spec (h : WellFormed list (before ++ [last])) (hne : nbytes ≠ 0)
    {result : Word} (hrun : allocStack nbytes list = .ok (result, list')) :
    ∃ mptr, Stores list.memory mptr last ∧ result = mptr - stackSize nbytes + blockSize ∧
      list' = ⟨stackMemory (stackSize nbytes) mptr list.memory, list.head⟩ := by
  have hpos : ¬ nbytes ≤ 0 := fun hle ↦ hne (BitVec.le_zero_iff.mp hle)
  have hhead : list.head ≠ 0 := FreeSegment.ne_zero h.chain (by simp) h.granular
  have hlength := h.length_le
  rw [List.length_append, List.length_singleton] at hlength
  have hfuel : before.length < walkBound := by omega
  obtain ⟨mptr, hmptr, hwalk⟩ := lastWalk_spec h.chain h.granular hfuel
  have hmptrNe : mptr ≠ 0 := hmptr.ne_zero (h.granular last (by simp))
  rw [allocStack, if_neg hpos] at hrun
  simp only [BlockList.getHead, BlockList.readNext_of_ne hhead, ok_bind, hwalk] at hrun
  by_cases hnull : mptr - stackSize nbytes = 0
  · rw [hnull, BlockList.writeNext, if_pos rfl, error_bind] at hrun
    cases hrun
  · simp only [BlockList.writeNext_of_ne hnull, BlockList.writeLength_of_ne hnull,
      BlockList.readLength_of_ne hmptrNe, BlockList.writeLength_of_ne hmptrNe, ok_bind] at hrun
    obtain ⟨rfl, rfl⟩ := Prod.mk.inj (Except.ok.inj hrun)
    exact ⟨mptr, hmptr, rfl, rfl⟩

theorem sixteen_le_stackSize (nbytes : Word) : 16 ≤ (stackSize nbytes).toNat := by
  unfold stackSize
  split_ifs with hsmall <;> rw [BitVec.lt_def] at hsmall
  · rw [BitVec.toNat_add]
    change nbytes.toNat < 16 at hsmall
    change 16 ≤ (32 + nbytes.toNat) % 2 ^ 64
    omega
  · exact not_lt.mp hsmall

/-! ## No call is sound -/

/-- The chunk ends where the block starts, so it is no part of the block. -/
theorem not_subset_of_stackMemory (hmptr : Stores memory mptr last) (hlast : Granular last)
    (hsize : 16 ≤ size.toNat) (hfits : size.toNat ≤ last.length) :
    ¬ (chunkAt (stackMemory size mptr memory) (mptr - size + blockSize)).bytes ⊆ last.bytes := by
  have hbase := hmptr.1
  have hpos := hlast.base_pos
  have hstop := hlast.stop_le
  have hdvd := hlast.base_dvd
  have hlength := hlast.length_dvd
  simp only [stop] at hstop
  have hchunk : chunkAt (stackMemory size mptr memory) (mptr - size + blockSize) =
      ⟨(mptr - size).toNat, size.toNat⟩ := by
    have hapart : Apart (mptr + 8) (mptr - size + 8) := by
      have hbelow : mptr - size + 8 - (mptr + 8) = -size := by ring
      have habove : mptr + 8 - (mptr - size + 8) = size := by ring
      rw [Apart, hbelow, habove, BitVec.toNat_neg]
      omega
    have hrecorded : lengthOf (stackMemory size mptr memory) (mptr - size) = size := by
      rw [lengthOf, stackMemory, load64_store64_apart _ _ hapart, stackHeader,
        load64_store64_same]
    simp only [chunkAt, add_sub_cancel_right, hrecorded]
  have hlengthPos : 0 < size.toNat := by omega
  rw [hchunk, subset_iff hlengthPos]
  simp only [stop, BitVec.toNat_sub]
  omega

/-- A chunk at the address from which the result reads as a failure overlaps the header of the block
in one byte at most, and that byte is zero. -/
theorem lengthOf_stackHeader_of_failed (hmptr : Stores memory mptr last) (hlast : Granular last)
    (hsize : 16 ≤ size.toNat) (hfailed : mptr - size + blockSize = allocFailed) :
    lengthOf (stackHeader size mptr memory) mptr = lengthOf memory mptr := by
  have hallocated : mptr - size = -17 := eq_sub_of_add_eq hfailed
  have hsizeEq : size = mptr + 17 := by
    rw [← sub_sub_cancel mptr size, hallocated]
    exact sub_neg_eq_add _ _
  have hbase := hmptr.1
  have hdvd := hlast.base_dvd
  have hstop := hlast.stop_le
  have hlength := hlast.sixteen_le
  simp only [stop] at hstop
  have hroom : last.base + 32 ≤ 2 ^ 64 := by
    rw [hsizeEq, BitVec.toNat_add, hbase] at hsize
    change 16 ≤ (last.base + 17) % 2 ^ 64 at hsize
    omega
  apply load64_congr
  intro offset hoffset
  have hlocation : (mptr + 8 + offset).toNat = last.base + 8 + offset.toNat := by
    rw [BitVec.toNat_add, toNat_add_eight (hmptr.dvd hlast), hbase]
    omega
  have hnext : mptr + 8 + offset - (-17) = mptr + 8 + offset + 17 := sub_neg_eq_add _ _
  have hrecorded : mptr + 8 + offset - (-17 + 8) = mptr + 8 + offset + 9 := by ring
  rw [stackHeader, hallocated, store64_of_outside]
  · unfold store64
    split_ifs with hnear
    · rw [hnext, BitVec.toNat_add, hlocation] at hnear
      change (last.base + 8 + offset.toNat + 17) % 2 ^ 64 < 8 at hnear
      have hseven : offset = 7 := BitVec.eq_of_toNat_eq (show offset.toNat = 7 by omega)
      have hsmall : (load64 memory (mptr + 8)).toNat < 2 ^ 56 := by
        have hvalue : (load64 memory (mptr + 8)).toNat = last.length := hmptr.2
        omega
      rw [hseven, topByte_eq_zero hsmall]
      simp
    · rfl
  · rw [hrecorded, BitVec.toNat_add, hlocation]
    change 8 ≤ (last.base + 8 + offset.toNat + 9) % 2 ^ 64
    omega

/-- A result that reads as a failure still shortens the block. -/
theorem stackMemory_ne_of_failed (hmptr : Stores memory mptr last) (hlast : Granular last)
    (hsize : 16 ≤ size.toNat) (hfailed : mptr - size + blockSize = allocFailed) :
    stackMemory size mptr memory ≠ memory := by
  intro heq
  have hlength : lengthOf (stackMemory size mptr memory) mptr = lengthOf memory mptr - size := by
    rw [lengthOf, stackMemory, load64_store64_same,
      lengthOf_stackHeader_of_failed hmptr hlast hsize hfailed]
  rw [heq] at hlength
  have hzero : size = 0 := by
    rw [← sub_sub_cancel (lengthOf memory mptr) size, ← hlength, sub_self]
  rw [hzero] at hsize
  exact absurd hsize (by decide)

theorem not_allocStackSound_of_wellFormed {state : HeapState} (h : WellFormed state.list free)
    (hne : nbytes ≠ 0) : ¬ AllocStackSound nbytes state free := by
  rintro ⟨result, list', hrun, hresult⟩
  rcases List.eq_nil_or_concat' free with rfl | ⟨before, last, rfl⟩
  · rw [allocStack_empty h hne] at hrun
    cases hrun
  · have hlast : Granular last := h.granular last (by simp)
    have hsize := sixteen_le_stackSize nbytes
    obtain ⟨mptr, hmptr, rfl, rfl⟩ := allocStack_spec h hne hrun
    split_ifs at hresult with hfailed
    · exact stackMemory_ne_of_failed hmptr hlast hsize hfailed (congrArg BlockList.memory hresult)
    · obtain ⟨before', last', hfree, hcarves⟩ := hresult
      obtain ⟨rfl, hlastEq⟩ := List.append_inj' hfree rfl
      obtain rfl := List.singleton_injective hlastEq
      exact not_subset_of_stackMemory hmptr hlast hsize hcarves.noWrap hcarves.inside

/-- Whatever run leads to the list, no request for stack is carved from its last block. -/
theorem not_allocStackSound {layout : Layout} {state : HeapState} (h : state.Reached layout free)
    (hne : nbytes ≠ 0) : ¬ AllocStackSound nbytes state free :=
  not_allocStackSound_of_wellFormed h.wellFormed hne

/-- The list of one page before any request. -/
theorem reached_onePage : HeapState.Reached onePage ⟨onePageList, []⟩ onePage.blocks :=
  ⟨⟨⟨onePageList, []⟩, [], ⟨wellFormed_onePageList, rfl⟩, .nil⟩, wellFormed_onePageList⟩

theorem not_allocStackSound_page : ¬ AllocStackSound 0x1000 ⟨onePageList, []⟩ onePage.blocks :=
  not_allocStackSound reached_onePage (by decide)

/-- A request of 32 bytes gets the 32 bytes in front of the only block. -/
theorem not_allocStackSound_32 :
    HeapState.Reached onePage ⟨onePageList, []⟩ onePage.blocks ∧
      (allocStack 32 onePageList).map Prod.fst = .ok (higherHalf + 0x1000 - 32 + blockSize) ∧
      ¬ AllocStackSound 32 ⟨onePageList, []⟩ onePage.blocks := by
  refine ⟨reached_onePage, ?_,
    not_allocStackSound_of_wellFormed wellFormed_onePageList (by decide)⟩
  decide +kernel

end PenelopeOS.Memory
