import PenelopeOS.Memory.AllocHeap
import PenelopeOS.Memory.Headers

/-!
# First fit, and what happens when nothing fits

A request that some block can hold is cut off the first such block, and only the node of that block
changes. A request that no block can hold is not refused: the walk compares with the rounded size and
looks one node ahead, so it either cuts a chunk without room for its header or reads the successor of
null.
-/

namespace PenelopeOS.Memory

open Machine Foundation Extent

variable {list list' : BlockList} {free : List Extent} {nbytes : Word}

/-- The first block that is longer than the rounded size gives up its low end, and its node moves
to the remainder. -/
theorem allocHeap_firstFit (h : WellFormed list free) (hne : nbytes ≠ 0)
    (hfits : nbytes.toNat + 8 < 2 ^ 64)
    (hlong : ∃ block ∈ free, (roundedSize nbytes).toNat < block.length) :
    ∃ before block after, free = before ++ block :: after ∧
      (∀ extent ∈ before, extent.length ≤ (roundedSize nbytes).toNat) ∧
      (roundedSize nbytes).toNat < block.length ∧
      ∃ mptr list', mptr.toNat = block.base ∧
        allocHeap nbytes list = .ok (mptr + blockSize, list') ∧
        lengthOf list'.memory mptr = roundedSize nbytes ∧
        WellFormed list' (before ++
          ⟨block.base + (roundedSize nbytes).toNat, block.length - (roundedSize nbytes).toNat⟩ ::
          after) ∧
        list'.head = (if before = [] then mptr + roundedSize nbytes else list.head) ∧
        AgreeOutside free list.memory list'.memory := by
  have hpos : 0 < (roundedSize nbytes).toNat := by
    rw [roundedSize_toNat hfits]
    exact chunkSize_pos (Nat.pos_of_ne_zero fun hzero ↦ hne (BitVec.eq_of_toNat_eq hzero))
  obtain ⟨before, block, after, rfl, hbefore, hblock⟩ := exists_firstFit hlong
  obtain ⟨mptr, list', hrun, hmptr, hwellFormed, hlength, hagree, hhead⟩ :=
    allocHeap_ok h hne hbefore hblock
  exact ⟨before, block, after, rfl, hbefore, hblock, mptr, list', hmptr, hrun, hlength hpos,
    hwellFormed, hhead, hagree⟩

/-- A block of two granules, one of four and a page. -/
def threeBlocks : List Extent :=
  [⟨0x1000, 0x20⟩, ⟨0x1040, 0x40⟩, ⟨0x2000, 0x1000⟩]

def threeBlocksList : BlockList where
  memory := store64 (store64 (store64 (store64 (store64 (fun _ ↦ 0) 0x1000 0x1040) 0x1008 0x20)
    0x1040 0x2000) 0x1048 0x40) 0x2008 0x1000
  head := 0x1000

theorem wellFormed_threeBlocksList : WellFormed threeBlocksList threeBlocks where
  chain := by
    have hlinks : nextOf threeBlocksList.memory 0x1000 = 0x1040 ∧
        nextOf threeBlocksList.memory 0x1040 = 0x2000 ∧ nextOf threeBlocksList.memory 0x2000 = 0 := by
      decide +kernel
    obtain ⟨hfirst, hsecond, hthird⟩ := hlinks
    refine ⟨⟨rfl, by decide +kernel⟩, ?_⟩
    change FreeSegment _ (nextOf _ 0x1000) _ _
    rw [hfirst]
    refine ⟨⟨rfl, by decide +kernel⟩, ?_⟩
    change FreeSegment _ (nextOf _ 0x1040) _ _
    rw [hsecond]
    exact ⟨⟨rfl, by decide +kernel⟩, hthird⟩
  disjoint := by
    rw [threeBlocks, List.pairwise_cons, List.pairwise_pair, List.forall_mem_cons,
      List.forall_mem_singleton]
    refine ⟨⟨?_, ?_⟩, ?_⟩ <;> exact (disjoint_iff (by decide) (by decide)).mpr (by decide)
  granular := by
    simp only [threeBlocks, List.forall_mem_cons, List.not_mem_nil, IsEmpty.forall_iff,
      implies_true, and_true]
    exact ⟨⟨by decide, by decide, by decide, by decide, by decide⟩,
      ⟨by decide, by decide, by decide, by decide, by decide⟩,
      ⟨by decide, by decide, by decide, by decide, by decide⟩⟩

/-- Ten bytes take two granules: the first block is too small, the second gives up its low half, and
neither the head nor the page is touched. -/
theorem allocHeap_firstFit_ten :
    ∃ list', allocHeap 10 threeBlocksList = .ok (0x1050, list') ∧
      lengthOf list'.memory 0x1040 = 32 ∧
      WellFormed list' [⟨0x1000, 0x20⟩, ⟨0x1060, 0x20⟩, ⟨0x2000, 0x1000⟩] ∧
      list'.head = threeBlocksList.head ∧
      AgreeOutside threeBlocks threeBlocksList.memory list'.memory := by
  obtain ⟨before, block, after, hfree, hbefore, hblock, mptr, list', hmptr, hrun, hlength, hcut,
      hhead, hagree⟩ :=
    allocHeap_firstFit wellFormed_threeBlocksList (show (10 : Word) ≠ 0 by decide) (by decide)
      ⟨⟨0x2000, 0x1000⟩, by decide, by decide⟩
  have hrounded : (roundedSize 10).toNat = 32 := by decide
  rw [hrounded] at hblock hcut
  rcases before with _ | ⟨first, _ | ⟨second, before⟩⟩
  · obtain rfl : _ = block := (List.cons.inj hfree).1
    exact absurd hblock (by decide)
  · obtain ⟨rfl, hrest⟩ := List.cons.inj hfree
    obtain ⟨rfl, rfl⟩ := List.cons.inj hrest
    obtain rfl : mptr = 0x1040 := BitVec.eq_of_toNat_eq hmptr
    exact ⟨list', hrun, hlength, hcut, hhead, hagree⟩
  · obtain rfl : _ = second := (List.cons.inj (List.cons.inj hfree).2).1
    exact absurd (hbefore _ (List.mem_cons_of_mem _ List.mem_cons_self)) (by decide)

/-! ## When nothing fits -/

/-- No free block holds the requested bytes and a header. -/
def TooLarge (nbytes : Word) (free : List Extent) : Prop :=
  ∀ block ∈ free, block.length < nbytes.toNat + 16

instance (nbytes : Word) (free : List Extent) : Decidable (TooLarge nbytes free) :=
  inferInstanceAs (Decidable (∀ block ∈ free, block.length < nbytes.toNat + 16))

/-- The request is refused, and the list is what it was. -/
def FailsCleanly (nbytes : Word) (list : BlockList) (free : List Extent) : Prop :=
  ∃ list', allocHeap nbytes list = .ok (allocFailed, list') ∧ list'.head = list.head ∧
    WellFormed list' free

/-- No request is refused: a call that returns has cut a block, and the chunk is not at the last
address. -/
theorem allocHeap_ne_allocFailed (h : WellFormed list free) (hne : nbytes ≠ 0) :
    allocHeap nbytes list ≠ .ok (allocFailed, list') := by
  intro hrun
  by_cases hlong : ∃ block ∈ free, (roundedSize nbytes).toNat < block.length
  · obtain ⟨before, block, after, rfl, hbefore, hblock⟩ := exists_firstFit hlong
    obtain ⟨mptr, cut, hok, hmptr, -⟩ := allocHeap_ok h hne hbefore hblock
    have hfailed : mptr + blockSize = allocFailed :=
      congrArg Prod.fst (Except.ok.inj (hok.symm.trans hrun))
    exact add_blockSize_ne_allocFailed (h.granular block (by simp)) hmptr hfailed
  · have hshort : ∀ block ∈ free, block.length ≤ (roundedSize nbytes).toNat :=
      fun block hmem ↦ not_lt.mp fun hblock ↦ hlong ⟨block, hmem, hblock⟩
    rw [allocHeap_error h hne hshort] at hrun
    cases hrun

/-- Only the empty request fails cleanly, so of the requests that have to fail no other does. -/
theorem failsCleanly_of_tooLarge_iff (h : WellFormed list free) :
    (nbytes = 0 ∨ TooLarge nbytes free → FailsCleanly nbytes list free) ↔
      nbytes = 0 ∨ ¬ TooLarge nbytes free := by
  constructor
  · intro hclean
    by_cases hlarge : TooLarge nbytes free
    · obtain ⟨list', hrun, -⟩ := hclean (.inr hlarge)
      exact .inl (by_contra fun hne ↦ allocHeap_ne_allocFailed h hne hrun)
    · exact .inr hlarge
  · rintro (rfl | hroom)
    · exact fun _ ↦ ⟨list, allocHeap_zero, rfl, h⟩
    · rintro (rfl | hlarge)
      · exact ⟨list, allocHeap_zero, rfl, h⟩
      · exact absurd hlarge hroom

/-- Ten bytes fit into the second of three blocks. A page does not fit with its header. -/
theorem failsCleanly_of_tooLarge_iff_threeBlocks :
    ((10 : Word) = 0 ∨ TooLarge 10 threeBlocks → FailsCleanly 10 threeBlocksList threeBlocks) ∧
      ¬ ((0x1000 : Word) = 0 ∨ TooLarge 0x1000 threeBlocks →
        FailsCleanly 0x1000 threeBlocksList threeBlocks) :=
  ⟨(failsCleanly_of_tooLarge_iff wellFormed_threeBlocksList).mpr (by decide),
    fun hclean ↦
      absurd ((failsCleanly_of_tooLarge_iff wellFormed_threeBlocksList).mp hclean) (by decide)⟩

/-- Two pages are requested of a list of one. -/
theorem not_failsCleanly_twoPages :
    WellFormed onePageList onePage.blocks ∧ TooLarge 0x2000 onePage.blocks ∧
      faultOf (allocHeap 0x2000 onePageList) = some .nullDereference ∧
      ¬ FailsCleanly 0x2000 onePageList onePage.blocks := by
  have hlarge : TooLarge 0x2000 onePage.blocks := by decide
  have hshort : ∀ block ∈ onePage.blocks, block.length ≤ (roundedSize 0x2000).toNat := by decide
  have hrun : allocHeap 0x2000 onePageList = .error .nullDereference :=
    allocHeap_error wellFormed_onePageList (by decide) hshort
  refine ⟨wellFormed_onePageList, hlarge, by rw [hrun]; rfl, ?_⟩
  rintro ⟨list', hok, -⟩
  rw [hrun] at hok
  cases hok

end PenelopeOS.Memory
