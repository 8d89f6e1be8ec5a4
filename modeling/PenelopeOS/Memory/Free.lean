import PenelopeOS.Memory.AllocHeap

/-!
# `free` on a well-formed free list

A chunk that lies apart from every free block is given back. The comparisons of pointers become
comparisons of bases, the loop ends where `place` does or reads the successor of null, and the
writes of each branch leave the list that `release` computes. Nothing outside the chunk and the
free blocks is written.
-/

namespace PenelopeOS.Memory

open Machine Foundation Extent

variable {list : BlockList} {memory : Memory} {mptr current next head getHeadAddress : Word}
  {fuel : ℕ} {free free' before after : List Extent} {chunk currentBlock nextBlock : Extent}

/-- The walk ends between the blocks at which `place` puts the chunk. -/
theorem freeWalk_spec (hchain : FreeSegment list.memory next free 0)
    (hgranular : ∀ extent ∈ free, Granular extent) (hmptr : mptr.toNat = chunk.base)
    (hpos : 0 < chunk.base) (hfuel : free.length < fuel) :
    (place chunk free = none ∧ freeWalk mptr fuel next list = .error .nullDereference) ∨
    ∃ before currentBlock nextBlock after current,
      free = before ++ currentBlock :: nextBlock :: after ∧
      place chunk free = some (before ++ insertAfter chunk currentBlock (nextBlock :: after)) ∧
      FreeSegment list.memory next before current ∧ Stores list.memory current currentBlock ∧
      freeWalk mptr fuel next list = .ok (current, nextOf list.memory current) := by
  induction free generalizing next fuel with
  | nil =>
    obtain ⟨fuel, rfl⟩ : ∃ rounds, fuel = rounds + 1 := ⟨fuel - 1, by omega⟩
    refine Or.inl ⟨rfl, ?_⟩
    rw [Segment.nil_iff.mp hchain, freeWalk, BlockList.readNext_zero, error_bind]
  | cons first free ih =>
    obtain ⟨fuel, rfl⟩ : ∃ rounds, fuel = rounds + 1 := ⟨fuel - 1, by omega⟩
    obtain ⟨hstores, hrest⟩ := Segment.cons_iff.mp hchain
    have hnext : next ≠ 0 := hstores.ne_zero (hgranular first List.mem_cons_self)
    have hgranular' := fun extent hmem ↦ hgranular extent (List.mem_cons_of_mem first hmem)
    have hfuel' : free.length < fuel := Nat.succ_lt_succ_iff.mp hfuel
    rw [freeWalk, BlockList.readNext_of_ne hnext, ok_bind]
    simp only [BitVec.le_def, hmptr, hstores.1]
    match free with
    | [] =>
      have hend : nextOf list.memory next = 0 := Segment.nil_iff.mp hrest
      have hstuck : ¬ (chunk.base ≤ first.base ∧ chunk.base ≤ (nextOf list.memory next).toNat) := by
        rw [hend]
        exact fun h ↦ absurd h.2 (not_le.mpr hpos)
      rw [if_neg hstuck]
      rcases ih hrest hgranular' hfuel' with ⟨-, hwalk⟩ | ⟨before, _, _, _, _, hfree, -⟩
      · exact Or.inl ⟨rfl, hwalk⟩
      · simp at hfree
    | second :: after =>
      have hsecond : (nextOf list.memory next).toNat = second.base := hrest.stores_head.1
      rw [hsecond]
      by_cases hbetween : chunk.base ≤ first.base ∧ chunk.base ≤ second.base
      · refine Or.inr ⟨[], first, second, after, next, rfl, ?_, rfl, hstores, if_pos hbetween⟩
        exact if_pos hbetween
      · rw [if_neg hbetween, place, if_neg hbetween]
        rcases ih hrest hgranular' hfuel' with ⟨hplace, hwalk⟩ |
          ⟨before, currentBlock, nextBlock, after, current, hfree, hplace, hsegment, hcurrent, hwalk⟩
        · exact Or.inl ⟨by rw [hplace]; rfl, hwalk⟩
        · refine Or.inr ⟨first :: before, currentBlock, nextBlock, after, current, ?_, ?_,
            ⟨hstores, hsegment⟩, hcurrent, hwalk⟩
          · rw [hfree]
            rfl
          · rw [hplace]
            rfl

section Insert

variable (h : WellFormed list free) (hmptr : Stores list.memory mptr chunk)
  (hchunk : Granular chunk) (hdisjoint : ∀ block ∈ free, Disjoint block.bytes chunk.bytes)

include hmptr hchunk in
/-- The sum that the code compares wraps only where no block can be. -/
theorem add_eq_iff {position : Word} {block : Extent} (hposition : position.toNat = block.base)
    (hblock : Granular block) :
    mptr + lengthOf list.memory mptr = position ↔ chunk.stop = block.base := by
  have hfits := hchunk.stop_le
  have hpos := hblock.base_pos
  have hlt := position.isLt
  rw [← BitVec.toNat_inj, BitVec.toNat_add, hmptr.1, hmptr.2, hposition]
  simp only [stop] at hfits ⊢
  omega

include hmptr hchunk h hdisjoint in
theorem ne_of_stores {position : Word} {block : Extent} (hblock : block ∈ free)
    (hposition : Stores memory position block) : mptr ≠ position :=
  ne_of_disjoint (hdisjoint block hblock).symm hchunk (h.granular block hblock) hmptr.1 hposition.1

include h in
/-- Linking the chunk in after `current` touches no other block of the list. -/
theorem wellFormed_insert {newMemory : Memory} {newBlock : Extent} {newAfter : List Extent}
    {successor : Word} (hfree : free = before ++ currentBlock :: after)
    (hsegment : FreeSegment list.memory list.head before current)
    (hcurrent : Stores list.memory current currentBlock)
    (hkeep : ∀ position block, block ∈ free → Stores list.memory position block →
      Stores newMemory position block ∧ nextOf newMemory position =
        if current = position then mptr else nextOf list.memory position)
    (hnew : Stores newMemory mptr newBlock) (hnewNext : nextOf newMemory mptr = successor)
    (hnewAfter : FreeSegment list.memory successor newAfter 0) (hsuffix : newAfter <:+ after)
    (hnewGranular : Granular newBlock)
    (hnewDisjoint : ∀ block ∈ before ++ currentBlock :: newAfter,
      Disjoint block.bytes newBlock.bytes) :
    WellFormed ⟨newMemory, list.head⟩ (before ++ currentBlock :: newBlock :: newAfter) := by
  subst hfree
  obtain ⟨dropped, rfl⟩ := hsuffix
  have hcurrentMem : currentBlock ∈ before ++ currentBlock :: (dropped ++ newAfter) := by simp
  have hcurrentGranular := h.granular currentBlock hcurrentMem
  obtain ⟨hbefore, htail, hcross⟩ := List.pairwise_append.mp h.disjoint
  obtain ⟨hcurrentAfter, hafter⟩ := List.pairwise_cons.mp htail
  -- a block other than the current one is stored elsewhere
  have hother (position : Word) (block : Extent) (hmem : block ∈ before ++ newAfter)
      (hposition : Stores list.memory position block) : current ≠ position := by
    have hdisjointCurrent : Disjoint currentBlock.bytes block.bytes := by
      rcases List.mem_append.mp hmem with hmem | hmem
      · exact (hcross block hmem currentBlock List.mem_cons_self).symm
      · exact hcurrentAfter block (List.mem_append_right _ hmem)
    have hgranular : Granular block := h.granular block (by
      rcases List.mem_append.mp hmem with hmem | hmem <;> simp [hmem])
    exact ne_of_disjoint hdisjointCurrent hcurrentGranular hgranular hcurrent.1 hposition.1
  have hframe (position : Word) (block : Extent) (hmem : block ∈ before ++ newAfter)
      (hposition : Stores list.memory position block) :
      nextOf newMemory position = nextOf list.memory position ∧ Stores newMemory position block := by
    have hin : block ∈ before ++ currentBlock :: (dropped ++ newAfter) := by
      rcases List.mem_append.mp hmem with hmem | hmem <;> simp [hmem]
    obtain ⟨hstores, hnext⟩ := hkeep position block hin hposition
    exact ⟨hnext.trans (if_neg (hother position block hmem hposition)), hstores⟩
  refine ⟨?_, ?_, ?_⟩
  · obtain ⟨hcurrentStores, hcurrentNext⟩ := hkeep current currentBlock hcurrentMem hcurrent
    refine Segment.append_iff.mpr ⟨current, ?_, hcurrentStores, ?_⟩
    · exact hsegment.frame fun position block hmem ↦ hframe position block (by simp [hmem])
    · rw [hcurrentNext, if_pos rfl]
      refine ⟨hnew, ?_⟩
      rw [hnewNext]
      exact hnewAfter.frame fun position block hmem ↦ hframe position block (by simp [hmem])
  · have hnewAfterPairwise := (List.pairwise_append.mp hafter).2.1
    simp only [List.pairwise_append, List.pairwise_cons, List.forall_mem_cons]
    refine ⟨hbefore, ⟨⟨hnewDisjoint currentBlock (by simp), fun block hmem ↦ ?_⟩,
      fun block hmem ↦ ?_, hnewAfterPairwise⟩, fun block hmem ↦ ⟨?_, ?_, fun block' hmem' ↦ ?_⟩⟩
    · exact hcurrentAfter block (List.mem_append_right _ hmem)
    · exact (hnewDisjoint block (by simp [hmem])).symm
    · exact hcross block hmem currentBlock List.mem_cons_self
    · exact hnewDisjoint block (by simp [hmem])
    · exact hcross block hmem block' (by simp [hmem'])
  · intro block hmem
    simp only [List.mem_append, List.mem_cons] at hmem
    rcases hmem with hmem | rfl | rfl | hmem
    · exact h.granular block (by simp [hmem])
    · exact hcurrentGranular
    · exact hnewGranular
    · exact h.granular block (by simp [hmem])

include hmptr hchunk in
theorem agreeOutside_release {newMemory : Memory} {value : Word}
    (hagree : AgreeOutside (chunk :: free) memory newMemory) :
    AgreeOutside (chunk :: free) memory (store64 newMemory mptr value) ∧
      AgreeOutside (chunk :: free) memory (store64 newMemory (mptr + 8) value) := by
  have hlength := hchunk.sixteen_le
  have hstop : chunk.stop = chunk.base + chunk.length := rfl
  have hbase := hmptr.1
  have height := toNat_add_eight (hmptr.dvd hchunk)
  constructor <;> refine hagree.store List.mem_cons_self hchunk ?_ ?_ <;> omega

include h in
/-- The blocks that stay when the one behind the current block is taken out. -/
theorem mem_and_disjoint_of_cut (hfree : free = before ++ currentBlock :: nextBlock :: after)
    {block : Extent} (hmem : block ∈ before ++ currentBlock :: after) :
    block ∈ free ∧ Disjoint block.bytes nextBlock.bytes := by
  have hperm : free.Perm (nextBlock :: (before ++ currentBlock :: after)) := by
    rw [hfree]
    simpa using (List.perm_middle : ((before ++ [currentBlock]) ++ nextBlock :: after).Perm _)
  have hpairwise := (hperm.pairwise_iff fun {_ _} hdisjoint ↦ Disjoint.symm hdisjoint).mp h.disjoint
  exact ⟨hperm.mem_iff.mpr (List.mem_cons_of_mem _ hmem),
    ((List.pairwise_cons.mp hpairwise).1 block hmem).symm⟩

include hmptr hchunk h hdisjoint in
theorem insertBetween_joined (hfree : free = before ++ currentBlock :: nextBlock :: after)
    (hsegment : FreeSegment list.memory list.head before current)
    (hcurrent : Stores list.memory current currentBlock)
    (htail : FreeSegment list.memory next (nextBlock :: after) 0)
    (htouch : chunk.stop = nextBlock.base) :
    ∃ list', insertBetween mptr current next list = .ok list' ∧
      WellFormed list' (before ++ currentBlock :: chunk.join nextBlock :: after) ∧
      AgreeOutside (chunk :: free) list.memory list'.memory := by
  have hcurrentMem : currentBlock ∈ free := by simp [hfree]
  have hnextMem : nextBlock ∈ free := by simp [hfree]
  have hcurrentGranular := h.granular currentBlock hcurrentMem
  have hnextGranular := h.granular nextBlock hnextMem
  obtain ⟨hnext, hafter⟩ := Segment.cons_iff.mp htail
  have hmptrNe := hmptr.ne_zero hchunk
  have hcurrentNe := hcurrent.ne_zero hcurrentGranular
  have hnextNe := hnext.ne_zero hnextGranular
  have hmptrDvd := hmptr.dvd hchunk
  have hcurrentDvd := hcurrent.dvd hcurrentGranular
  have hnextDvd := hnext.dvd hnextGranular
  have hmptrCurrent := ne_of_stores h hmptr hchunk hdisjoint hcurrentMem hcurrent
  set total := lengthOf list.memory mptr + lengthOf list.memory next with htotal
  set newMemory := store64 (store64 (store64 list.memory (mptr + 8) total) mptr
    (nextOf list.memory next)) current mptr with hnewMemory
  have hrun : insertBetween mptr current next list = .ok ⟨newMemory, list.head⟩ := by
    have heq := (add_eq_iff hmptr hchunk hnext.1 hnextGranular).mpr htouch
    simp only [insertBetween, BlockList.readLength_of_ne hmptrNe, BlockList.readLength_of_ne hnextNe,
      BlockList.writeLength_of_ne hmptrNe, BlockList.readNext_of_ne hnextNe,
      BlockList.writeNext_of_ne hmptrNe, BlockList.writeNext_of_ne hcurrentNe, ok_bind, if_pos heq,
      nextOf_store_length hmptrDvd hnextDvd]
    rfl
  have htotalNat : total.toNat = (chunk.join nextBlock).length := by
    have hfits := hnextGranular.stop_le
    have hpos := hchunk.base_pos
    rw [htotal, BitVec.toNat_add, hmptr.2, hnext.2]
    simp only [stop, join_length] at hfits htouch ⊢
    omega
  have hjoin : (chunk.join nextBlock).bytes = chunk.bytes ∪ nextBlock.bytes := join_bytes htouch
  refine ⟨⟨newMemory, list.head⟩, hrun, ?_, ?_⟩
  · refine wellFormed_insert h hfree hsegment hcurrent (fun position block hmem hposition ↦ ?_)
      ⟨hmptr.1, ?_⟩ ?_ hafter (List.suffix_cons _ _)
      (hchunk.join hnextGranular htouch) fun block hmem ↦ ?_
    · have hdvd := hposition.dvd (h.granular block hmem)
      have hne := ne_of_stores h hmptr hchunk hdisjoint hmem hposition
      refine ⟨⟨hposition.1, ?_⟩, ?_⟩
      · rw [hnewMemory, lengthOf_store_next hcurrentDvd hdvd, lengthOf_store_next hmptrDvd hdvd,
          lengthOf_store_length hmptrDvd hdvd, if_neg hne]
        exact hposition.2
      · rw [hnewMemory, nextOf_store_next hcurrentDvd hdvd, nextOf_store_next hmptrDvd hdvd,
          if_neg hne, nextOf_store_length hmptrDvd hdvd]
    · rw [hnewMemory, lengthOf_store_next hcurrentDvd hmptrDvd, lengthOf_store_next hmptrDvd hmptrDvd,
        lengthOf_store_length hmptrDvd hmptrDvd, if_pos rfl, htotalNat]
    · rw [hnewMemory, nextOf_store_next hcurrentDvd hmptrDvd, if_neg hmptrCurrent.symm,
        nextOf_store_next hmptrDvd hmptrDvd, if_pos rfl]
    · obtain ⟨hblock, hdisjointNext⟩ := mem_and_disjoint_of_cut h hfree hmem
      rw [hjoin, Set.disjoint_union_right]
      exact ⟨hdisjoint block hblock, hdisjointNext⟩
  · have hheader : AgreeOutside (chunk :: free) list.memory
        (store64 (store64 list.memory (mptr + 8) total) mptr (nextOf list.memory next)) :=
      (agreeOutside_release hmptr hchunk (agreeOutside_release hmptr hchunk AgreeOutside.refl).2).1
    have hlength := hcurrentGranular.sixteen_le
    have hstop : currentBlock.stop = currentBlock.base + currentBlock.length := rfl
    have hbase := hcurrent.1
    exact hheader.store (List.mem_cons_of_mem _ hcurrentMem) hcurrentGranular (by omega) (by omega)

include hmptr hchunk h hdisjoint in
theorem insertBetween_between (hfree : free = before ++ currentBlock :: nextBlock :: after)
    (hsegment : FreeSegment list.memory list.head before current)
    (hcurrent : Stores list.memory current currentBlock)
    (htail : FreeSegment list.memory next (nextBlock :: after) 0)
    (hapart : chunk.stop ≠ nextBlock.base) :
    ∃ list', insertBetween mptr current next list = .ok list' ∧
      WellFormed list' (before ++ currentBlock :: chunk :: nextBlock :: after) ∧
      AgreeOutside (chunk :: free) list.memory list'.memory := by
  have hcurrentMem : currentBlock ∈ free := by simp [hfree]
  have hcurrentGranular := h.granular currentBlock hcurrentMem
  have hnextGranular := h.granular nextBlock (by simp [hfree])
  have hmptrNe := hmptr.ne_zero hchunk
  have hcurrentNe := hcurrent.ne_zero hcurrentGranular
  have hmptrDvd := hmptr.dvd hchunk
  have hcurrentDvd := hcurrent.dvd hcurrentGranular
  set newMemory := store64 (store64 list.memory current mptr) mptr next with hnewMemory
  have hrun : insertBetween mptr current next list = .ok ⟨newMemory, list.head⟩ := by
    have hne : ¬ mptr + lengthOf list.memory mptr = next := fun heq ↦
      hapart ((add_eq_iff hmptr hchunk htail.stores_head.1 hnextGranular).mp heq)
    simp only [insertBetween, BlockList.readLength_of_ne hmptrNe, BlockList.writeNext_of_ne hmptrNe,
      BlockList.writeNext_of_ne hcurrentNe, ok_bind, if_neg hne]
    rfl
  refine ⟨⟨newMemory, list.head⟩, hrun, ?_, ?_⟩
  · refine wellFormed_insert h hfree hsegment hcurrent (fun position block hmem hposition ↦ ?_)
      ⟨hmptr.1, ?_⟩ ?_ htail List.suffix_rfl hchunk fun block hmem ↦ ?_
    · have hdvd := hposition.dvd (h.granular block hmem)
      have hne := ne_of_stores h hmptr hchunk hdisjoint hmem hposition
      refine ⟨⟨hposition.1, ?_⟩, ?_⟩
      · rw [hnewMemory, lengthOf_store_next hmptrDvd hdvd, lengthOf_store_next hcurrentDvd hdvd]
        exact hposition.2
      · rw [hnewMemory, nextOf_store_next hmptrDvd hdvd, if_neg hne,
          nextOf_store_next hcurrentDvd hdvd]
    · rw [hnewMemory, lengthOf_store_next hmptrDvd hmptrDvd,
        lengthOf_store_next hcurrentDvd hmptrDvd]
      exact hmptr.2
    · rw [hnewMemory, nextOf_store_next hmptrDvd hmptrDvd, if_pos rfl]
    · exact hdisjoint block (hfree ▸ hmem)
  · have hlength := hcurrentGranular.sixteen_le
    have hstop : currentBlock.stop = currentBlock.base + currentBlock.length := rfl
    have hbase := hcurrent.1
    exact (agreeOutside_release hmptr hchunk (AgreeOutside.refl.store
      (List.mem_cons_of_mem _ hcurrentMem) hcurrentGranular (by omega) (by omega))).1

include hmptr hchunk h hdisjoint in
/-- The tail of `free` leaves the list that `insertAfter` computes. -/
theorem insertBetween_spec (hfree : free = before ++ currentBlock :: nextBlock :: after)
    (hsegment : FreeSegment list.memory list.head before current)
    (hcurrent : Stores list.memory current currentBlock)
    (htail : FreeSegment list.memory next (nextBlock :: after) 0) :
    ∃ list', insertBetween mptr current next list = .ok list' ∧
      WellFormed list' (before ++ insertAfter chunk currentBlock (nextBlock :: after)) ∧
      AgreeOutside (chunk :: free) list.memory list'.memory := by
  by_cases htouch : chunk.stop = nextBlock.base
  · rw [insertAfter_of_touch htouch]
    exact insertBetween_joined h hmptr hchunk hdisjoint hfree hsegment hcurrent htail htouch
  · rw [insertAfter_of_ne htouch]
    exact insertBetween_between h hmptr hchunk hdisjoint hfree hsegment hcurrent htail htouch

include hmptr hchunk h hdisjoint in
/-- A chunk put in front of the head becomes the head. -/
theorem wellFormed_front (value : Word) (hvalue : value = list.head) :
    WellFormed ⟨store64 list.memory mptr value, mptr⟩ (chunk :: free) ∧
      AgreeOutside (chunk :: free) list.memory (store64 list.memory mptr value) := by
  subst hvalue
  have hmptrDvd := hmptr.dvd hchunk
  refine ⟨⟨⟨⟨hmptr.1, ?_⟩, ?_⟩, ?_, List.forall_mem_cons.mpr ⟨hchunk, h.granular⟩⟩,
    (agreeOutside_release hmptr hchunk AgreeOutside.refl).1⟩
  · rw [lengthOf_store_next hmptrDvd hmptrDvd]
    exact hmptr.2
  · rw [nextOf_store_next hmptrDvd hmptrDvd, if_pos rfl]
    apply h.chain.frame
    intro position block hmem hposition
    have hdvd := hposition.dvd (h.granular block hmem)
    have hne := ne_of_stores h hmptr hchunk hdisjoint hmem hposition
    refine ⟨?_, hposition.1, ?_⟩
    · rw [nextOf_store_next hmptrDvd hdvd, if_neg hne]
    · rw [lengthOf_store_next hmptrDvd hdvd]
      exact hposition.2
  · exact List.pairwise_cons.mpr ⟨fun block hmem ↦ (hdisjoint block hmem).symm, h.disjoint⟩

include hmptr hchunk h hdisjoint in
/-- `free` does to the list in memory what `release` does to the list of extents, and reads through
null where `release` runs off the end. The head test never succeeds, because no chunk ends where
the code of `getHead` begins. -/
theorem free_spec (hcode : mptr + lengthOf list.memory mptr ≠ getHeadAddress) :
    (release chunk free = none ∧
      Memory.free getHeadAddress (mptr + blockSize) list = .error .nullDereference) ∨
    ∃ free' list', release chunk free = some free' ∧
      Memory.free getHeadAddress (mptr + blockSize) list = .ok list' ∧
      WellFormed list' free' ∧ AgreeOutside (chunk :: free) list.memory list'.memory := by
  have hmptrNe := hmptr.ne_zero hchunk
  have hbase : mptr + blockSize - blockSize = mptr := add_sub_cancel_right mptr blockSize
  have hfuel := h.length_le
  have hchain := h.chain
  simp only [Memory.free, hbase, BlockList.readLength_of_ne hmptrNe, ok_bind, if_neg hcode,
    BlockList.getHead]
  cases free with
  | nil =>
    refine Or.inl ⟨rfl, ?_⟩
    rw [show list.head = 0 from hchain, BlockList.readNext_zero, error_bind]
  | cons first free =>
    obtain ⟨hfirst, hrest⟩ := Segment.cons_iff.mp hchain
    have hheadNe := hfirst.ne_zero (h.granular first List.mem_cons_self)
    simp only [BlockList.readNext_of_ne hheadNe, BlockList.writeNext_of_ne hmptrNe, ok_bind,
      BlockList.setHead, BitVec.lt_def, BitVec.le_def, hmptr.1, hfirst.1]
    by_cases hfront : chunk.base < first.base
    · obtain ⟨hwellFormed, hagree⟩ := wellFormed_front h hmptr hchunk hdisjoint _ rfl
      refine Or.inr ⟨_, _, ?_, if_pos hfront, hwellFormed, hagree⟩
      cases free with
      | nil => exact if_pos hfront
      | cons second after => exact if_pos hfront
    · rw [if_neg hfront]
      cases free with
      | nil =>
        have hend : nextOf list.memory list.head = 0 := hrest
        have hstuck : ¬ (first.base ≤ chunk.base ∧ chunk.base ≤ (0 : Word).toNat) := fun hle ↦
          absurd hle.2 (not_le.mpr hchunk.base_pos)
        rw [hend, if_neg hstuck]
        refine Or.inl ⟨if_neg hfront, ?_⟩
        rw [show walkBound = 2 ^ 64 - 1 + 1 from rfl, freeWalk, BlockList.readNext_zero, error_bind,
          error_bind]
      | cons second after =>
        rw [hrest.stores_head.1]
        by_cases hsecond : chunk.base ≤ second.base
        · obtain ⟨list', hrun, hwellFormed, hagree⟩ := insertBetween_spec h hmptr hchunk hdisjoint
            (List.nil_append _).symm rfl hfirst hrest
          refine Or.inr ⟨_, list', ?_, ?_, hwellFormed, hagree⟩
          · rw [release, if_neg hfront, if_pos hsecond]
            rfl
          · rw [if_pos ⟨not_lt.mp hfront, hsecond⟩, hrun]
        · rw [if_neg fun hbetween ↦ hsecond hbetween.2, release, if_neg hfront, if_neg hsecond]
          rcases freeWalk_spec hrest (fun block hmem ↦ h.granular block (List.mem_cons_of_mem _ hmem))
            hmptr.1 hchunk.base_pos hfuel with ⟨hplace, hwalk⟩ |
            ⟨before, currentBlock, nextBlock, rest, current, hfree, hplace, hsegment, hcurrent, hwalk⟩
          · refine Or.inl ⟨by rw [hplace]; rfl, ?_⟩
            rw [hwalk, error_bind]
          · have hsplit : first :: second :: after =
                (first :: before) ++ currentBlock :: nextBlock :: rest := congrArg (first :: ·) hfree
            have htail : FreeSegment list.memory (nextOf list.memory current) (nextBlock :: rest) 0 := by
              rw [hfree] at hrest
              obtain ⟨middle, -, hmiddle, htail⟩ := Segment.append_iff.mp hrest
              rwa [hmiddle.unique hcurrent] at htail
            obtain ⟨list', hrun, hwellFormed, hagree⟩ := insertBetween_spec h hmptr hchunk hdisjoint
              hsplit ⟨hfirst, hsegment⟩ hcurrent htail
            refine Or.inr ⟨_, list', ?_, ?_, hwellFormed, hagree⟩
            · rw [hplace]
              rfl
            · rw [hwalk, ok_bind]
              exact hrun

end Insert

/-- Releasing the head while it is on the list links it to itself and then back to its successor. With
no successor the walk reads through null. -/
theorem free_head {first : Extent} (h : WellFormed list (first :: free))
    (hascending : ∀ block ∈ free, first.base < block.base)
    (hseparated : ∀ block ∈ free, first.stop ≠ block.base)
    (hcode : list.head + lengthOf list.memory list.head ≠ getHeadAddress) :
    (∃ list', Memory.free getHeadAddress (list.head + blockSize) list = .ok list' ∧
      WellFormed list' (first :: free)) ↔ free ≠ [] := by
  obtain ⟨hfirst, hrest⟩ := Segment.cons_iff.mp h.chain
  have hgranular := h.granular first List.mem_cons_self
  have hheadNe := hfirst.ne_zero hgranular
  have hheadDvd := hfirst.dvd hgranular
  have hbase : list.head + blockSize - blockSize = list.head := add_sub_cancel_right _ blockSize
  simp only [Memory.free, hbase, BlockList.readLength_of_ne hheadNe, ok_bind, if_neg hcode,
    BlockList.getHead, BlockList.readNext_of_ne hheadNe, BitVec.lt_irrefl, if_false, BitVec.le_refl,
    true_and]
  cases free with
  | nil =>
    have hend : nextOf list.memory list.head = 0 := hrest
    have hstuck : ¬ list.head ≤ 0 := fun hle ↦ hheadNe (BitVec.le_zero_iff.mp hle)
    rw [hend, if_neg hstuck, show walkBound = 2 ^ 64 - 1 + 1 from rfl, freeWalk,
      BlockList.readNext_zero, error_bind, error_bind]
    simp
  | cons second after =>
    have hsecond := hrest.stores_head
    have hnext : list.head ≤ nextOf list.memory list.head := by
      rw [BitVec.le_def, hfirst.1, hsecond.1]
      exact (hascending second List.mem_cons_self).le
    have hapart : ¬ list.head + lengthOf list.memory list.head = nextOf list.memory list.head := by
      intro heq
      exact hseparated second List.mem_cons_self ((add_eq_iff hfirst hgranular hsecond.1
        (h.granular second (List.mem_cons_of_mem _ List.mem_cons_self))).mp heq)
    set newMemory := store64 (store64 list.memory list.head list.head) list.head
      (nextOf list.memory list.head) with hnewMemory
    have hrun : insertBetween list.head list.head (nextOf list.memory list.head) list =
        .ok ⟨newMemory, list.head⟩ := by
      simp only [insertBetween, BlockList.readLength_of_ne hheadNe,
        BlockList.writeNext_of_ne hheadNe, ok_bind, if_neg hapart]
      rfl
    rw [if_pos hnext, hrun]
    refine iff_of_true ⟨_, rfl, ⟨?_, h.disjoint, h.granular⟩⟩ (by simp)
    apply h.chain.frame
    intro position block hmem hposition
    have hdvd := hposition.dvd (h.granular block hmem)
    refine ⟨?_, hposition.1, ?_⟩
    · rw [hnewMemory, nextOf_store_next hheadDvd hdvd, nextOf_store_next hheadDvd hdvd]
      split_ifs with heq
      · rw [heq]
      · rfl
    · rw [hnewMemory, lengthOf_store_next hheadDvd hdvd, lengthOf_store_next hheadDvd hdvd]
      exact hposition.2

end PenelopeOS.Memory
