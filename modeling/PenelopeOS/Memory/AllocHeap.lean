import PenelopeOS.Memory.BlockHeaders
import PenelopeOS.Memory.FreeList

/-!
# `allocHeap` on a well-formed free list

The walk of `allocHeap` carries the current block, its successor, its predecessor and its index.
`Behind` ties the last two to the blocks already passed, so that the walk comes to the first block
that is long enough with all four in step, or runs off the end and reads through null. The cut then
writes the two headers of the split block and the link of its predecessor, and the list it leaves
has the remainder in the place of that block.
-/

namespace PenelopeOS.Memory

open Machine Foundation Extent

namespace BlockList

variable {list : BlockList} {block : Word}

theorem readNext_of_ne (h : block ≠ 0) : list.readNext block = .ok (nextOf list.memory block) :=
  if_neg h

theorem readLength_of_ne (h : block ≠ 0) :
    list.readLength block = .ok (lengthOf list.memory block) := if_neg h

@[simp]
theorem readNext_zero : list.readNext 0 = .error .nullDereference := if_pos rfl

theorem writeNext_of_ne (h : block ≠ 0) (value : Word) :
    list.writeNext block value = .ok { list with memory := store64 list.memory block value } :=
  if_neg h

theorem writeLength_of_ne (h : block ≠ 0) (value : Word) :
    list.writeLength block value =
      .ok { list with memory := store64 list.memory (block + 8) value } := if_neg h

end BlockList

/-! ## The cut -/

/-- The memory after `takeFrom` has cut `size` bytes off `mptr`. -/
def cutMemory (size mptr next prev : Word) (memory : Memory) : Memory :=
  let cut := store64 (store64 memory mptr (mptr + size)) (mptr + 8) size
  let linked := if prev = 0 then cut else store64 cut prev (mptr + size)
  store64 (store64 linked (mptr + size) next) (mptr + size + 8) (lengthOf memory mptr - size)

variable {list : BlockList} {memory : Memory} {size mptr next prev index other final : Word}

theorem takeFrom_eq (hmptr : mptr ≠ 0) (hcut : mptr + size ≠ 0) :
    takeFrom size mptr next prev index list =
      .ok (mptr + blockSize, ⟨cutMemory size mptr next prev list.memory,
        if index = 0 then mptr + size else list.head⟩) := by
  unfold takeFrom cutMemory
  simp only [BlockList.readLength_of_ne hmptr, BlockList.writeNext_of_ne hmptr,
    BlockList.writeLength_of_ne hmptr, BlockList.writeNext_of_ne hcut,
    BlockList.writeLength_of_ne hcut, ok_bind, BlockList.setHead]
  by_cases hprev : prev = 0
  · simp only [if_pos hprev]
    split_ifs <;> rfl
  · simp only [if_neg hprev, BlockList.writeNext_of_ne hprev, ok_bind]
    split_ifs <;> rfl

section Cut

variable (hmptr : 16 ∣ mptr.toNat) (hcut : 16 ∣ (mptr + size).toNat)
  (hprev : prev = 0 ∨ 16 ∣ prev.toNat) (hother : 16 ∣ other.toNat)

include hmptr hcut hprev hother

theorem nextOf_cutMemory :
    nextOf (cutMemory size mptr next prev memory) other =
      if mptr + size = other then next
      else if prev ≠ 0 ∧ prev = other then mptr + size
      else if mptr = other then mptr + size else nextOf memory other := by
  have hprev' : 16 ∣ prev.toNat := by
    rcases hprev with rfl | hprev
    · simp
    · exact hprev
  unfold cutMemory
  rw [nextOf_store_length hcut hother, nextOf_store_next hcut hother]
  by_cases hzero : prev = 0
  · simp only [if_pos hzero, nextOf_store_length hmptr hother, nextOf_store_next hmptr hother,
      if_neg fun h : prev ≠ 0 ∧ prev = other ↦ h.1 hzero]
  · rw [if_neg hzero, nextOf_store_next hprev' hother, nextOf_store_length hmptr hother,
      nextOf_store_next hmptr hother]
    simp only [ne_eq, hzero, not_false_eq_true, true_and]

theorem lengthOf_cutMemory :
    lengthOf (cutMemory size mptr next prev memory) other =
      if mptr + size = other then lengthOf memory mptr - size
      else if mptr = other then size else lengthOf memory other := by
  have hprev' : 16 ∣ prev.toNat := by
    rcases hprev with rfl | hprev
    · simp
    · exact hprev
  unfold cutMemory
  rw [lengthOf_store_length hcut hother, lengthOf_store_next hcut hother]
  by_cases hzero : prev = 0
  · simp only [if_pos hzero, lengthOf_store_length hmptr hother, lengthOf_store_next hmptr hother]
  · simp only [if_neg hzero, lengthOf_store_next hprev' hother,
      lengthOf_store_length hmptr hother, lengthOf_store_next hmptr hother]

end Cut

/-! ## The walk -/

/-- `prev` and `index` after the given blocks have been passed. -/
inductive Behind : List Extent → Word → Word → Prop where
  | start : Behind [] 0 0
  | step (items : List Extent) (block : Extent) (prev index : Word)
      (hprev : prev.toNat = block.base) (hindex : index.toNat = items.length + 1) :
      Behind (items ++ [block]) prev index

variable {fuel : ℕ} {passed free before after : List Extent} {block : Extent}

theorem Behind.index_eq (h : Behind passed prev index) : index.toNat = passed.length := by
  cases h with
  | start => rfl
  | step items block prev index hprev hindex => simpa using hindex

theorem Behind.index_eq_zero_iff (h : Behind passed prev index) : index = 0 ↔ passed = [] := by
  rw [← List.length_eq_zero_iff, ← h.index_eq]
  exact BitVec.toNat_inj.symm

theorem Behind.aligned (h : Behind passed prev index)
    (hgranular : ∀ extent ∈ passed, Granular extent) : prev = 0 ∨ 16 ∣ prev.toNat := by
  cases h with
  | start => exact Or.inl rfl
  | step items block prev index hprev hindex =>
    rw [hprev]
    exact Or.inr (hgranular block (by simp)).base_dvd

/-- The walk comes to the first block that is long enough. -/
theorem allocWalk_eq_takeFrom (hchain : FreeSegment list.memory mptr (before ++ block :: after) 0)
    (hgranular : ∀ extent ∈ before ++ block :: after, Granular extent)
    (hbefore : ∀ extent ∈ before, extent.length ≤ size.toNat) (hblock : size.toNat < block.length)
    (hbehind : Behind passed prev index) (hlength : passed.length + before.length < 2 ^ 64)
    (hfuel : before.length < fuel) :
    ∃ position prev' index', FreeSegment list.memory mptr before position ∧
      Stores list.memory position block ∧ Behind (passed ++ before) prev' index' ∧
      allocWalk size fuel mptr (nextOf list.memory mptr) prev index list =
        takeFrom size position (nextOf list.memory position) prev' index' list := by
  induction before generalizing passed mptr prev index fuel with
  | nil =>
    obtain ⟨fuel, rfl⟩ : ∃ rounds, fuel = rounds + 1 := ⟨fuel - 1, by omega⟩
    have hstores : Stores list.memory mptr block := hchain.stores_head
    have hne : mptr ≠ 0 := hstores.ne_zero (hgranular block List.mem_cons_self)
    have hlt : size < lengthOf list.memory mptr := by
      rw [BitVec.lt_def, hstores.2]
      exact hblock
    refine ⟨mptr, prev, index, rfl, hstores, by simpa using hbehind, ?_⟩
    rw [allocWalk, if_neg hne, BlockList.readLength_of_ne hne, ok_bind, if_pos hlt]
  | cons first before ih =>
    obtain ⟨fuel, rfl⟩ : ∃ rounds, fuel = rounds + 1 := ⟨fuel - 1, by omega⟩
    obtain ⟨hstores, hrest⟩ := Segment.cons_iff.mp hchain
    have hne : mptr ≠ 0 := hstores.ne_zero (hgranular first List.mem_cons_self)
    have hnlt : ¬ size < lengthOf list.memory mptr := by
      rw [BitVec.lt_def, hstores.2]
      exact not_lt.mpr (hbefore first List.mem_cons_self)
    have hgranular' : ∀ extent ∈ before ++ block :: after, Granular extent :=
      fun extent hmem ↦ hgranular extent (List.mem_cons_of_mem first hmem)
    have hnext : nextOf list.memory mptr ≠ 0 :=
      FreeSegment.ne_zero hrest (by simp) hgranular'
    have hindex : (index + 1).toNat = passed.length + 1 := by
      rw [BitVec.toNat_add, hbehind.index_eq]
      change (passed.length + 1) % 2 ^ 64 = _
      simp only [List.length_cons] at hlength
      omega
    have hfuel' : before.length < fuel := Nat.succ_lt_succ_iff.mp hfuel
    obtain ⟨position, prev', index', hseg, hposition, hbehind', hwalk⟩ :=
      ih hrest hgranular' (fun extent hmem ↦ hbefore extent (List.mem_cons_of_mem _ hmem))
        (Behind.step passed first mptr (index + 1) hstores.1 hindex)
        (by simp only [List.length_append, List.length_cons, List.length_nil] at hlength ⊢; omega)
        hfuel'
    refine ⟨position, prev', index', ⟨hstores, hseg⟩, hposition, by simpa using hbehind', ?_⟩
    rw [← hwalk, allocWalk, if_neg hne, BlockList.readLength_of_ne hne, ok_bind, if_neg hnlt,
      BlockList.readNext_of_ne hne, ok_bind, BlockList.readNext_of_ne hnext, ok_bind]

/-- When no block is long enough the walk reads the successor of null. -/
theorem allocWalk_error (hchain : FreeSegment list.memory mptr free 0) (hne : free ≠ [])
    (hgranular : ∀ extent ∈ free, Granular extent)
    (hshort : ∀ extent ∈ free, extent.length ≤ size.toNat) (hfuel : free.length ≤ fuel) :
    allocWalk size fuel mptr next prev index list = .error .nullDereference := by
  induction free generalizing mptr next prev index fuel with
  | nil => exact absurd rfl hne
  | cons first free ih =>
    obtain ⟨fuel, rfl⟩ : ∃ rounds, fuel = rounds + 1 :=
      ⟨fuel - 1, by simp only [List.length_cons] at hfuel; omega⟩
    obtain ⟨hstores, hrest⟩ := Segment.cons_iff.mp hchain
    have hmptr : mptr ≠ 0 := hstores.ne_zero (hgranular first List.mem_cons_self)
    have hnlt : ¬ size < lengthOf list.memory mptr := by
      rw [BitVec.lt_def, hstores.2]
      exact not_lt.mpr (hshort first List.mem_cons_self)
    have hgranular' := fun extent hmem ↦ hgranular extent (List.mem_cons_of_mem first hmem)
    rw [allocWalk, if_neg hmptr, BlockList.readLength_of_ne hmptr, ok_bind, if_neg hnlt,
      BlockList.readNext_of_ne hmptr, ok_bind]
    by_cases hfree : free = []
    · subst hfree
      rw [Segment.nil_iff.mp hrest, BlockList.readNext_zero, error_bind]
    · have hnext : nextOf list.memory mptr ≠ 0 := FreeSegment.ne_zero hrest hfree hgranular'
      rw [BlockList.readNext_of_ne hnext, ok_bind]
      exact ih hrest hfree hgranular' (fun extent hmem ↦ hshort extent (List.mem_cons_of_mem _ hmem))
        (Nat.succ_le_succ_iff.mp hfuel)

/-! ## The list after the cut -/

theorem pairwise_replace {α : Type} {related : α → α → Prop} {before after : List α} {old new : α}
    (h : (before ++ old :: after).Pairwise related)
    (hleft : ∀ item, related item old → related item new)
    (hright : ∀ item, related old item → related new item) :
    (before ++ new :: after).Pairwise related := by
  simp only [List.pairwise_append, List.pairwise_cons, List.forall_mem_cons] at h ⊢
  obtain ⟨hbefore, ⟨hold, hafter⟩, hcross⟩ := h
  exact ⟨hbefore, ⟨fun item hitem ↦ hright item (hold item hitem), hafter⟩,
    fun item hitem ↦ ⟨hleft item (hcross item hitem).1, (hcross item hitem).2⟩⟩

section WellFormedCut

variable (h : WellFormed list (before ++ block :: after))
  (hsegment : FreeSegment list.memory list.head before mptr)
  (hstores : Stores list.memory mptr block) (hbehind : Behind before prev index)
  (hdvd : 16 ∣ size.toNat) (hcut : size.toNat < block.length)

/-- The list that `takeFrom` leaves. -/
def cutList (size mptr prev index : Word) (list : BlockList) : BlockList :=
  ⟨cutMemory size mptr (nextOf list.memory mptr) prev list.memory,
    if index = 0 then mptr + size else list.head⟩

include hstores h hcut in
theorem toNat_cut : (mptr + size).toNat = block.base + size.toNat := by
  have hfits := (h.granular block (by simp)).stop_le
  rw [BitVec.toNat_add, hstores.1]
  simp only [stop] at hfits
  omega

include hstores h hcut hdvd hbehind in
/-- A block of the list other than the one cut keeps its length, and its link unless it was the
predecessor. -/
theorem stores_cut (next : Word) {position : Word} {extent : Extent}
    (hposition : Stores list.memory position extent) (hgranular : Granular extent)
    (hdisjoint : Disjoint extent.bytes block.bytes) :
    Stores (cutMemory size mptr next prev list.memory) position extent ∧
      nextOf (cutMemory size mptr next prev list.memory) position =
        if prev ≠ 0 ∧ prev = position then mptr + size else nextOf list.memory position := by
  have hblock := h.granular block (by simp)
  have hmptr : mptr ≠ position :=
    ne_of_disjoint hdisjoint.symm hblock hgranular hstores.1 hposition.1
  have hnew : mptr + size ≠ position := by
    rintro rfl
    exact base_ne_of_disjoint hdisjoint hgranular hblock _ hcut
      (hposition.1.symm.trans (toNat_cut h hstores hcut))
  have haligned := hstores.dvd hblock
  have hnewAligned : 16 ∣ (mptr + size).toNat := by
    rw [toNat_cut h hstores hcut]
    exact Nat.dvd_add hblock.base_dvd hdvd
  have hprev : prev = 0 ∨ 16 ∣ prev.toNat := hbehind.aligned fun extent hmem ↦
    h.granular extent (List.mem_append_left _ hmem)
  have hpositionAligned := hposition.dvd hgranular
  refine ⟨⟨hposition.1, ?_⟩, ?_⟩
  · rw [lengthOf_cutMemory haligned hnewAligned hprev hpositionAligned, if_neg hnew, if_neg hmptr]
    exact hposition.2
  · rw [nextOf_cutMemory haligned hnewAligned hprev hpositionAligned, if_neg hnew, if_neg hmptr]

include hstores h hcut hdvd hbehind in
theorem stores_upper (next : Word) :
    Stores (cutMemory size mptr next prev list.memory) (mptr + size)
      (block.upper size.toNat) ∧
    nextOf (cutMemory size mptr next prev list.memory) (mptr + size) = next ∧
    (0 < size.toNat → lengthOf (cutMemory size mptr next prev list.memory) mptr = size) := by
  have hblock := h.granular block (by simp)
  have haligned := hstores.dvd hblock
  have hnew := toNat_cut h hstores hcut
  have hnewAligned : 16 ∣ (mptr + size).toNat := hnew ▸ Nat.dvd_add hblock.base_dvd hdvd
  have hprev : prev = 0 ∨ 16 ∣ prev.toNat := hbehind.aligned fun extent hmem ↦
    h.granular extent (List.mem_append_left _ hmem)
  refine ⟨⟨hnew, ?_⟩, ?_, fun hpos ↦ ?_⟩
  · rw [lengthOf_cutMemory haligned hnewAligned hprev hnewAligned, if_pos rfl, BitVec.toNat_sub,
      hstores.2]
    have hfits := hblock.stop_le
    have hpos := hblock.base_pos
    simp only [stop, upper_length] at hfits ⊢
    omega
  · rw [nextOf_cutMemory haligned hnewAligned hprev hnewAligned, if_pos rfl]
  · have hne : mptr + size ≠ mptr := fun heq ↦ by
      have := congrArg BitVec.toNat heq
      rw [hnew, hstores.1] at this
      omega
    rw [lengthOf_cutMemory haligned hnewAligned hprev haligned, if_neg hne, if_pos rfl]

include hsegment hstores h hcut hdvd hbehind in
/-- The chain of the new list: the blocks before, redirected to the remainder; the remainder; and
the blocks after it as they were. -/
theorem wellFormed_cut :
    WellFormed (cutList size mptr prev index list) (before ++ block.upper size.toNat :: after) := by
  have hblock := h.granular block (by simp)
  obtain ⟨hdisjointBefore, hdisjointTail, hcross⟩ := List.pairwise_append.mp h.disjoint
  obtain ⟨hblockAfter, -⟩ := List.pairwise_cons.mp hdisjointTail
  obtain ⟨hupper, hnext, -⟩ := stores_upper h hstores hbehind hdvd hcut (nextOf list.memory mptr)
  have hsubset : (block.upper size.toNat).bytes ⊆ block.bytes :=
    upper_subset hcut.le
  refine ⟨?_, ?_, ?_⟩
  · have hframe (position : Word) (extent : Extent) (hmem : extent ∈ before ++ after)
        (hposition : Stores list.memory position extent) :=
      stores_cut h hstores hbehind hdvd hcut (nextOf list.memory mptr) hposition
        (h.granular extent (by simp at hmem ⊢; tauto))
        (by
          rcases List.mem_append.mp hmem with hmem | hmem
          · exact hcross extent hmem block List.mem_cons_self
          · exact (hblockAfter extent hmem).symm)
    refine Segment.append_iff.mpr ⟨mptr + size, ?_, hupper, ?_⟩
    · cases hbehind with
      | start => rfl
      | step items last prev index hprev hindex =>
        have hindexNe : index ≠ 0 := by
          rintro rfl
          simp at hindex
        have hlastGranular : Granular last := h.granular last (by simp)
        simp only [cutList, if_neg hindexNe]
        refine hsegment.redirect (fun position extent hmem hposition ↦ ?_) fun position hposition ↦ ?_
        · obtain ⟨hkeep, hlink⟩ := hframe position extent (by simp [hmem]) hposition
          have hdisjoint := (List.pairwise_append.mp hdisjointBefore).2.2 extent hmem last (by simp)
          have hne := ne_of_disjoint hdisjoint.symm hlastGranular (h.granular extent (by simp [hmem]))
            hprev hposition.1
          exact ⟨hlink.trans (if_neg fun hlast ↦ hne hlast.2), hkeep⟩
        · obtain ⟨hkeep, hlink⟩ := hframe position last (by simp) hposition
          refine ⟨hlink.trans (if_pos ⟨?_, BitVec.eq_of_toNat_eq (hprev.trans hposition.1.symm)⟩), hkeep⟩
          rintro rfl
          exact hlastGranular.base_pos.ne hprev
    · rw [cutList, hnext]
      have hafter : FreeSegment list.memory (nextOf list.memory mptr) after 0 := by
        obtain ⟨middle, -, hmiddle, hafter⟩ := Segment.append_iff.mp h.chain
        rwa [hmiddle.unique hstores] at hafter
      apply hafter.frame
      intro position extent hmem hposition
      obtain ⟨hkeep, hlink⟩ := hframe position extent (by simp [hmem]) hposition
      refine ⟨hlink.trans (if_neg fun hlast ↦ ?_), hkeep⟩
      cases hbehind with
      | start => exact hlast.1 rfl
      | step items last prev index hprev hindex =>
        have hlastGranular : Granular last := h.granular last (by simp)
        have hdisjoint := hcross last (by simp) extent (List.mem_cons_of_mem _ hmem)
        exact ne_of_disjoint hdisjoint hlastGranular (h.granular extent (by simp [hmem])) hprev
          hposition.1 hlast.2
  · exact pairwise_replace h.disjoint (fun _ hd ↦ hd.mono_right hsubset)
      (fun _ hd ↦ hd.mono_left hsubset)
  · intro extent hmem
    rcases List.mem_append.mp hmem with hmem | hmem
    · exact h.granular extent (List.mem_append_left _ hmem)
    · rcases List.mem_cons.mp hmem with rfl | hmem
      · exact hblock.upper hdvd hcut
      · exact h.granular extent (List.mem_append_right _ (List.mem_cons_of_mem _ hmem))

include hstores h hcut hdvd hbehind in
theorem agreeOutside_cut : AgreeOutside (before ++ block :: after) list.memory
    (cutMemory size mptr next prev list.memory) := by
  have hmem : block ∈ before ++ block :: after := by simp
  have hblock := h.granular block hmem
  have hlength := hblock.sixteen_le
  have hstop : block.stop = block.base + block.length := rfl
  have hbase := hstores.1
  have height := toNat_add_eight (hstores.dvd hblock)
  have hnew := toNat_cut h hstores hcut
  have hnewAligned : 16 ∣ (mptr + size).toNat := hnew ▸ Nat.dvd_add hblock.base_dvd hdvd
  have hnewEight := toNat_add_eight hnewAligned
  have hrest : 16 ≤ block.length - size.toNat := Granular.sixteen_le (hblock.upper hdvd hcut)
  have hheader : AgreeOutside (before ++ block :: after) list.memory
      (store64 (store64 list.memory mptr (mptr + size)) (mptr + 8) size) := by
    refine (AgreeOutside.refl.store hmem hblock ?_ ?_).store hmem hblock ?_ ?_ <;> omega
  have hlinked : AgreeOutside (before ++ block :: after) list.memory
      (if prev = 0 then store64 (store64 list.memory mptr (mptr + size)) (mptr + 8) size
        else store64 (store64 (store64 list.memory mptr (mptr + size)) (mptr + 8) size)
          prev (mptr + size)) := by
    cases hbehind with
    | start => exact hheader
    | step items last prev index hprev hindex =>
      have hlast := h.granular last (by simp)
      have hlastLength := hlast.sixteen_le
      split_ifs
      · exact hheader
      · have hlastMem : last ∈ items ++ [last] ++ block :: after := by simp
        have hlastStop : last.stop = last.base + last.length := rfl
        refine hheader.store hlastMem hlast ?_ ?_ <;> omega
  unfold cutMemory
  refine (hlinked.store hmem hblock ?_ ?_).store hmem hblock ?_ ?_ <;> omega

end WellFormedCut

/-! ## `allocHeap` -/

/-- `roundedSize` while nothing wraps. -/
def chunkSize (nbytes : ℕ) : ℕ := ((if nbytes < 16 then 16 + nbytes else nbytes) + 8) / 16 * 16

variable {nbytes : Word}

theorem roundedSize_toNat (h : nbytes.toNat + 8 < 2 ^ 64) :
    (roundedSize nbytes).toNat = chunkSize nbytes.toNat := by
  have hhalf : ((16 : BitVec 8) / 2).setWidth 64 = 8 := by decide
  have hmultiple : (16 : BitVec 8).setWidth 64 = 16 := by decide
  have hlt : (nbytes < 16) ↔ nbytes.toNat < 16 := BitVec.lt_def
  simp only [roundedSize, round, chunkSize, hhalf, hmultiple, hlt, BitVec.toNat_mul,
    BitVec.toNat_udiv]
  split_ifs with hsmall
  · rw [BitVec.toNat_add, BitVec.toNat_add]
    change ((16 + nbytes.toNat) % 2 ^ 64 + 8) % 2 ^ 64 / 16 * 16 % 2 ^ 64 = _
    omega
  · rw [BitVec.toNat_add]
    change (nbytes.toNat + 8) % 2 ^ 64 / 16 * 16 % 2 ^ 64 = _
    omega

/-- A request near the top of the range is rounded down to nothing. -/
theorem roundedSize_eq_zero (h : 2 ^ 64 ≤ nbytes.toNat + 8) : roundedSize nbytes = 0 := by
  have hhalf : ((16 : BitVec 8) / 2).setWidth 64 = 8 := by decide
  have hmultiple : (16 : BitVec 8).setWidth 64 = 16 := by decide
  have hlarge : ¬ nbytes < 16 := by
    rw [BitVec.lt_def]
    change ¬ nbytes.toNat < 16
    omega
  have hlt := nbytes.isLt
  simp only [roundedSize, round, hhalf, hmultiple, if_neg hlarge]
  apply BitVec.eq_of_toNat_eq
  rw [BitVec.toNat_mul, BitVec.toNat_udiv, BitVec.toNat_add]
  change (nbytes.toNat + 8) % 2 ^ 64 / 16 * 16 % 2 ^ 64 = 0
  omega

theorem roundedSize_dvd (nbytes : Word) : 16 ∣ (roundedSize nbytes).toNat := by
  have hmultiple : (16 : BitVec 8).setWidth 64 = 16 := by decide
  simp only [roundedSize, round, hmultiple, BitVec.toNat_mul]
  change 16 ∣ _ * 16 % 2 ^ 64
  omega

theorem chunkSize_dvd (request : ℕ) : 16 ∣ chunkSize request := Nat.dvd_mul_left 16 _

theorem chunkSize_pos {request : ℕ} (h : 0 < request) : 0 < chunkSize request := by
  unfold chunkSize
  split_ifs <;> omega

theorem allocHeap_zero : allocHeap 0 list = .ok (allocFailed, list) :=
  if_pos (BitVec.le_refl 0)

/-- An allocation that finds no long enough block reads through null. -/
theorem allocHeap_error (h : WellFormed list free) (hne : nbytes ≠ 0)
    (hshort : ∀ extent ∈ free, extent.length ≤ (roundedSize nbytes).toNat) :
    allocHeap nbytes list = .error .nullDereference := by
  have hpos : ¬ nbytes ≤ 0 := fun hle ↦ hne (BitVec.le_zero_iff.mp hle)
  rw [allocHeap, if_neg hpos]
  by_cases hfree : free = []
  · subst hfree
    have hhead : list.head = 0 := h.chain
    simp only [BlockList.getHead, hhead, BlockList.readNext_zero, error_bind]
  · have hhead : list.head ≠ 0 := FreeSegment.ne_zero h.chain hfree h.granular
    simp only [BlockList.getHead, BlockList.readNext_of_ne hhead, ok_bind]
    exact allocWalk_error h.chain hfree h.granular hshort h.length_le

/-- An allocation cuts the first block that is long enough. -/
theorem allocHeap_ok (h : WellFormed list (before ++ block :: after)) (hne : nbytes ≠ 0)
    (hbefore : ∀ extent ∈ before, extent.length ≤ (roundedSize nbytes).toNat)
    (hcut : (roundedSize nbytes).toNat < block.length) :
    ∃ mptr list', allocHeap nbytes list = .ok (mptr + blockSize, list') ∧
      mptr.toNat = block.base ∧
      WellFormed list' (before ++ block.upper (roundedSize nbytes).toNat :: after) ∧
      (0 < (roundedSize nbytes).toNat → lengthOf list'.memory mptr = roundedSize nbytes) ∧
      AgreeOutside (before ++ block :: after) list.memory list'.memory ∧
      list'.head = if before = [] then mptr + roundedSize nbytes else list.head := by
  have hpos : ¬ nbytes ≤ 0 := fun hle ↦ hne (BitVec.le_zero_iff.mp hle)
  have hdvd := roundedSize_dvd nbytes
  have hhead : list.head ≠ 0 := FreeSegment.ne_zero h.chain (by simp) h.granular
  have hlength := h.length_le
  simp only [List.length_append, List.length_cons] at hlength
  have hfuel : before.length < walkBound := by omega
  obtain ⟨mptr, prev, index, hsegment, hstores, hbehind, hwalk⟩ :=
    allocWalk_eq_takeFrom h.chain h.granular hbefore hcut Behind.start
      (by simpa only [List.length_nil, Nat.zero_add] using show before.length < 2 ^ 64 from hfuel)
      hfuel
  rw [List.nil_append] at hbehind
  have hblock := h.granular block (by simp)
  have hmptr : mptr ≠ 0 := hstores.ne_zero hblock
  have hnew : mptr + roundedSize nbytes ≠ 0 := by
    intro hzero
    have := toNat_cut h hstores hcut
    rw [hzero] at this
    exact (Nat.add_pos_left hblock.base_pos _).ne this
  refine ⟨mptr, cutList (roundedSize nbytes) mptr prev index list, ?_, hstores.1,
    wellFormed_cut h hsegment hstores hbehind hdvd hcut, ?_,
    agreeOutside_cut h hstores hbehind hdvd hcut, ?_⟩
  · rw [allocHeap, if_neg hpos]
    simp only [BlockList.getHead, BlockList.readNext_of_ne hhead, ok_bind]
    rw [hwalk, takeFrom_eq hmptr hnew]
    rfl
  · exact (stores_upper h hstores hbehind hdvd hcut _).2.2
  · simp only [cutList, hbehind.index_eq_zero_iff]

end PenelopeOS.Memory
