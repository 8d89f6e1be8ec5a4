import PenelopeOS.Memory.Arena

/-!
# The list that `InitialiseHeaders` builds

The first loop copies the usable entries into a buffer of twenty, the second links them. The second
loop also reads the entry after the last one, so nineteen usable entries are the most it can link.
The headers are linked whenever they lie apart in 64-bit arithmetic, wherever the entries are mapped.
-/

namespace PenelopeOS.Memory

open Machine Foundation Extent Limine

/-- A usable entry in the higher-half mapping. -/
def mappedExtent (hhdm : Word) (entry : MemmapEntry) : Extent :=
  ⟨(paddrToVaddr hhdm entry.base).toNat, entry.length.toNat⟩

/-- A mapped block is a whole number of granules. -/
theorem granular_mappedExtent {hhdm : Word} {entry : MemmapEntry} (hpage : 0x1000 ∣ hhdm.toNat)
    (hpos : 0 < hhdm.toNat) (haligned : 0x1000 ∣ entry.base.toNat ∧ 0x1000 ∣ entry.length.toNat)
    (hfits : entry.stop + hhdm.toNat ≤ 2 ^ 64) (hlength : 0 < entry.length.toNat) :
    Granular (mappedExtent hhdm entry) := by
  have hbase : (mappedExtent hhdm entry).base = entry.base.toNat + hhdm.toNat := by
    simp only [mappedExtent, paddrToVaddr, MemmapEntry.stop, BitVec.toNat_add] at *
    omega
  have hlengthEq : (mappedExtent hhdm entry).length = entry.length.toNat := rfl
  simp only [MemmapEntry.stop] at hfits
  constructor
  · omega
  · omega
  · omega
  · omega
  · simp only [stop]
    omega

/-- Mapped blocks ascend and stay apart. -/
theorem pairwise_mappedExtent {hhdm : Word} (map : MemoryMap)
    (hfits : ∀ entry ∈ usable map.entries, entry.stop + hhdm.toNat ≤ 2 ^ 64)
    (hlength : ∀ entry ∈ usable map.entries, 0 < entry.length.toNat) :
    ((usable map.entries).map (mappedExtent hhdm)).Pairwise fun first second ↦
      first.stop ≤ second.base := by
  refine List.pairwise_map.mpr (map.sorted.imp_of_mem fun {first second} hfirst hsecond hstop ↦ ?_)
  have := hfits first hfirst
  have := hfits second hsecond
  have := hlength first hfirst
  have := hlength second hsecond
  simp only [stop, mappedExtent, paddrToVaddr, MemmapEntry.stop, BitVec.toNat_add] at *
  omega

/-- A boot memory map gives a layout when the mapping does not wrap and no usable entry is empty. -/
def layoutOf (map : MemoryMap) (hhdm getHeadAddress : Word) (hpage : 0x1000 ∣ hhdm.toNat)
    (hpos : 0 < hhdm.toNat)
    (hfits : ∀ entry ∈ usable map.entries, entry.stop + hhdm.toNat ≤ 2 ^ 64)
    (hlength : ∀ entry ∈ usable map.entries, 0 < entry.length.toNat)
    (hcodePos : 0 < getHeadAddress.toNat)
    (hcode : ∀ entry ∈ usable map.entries, getHeadAddress.toNat < (mappedExtent hhdm entry).base ∨
      (mappedExtent hhdm entry).stop < getHeadAddress.toNat) : Layout where
  blocks := (usable map.entries).map (mappedExtent hhdm)
  getHeadAddress := getHeadAddress
  sorted := pairwise_mappedExtent map hfits hlength
  granular := by
    intro block hblock
    obtain ⟨entry, hentry, rfl⟩ := List.mem_map.mp hblock
    exact granular_mappedExtent hpage hpos (map.aligned entry hentry) (hfits entry hentry)
      (hlength entry hentry)
  code_pos := hcodePos
  code_apart := by
    intro block hblock
    obtain ⟨entry, hentry, rfl⟩ := List.mem_map.mp hblock
    exact hcode entry hentry

/-! ## The first loop -/

variable {buffer : EntryBuffer} {entries : List MemmapEntry} {index i : ℕ} {hhdm : Word}

theorem EntryBuffer.exists_read (buffer : EntryBuffer) (hindex : index < 20) :
    ∃ entry, buffer.read index = .ok entry :=
  ⟨buffer[index], dif_pos hindex⟩

theorem EntryBuffer.exists_write (buffer : EntryBuffer) (hindex : index < 20) (entry : MemoryEntry) :
    ∃ buffer', buffer.write index entry = .ok buffer' ∧ buffer'.read index = .ok entry ∧
      ∀ other ≠ index, buffer'.read other = buffer.read other := by
  refine ⟨buffer.set index entry, dif_pos hindex, ?_, fun other hother ↦ ?_⟩
  · rw [EntryBuffer.read, dif_pos hindex, Vector.getElem_set_self]
  · unfold EntryBuffer.read
    split_ifs with hrange
    · rw [Vector.getElem_set_ne hindex hrange hother.symm]
    · rfl

theorem populate_spec (entries : List MemmapEntry) (index : ℕ) (buffer : EntryBuffer)
    (hcount : index + (usable entries).length ≤ 20) :
    ∃ buffer', populate entries index buffer = .ok (index + (usable entries).length, buffer') ∧
      (∀ (offset : ℕ) (hoffset : offset < (usable entries).length),
        buffer'.read (index + offset) =
          .ok ⟨(usable entries)[offset].base, (usable entries)[offset].length⟩) ∧
      ∀ other < index, buffer'.read other = buffer.read other := by
  induction entries generalizing index buffer with
  | nil =>
    exact ⟨buffer, rfl, fun offset hoffset ↦ absurd hoffset (Nat.not_lt_zero offset),
      fun _ _ ↦ rfl⟩
  | cons entry entries ih =>
    by_cases htype : entry.type = memmapUsable
    · simp only [usable_cons, if_pos htype, List.length_cons] at hcount ⊢
      obtain ⟨written, hwrite, hread, hother⟩ :=
        buffer.exists_write (show index < 20 by omega) ⟨entry.base, entry.length⟩
      obtain ⟨buffer', hrun, hentries, hframe⟩ :=
        ih (index + 1) written (by omega)
      refine ⟨buffer', ?_, fun offset hoffset ↦ ?_, fun other hlt ↦ ?_⟩
      · rw [populate, if_pos htype, hwrite, ok_bind, hrun]
        congr 2
        omega
      · cases offset with
        | zero => exact (hframe index (Nat.lt_succ_self index)).trans hread
        | succ offset =>
          have hnext := hentries offset (by omega)
          rw [show index + (offset + 1) = index + 1 + offset by omega]
          simpa using hnext
      · rw [hframe other (by omega), hother other (by omega)]
    · simp only [usable_cons, if_neg htype] at hcount ⊢
      rw [populate, if_neg htype]
      exact ih index buffer hcount

/-! ## Headers that lie apart -/

/-- The header at one address does not reach into the header at the other. -/
def HeadersApart (first second : Word) : Prop :=
  16 ≤ (second - first).toNat ∧ 16 ≤ (first - second).toNat

/-- The memory once the header at `block` is written, its length first. -/
def headerMemory (block next length : Word) (memory : Memory) : Memory :=
  store64 (store64 memory (block + 8) length) block next

variable {memory : Memory} {block other next length : Word}

theorem HeadersApart.symm (h : HeadersApart block other) : HeadersApart other block := ⟨h.2, h.1⟩

theorem headersApart_of_dvd (hblock : 16 ∣ block.toNat) (hother : 16 ∣ other.toNat)
    (hne : block ≠ other) : HeadersApart block other := by
  have hval : block.toNat ≠ other.toNat := fun h ↦ hne (BitVec.eq_of_toNat_eq h)
  constructor <;> rw [BitVec.toNat_sub] <;> omega

theorem apart_add_eight : Apart block (block + 8) := by
  have hafter : block + 8 - block = 8 := by ring
  have hbefore : block - (block + 8) = -8 := by ring
  rw [Apart, hafter, hbefore]
  decide

theorem HeadersApart.words (h : HeadersApart block other) : Apart block other ∧
    Apart (block + 8) other ∧ Apart block (other + 8) ∧ Apart (block + 8) (other + 8) := by
  obtain ⟨hafter, hbefore⟩ := h
  have hblock := block.isLt
  have hother := other.isLt
  have height : (8 : Word).toNat = 8 := rfl
  simp only [BitVec.toNat_sub] at hafter hbefore
  refine ⟨⟨?_, ?_⟩, ⟨?_, ?_⟩, ⟨?_, ?_⟩, ⟨?_, ?_⟩⟩ <;>
    simp only [BitVec.toNat_sub, BitVec.toNat_add, height] <;> omega

theorem nextOf_headerMemory_same : nextOf (headerMemory block next length memory) block = next :=
  load64_store64_same _ _ _

theorem lengthOf_headerMemory_same :
    lengthOf (headerMemory block next length memory) block = length :=
  (load64_store64_apart _ _ apart_add_eight).trans (load64_store64_same _ _ _)

theorem nextOf_headerMemory_apart (h : HeadersApart block other) :
    nextOf (headerMemory block next length memory) other = nextOf memory other :=
  (load64_store64_apart _ _ h.words.1).trans (load64_store64_apart _ _ h.words.2.1)

theorem lengthOf_headerMemory_apart (h : HeadersApart block other) :
    lengthOf (headerMemory block next length memory) other = lengthOf memory other :=
  (load64_store64_apart _ _ h.words.2.2.1).trans (load64_store64_apart _ _ h.words.2.2.2)

/-! ## The second loop -/

/-- The block at `position` is that of the given entry. -/
def HoldsEntry (hhdm : Word) (memory : Memory) (position : Word) (entry : MemmapEntry) : Prop :=
  position = paddrToVaddr hhdm entry.base ∧ lengthOf memory position = entry.length

/-- The mapped address of the first of the given entries, null when there is none. -/
def firstAddress (hhdm : Word) : List MemmapEntry → Word
  | [] => 0
  | entry :: _ => paddrToVaddr hhdm entry.base

/-- One round writes the header of the entry, with a link to the next one if there is one. -/
theorem linkHeaders_round (hhdm : Word) {entry : MemmapEntry} {rest : List MemmapEntry}
    (hbuffer : ∀ (offset : ℕ) (hoffset : offset < (entry :: rest).length),
      buffer.read (i + offset) = .ok ⟨(entry :: rest)[offset].base, (entry :: rest)[offset].length⟩)
    (hindex : i + (entry :: rest).length = index) (hcount : index ≤ 19) (list : BlockList) :
    linkHeaders hhdm buffer index (entry :: rest).length i list =
      if paddrToVaddr hhdm entry.base = 0 then .error .nullDereference
      else linkHeaders hhdm buffer index rest.length (i + 1)
        ⟨headerMemory (paddrToVaddr hhdm entry.base) (firstAddress hhdm rest) entry.length
          list.memory, list.head⟩ := by
  rw [List.length_cons] at hindex
  obtain ⟨nextEntry, hnextEntry⟩ := buffer.exists_read (show i + 1 < 20 by omega)
  have hlink : (if i = index - 1 then 0 else paddrToVaddr hhdm nextEntry.base) =
      firstAddress hhdm rest := by
    match rest with
    | [] =>
      rw [List.length_nil] at hindex
      exact if_pos (by omega)
    | second :: _ =>
      have hsecond := hbuffer 1 (by simp)
      rw [hnextEntry] at hsecond
      obtain rfl := Except.ok.inj hsecond
      rw [List.length_cons] at hindex
      exact if_neg (by omega)
  have hread := hbuffer 0 (by simp)
  rw [Nat.add_zero, List.getElem_cons_zero] at hread
  rw [List.length_cons, linkHeaders, hread, ok_bind, hnextEntry, ok_bind, hlink]
  by_cases hnull : paddrToVaddr hhdm entry.base = 0
  · rw [if_pos hnull]
    simp only [BlockList.writeLength, if_pos hnull, error_bind]
  · rw [if_neg hnull]
    simp only [BlockList.writeLength, BlockList.writeNext, if_neg hnull, ok_bind]
    rfl

theorem forall_read_tail {entry : MemmapEntry} {rest : List MemmapEntry}
    (hbuffer : ∀ (offset : ℕ) (hoffset : offset < (entry :: rest).length),
      buffer.read (i + offset) =
        .ok ⟨(entry :: rest)[offset].base, (entry :: rest)[offset].length⟩) :
    ∀ (offset : ℕ) (hoffset : offset < rest.length),
      buffer.read (i + 1 + offset) = .ok ⟨rest[offset].base, rest[offset].length⟩ := by
  intro offset hoffset
  have hnext := hbuffer (offset + 1) (Nat.succ_lt_succ hoffset)
  rw [show i + 1 + offset = i + (offset + 1) by omega]
  simpa using hnext

/-- The headers are linked when they lie apart, and no other header changes. -/
theorem linkHeaders_spec (rest : List MemmapEntry) (list : BlockList)
    (hbuffer : ∀ (offset : ℕ) (hoffset : offset < rest.length),
      buffer.read (i + offset) = .ok ⟨rest[offset].base, rest[offset].length⟩)
    (hindex : i + rest.length = index) (hcount : index ≤ 19)
    (hnull : ∀ entry ∈ rest, paddrToVaddr hhdm entry.base ≠ 0)
    (hapart : rest.Pairwise fun first second ↦
      HeadersApart (paddrToVaddr hhdm first.base) (paddrToVaddr hhdm second.base)) :
    ∃ list', linkHeaders hhdm buffer index rest.length i list = .ok list' ∧
      Segment (nextOf list'.memory) (HoldsEntry hhdm list'.memory) (firstAddress hhdm rest) rest 0 ∧
      ∀ other, (∀ entry ∈ rest, HeadersApart (paddrToVaddr hhdm entry.base) other) →
        nextOf list'.memory other = nextOf list.memory other ∧
          lengthOf list'.memory other = lengthOf list.memory other := by
  induction rest generalizing i list with
  | nil => exact ⟨list, rfl, rfl, fun _ _ ↦ ⟨rfl, rfl⟩⟩
  | cons entry rest ih =>
    obtain ⟨hentry, hnull'⟩ := List.forall_mem_cons.mp hnull
    obtain ⟨hfar, hapart'⟩ := List.pairwise_cons.mp hapart
    have hround := linkHeaders_round hhdm hbuffer hindex hcount list
    rw [if_neg hentry] at hround
    rw [List.length_cons] at hindex
    obtain ⟨list', hrun, hsegment, hframe⟩ := ih
      ⟨headerMemory (paddrToVaddr hhdm entry.base) (firstAddress hhdm rest) entry.length list.memory,
        list.head⟩
      (forall_read_tail hbuffer) (show i + 1 + rest.length = index by omega) hnull' hapart'
    obtain ⟨hnext, hlength⟩ := hframe _ fun other hother ↦ (hfar other hother).symm
    rw [nextOf_headerMemory_same] at hnext
    rw [lengthOf_headerMemory_same] at hlength
    refine ⟨list', hround.trans hrun, ⟨⟨rfl, hlength⟩, ?_⟩, fun other hother ↦ ?_⟩
    · change Segment _ _ (nextOf list'.memory (paddrToVaddr hhdm entry.base)) rest 0
      rwa [hnext]
    · obtain ⟨hhere, hthere⟩ := List.forall_mem_cons.mp hother
      obtain ⟨hkeepNext, hkeepLength⟩ := hframe other hthere
      exact ⟨hkeepNext.trans (nextOf_headerMemory_apart hhere),
        hkeepLength.trans (lengthOf_headerMemory_apart hhere)⟩

/-- From one to nineteen usable entries are linked when their headers lie apart. -/
theorem exists_initialiseHeaders (hne : usable entries ≠ []) (hcount : (usable entries).length ≤ 19)
    (hnull : ∀ entry ∈ usable entries, paddrToVaddr hhdm entry.base ≠ 0)
    (hapart : (usable entries).Pairwise fun first second ↦
      HeadersApart (paddrToVaddr hhdm first.base) (paddrToVaddr hhdm second.base))
    (uninitialised : EntryBuffer) (list : BlockList) :
    ∃ list', initialiseHeaders hhdm entries uninitialised list = .ok list' ∧
      Segment (nextOf list'.memory) (HoldsEntry hhdm list'.memory) list'.head (usable entries) 0 := by
  obtain ⟨buffer, hpopulate, hbuffer, -⟩ := populate_spec entries 0 uninitialised (by omega)
  simp only [Nat.zero_add] at hpopulate hbuffer
  obtain ⟨list', hrun, hsegment, -⟩ := linkHeaders_spec (usable entries) list (i := 0)
    (by simpa only [Nat.zero_add] using hbuffer) (Nat.zero_add _) hcount hnull hapart
  have hfirst : ∃ first, buffer.read 0 = .ok first ∧
      paddrToVaddr hhdm first.base = firstAddress hhdm (usable entries) := by
    generalize usable entries = blocks at hne hbuffer
    match blocks with
    | entry :: _ => exact ⟨_, hbuffer 0 (by simp), rfl⟩
  obtain ⟨first, hread, haddress⟩ := hfirst
  refine ⟨list'.setHead (paddrToVaddr hhdm first.base), ?_, ?_⟩
  · simp only [initialiseHeaders, hpopulate, hrun, hread, ok_bind]
    rfl
  · rw [haddress]
    exact hsegment

/-- The list starts as the usable blocks in the order of the memory map. -/
theorem initialiseHeaders_spec {layout : Layout}
    (hblocks : layout.blocks = (usable entries).map (mappedExtent hhdm))
    (hne : usable entries ≠ []) (hcount : (usable entries).length ≤ 19)
    (uninitialised : EntryBuffer) (list : BlockList) :
    ∃ list', initialiseHeaders hhdm entries uninitialised list = .ok list' ∧
      WellFormed list' layout.blocks := by
  have hgranular : ∀ entry ∈ usable entries, Granular (mappedExtent hhdm entry) := by
    intro entry hentry
    apply layout.granular
    rw [hblocks]
    exact List.mem_map_of_mem hentry
  have hnull : ∀ entry ∈ usable entries, paddrToVaddr hhdm entry.base ≠ 0 := by
    intro entry hentry hzero
    exact (hgranular entry hentry).base_pos.ne (congrArg BitVec.toNat hzero).symm
  have hdisjoint := layout.disjoint
  rw [hblocks, List.pairwise_map] at hdisjoint
  have hapart : (usable entries).Pairwise fun first second ↦
      HeadersApart (paddrToVaddr hhdm first.base) (paddrToVaddr hhdm second.base) := by
    apply hdisjoint.imp_of_mem
    intro first second hfirst hsecond hfar
    have hne := ne_of_disjoint hfar (hgranular first hfirst) (hgranular second hsecond) rfl rfl
    exact headersApart_of_dvd (hgranular first hfirst).base_dvd (hgranular second hsecond).base_dvd hne
  obtain ⟨list', hrun, hsegment⟩ :=
    exists_initialiseHeaders hne hcount hnull hapart uninitialised list
  refine ⟨list', hrun, ?_, layout.disjoint, layout.granular⟩
  rw [hblocks]
  refine Segment.map_iff.mpr (hsegment.frame fun position entry _ hholds ↦ ⟨rfl, ?_⟩)
  exact ⟨congrArg BitVec.toNat hholds.1, congrArg BitVec.toNat hholds.2⟩

/-! ## One usable page -/

def higherHalf : Word := 0xffff800000000000

def onePageMap : MemoryMap where
  entries := [⟨0x1000, 0x1000, memmapUsable⟩]
  sorted := by decide
  aligned := by decide
  bounded := by decide

/-- The page at `0x1000`, with `getHead` a page into the kernel's code. -/
def onePage : Layout :=
  layoutOf onePageMap higherHalf 0xffffffff80001000 (by decide) (by decide) (by decide) (by decide)
    (by decide) (by decide)

def onePageList : BlockList where
  memory := store64 (fun _ ↦ 0) (higherHalf + 0x1008) 0x1000
  head := higherHalf + 0x1000

theorem wellFormed_onePageList : WellFormed onePageList onePage.blocks where
  chain := by
    refine ⟨⟨rfl, ?_⟩, ?_⟩
    · change (lengthOf onePageList.memory onePageList.head).toNat = 0x1000
      decide +kernel
    · change nextOf onePageList.memory onePageList.head = 0
      decide +kernel
  disjoint := onePage.disjoint
  granular := onePage.granular

end PenelopeOS.Memory
