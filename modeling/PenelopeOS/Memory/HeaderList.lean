import PenelopeOS.Memory.Headers

/-!
# Which memory maps `InitialiseHeaders` represents

The buffer has room for twenty usable entries, but the loop that links them also reads the entry
after the last one, and the head is taken from the first slot of the buffer whether or not it was
filled. So the list is the memory map when there are from one to nineteen usable entries, provided
that no two of them start at the same address and none is mapped to null.
-/

namespace PenelopeOS.Memory

open Machine Foundation Limine

/-- Whatever memory and the stack hold before, the list from the head is the usable entries of the
map in their order, and their lengths add up to the available memory. -/
def RepresentsMap (hhdm : Word) (map : MemoryMap) : Prop :=
  ∀ uninitialised list, ∃ list', initialiseHeaders hhdm map.entries uninitialised list = .ok list' ∧
    Segment (nextOf list'.memory) (HoldsEntry hhdm list'.memory) list'.head (usable map.entries) 0 ∧
    ((usable map.entries).map fun entry ↦
      (lengthOf list'.memory (paddrToVaddr hhdm entry.base)).toNat).sum =
        (calculateAvailableMemory map.entries).toNat

/-- There is a usable entry and there are not more than the buffer can be read for. Usable entries
start at addresses of their own, which are not mapped to null. -/
structure Linkable (hhdm : Word) (map : MemoryMap) : Prop where
  pos : 1 ≤ (usable map.entries).length
  length_le : (usable map.entries).length ≤ 19
  nodup : ((usable map.entries).map MemmapEntry.base).Nodup
  ne_null : ∀ entry ∈ usable map.entries, paddrToVaddr hhdm entry.base ≠ 0

/-! ## Available memory -/

variable {entries : List MemmapEntry} {hhdm : Word} {map : MemoryMap} {buffer : EntryBuffer}
  {index i : ℕ} {list list' : BlockList}

theorem sum_length_eq (map : MemoryMap) :
    ((usable map.entries).map fun entry ↦ entry.length.toNat).sum =
      (calculateAvailableMemory map.entries).toNat :=
  (toNat_sumUsable map fun _ _ ↦ le_rfl).symm

/-! ## Maps that are represented -/

/-- Pages that start at different addresses have their headers apart, wherever they are mapped. -/
theorem headersApart_paddrToVaddr {first second : Word} (hfirst : 0x1000 ∣ first.toNat)
    (hsecond : 0x1000 ∣ second.toNat) (hne : first ≠ second) :
    HeadersApart (paddrToVaddr hhdm first) (paddrToVaddr hhdm second) := by
  have hval : first.toNat ≠ second.toNat := fun h ↦ hne (BitVec.eq_of_toNat_eq h)
  have hafter : paddrToVaddr hhdm second - paddrToVaddr hhdm first = second - first :=
    add_sub_add_right_eq_sub _ _ _
  have hbefore : paddrToVaddr hhdm first - paddrToVaddr hhdm second = first - second :=
    add_sub_add_right_eq_sub _ _ _
  rw [HeadersApart, hafter, hbefore, BitVec.toNat_sub, BitVec.toNat_sub]
  omega

theorem Linkable.represents (h : Linkable hhdm map) : RepresentsMap hhdm map := by
  intro uninitialised list
  have hne : usable map.entries ≠ [] := List.length_pos_iff.mp h.pos
  have hapart : (usable map.entries).Pairwise fun first second ↦
      HeadersApart (paddrToVaddr hhdm first.base) (paddrToVaddr hhdm second.base) := by
    apply (List.pairwise_map.mp h.nodup).imp_of_mem
    intro first second hfirst hsecond hbase
    exact headersApart_paddrToVaddr (map.aligned first hfirst).1 (map.aligned second hsecond).1 hbase
  obtain ⟨list', hrun, hsegment⟩ :=
    exists_initialiseHeaders hne h.length_le h.ne_null hapart uninitialised list
  refine ⟨list', hrun, hsegment, ?_⟩
  rw [← sum_length_eq]
  congr 1
  apply List.map_congr_left
  intro entry hentry
  obtain ⟨before, after, hsplit⟩ := List.append_of_mem hentry
  rw [hsplit] at hsegment
  obtain ⟨middle, -, ⟨hmiddle, hlength⟩, -⟩ := Segment.append_iff.mp hsegment
  rw [← hmiddle, hlength]

/-! ## Maps that are not -/

theorem populate_of_usable_nil (hempty : usable entries = []) :
    populate entries index buffer = .ok (index, buffer) := by
  induction entries with
  | nil => rfl
  | cons entry entries ih =>
    rw [usable_cons] at hempty
    split_ifs at hempty with htype
    rw [populate, if_neg htype, ih hempty]

/-- The twenty-first usable entry has no place in the buffer. -/
theorem populate_error (hindex : index ≤ 20) (hcount : 20 < index + (usable entries).length) :
    populate entries index buffer = .error .outOfBounds := by
  induction entries generalizing index buffer with
  | nil => exact absurd hcount (not_lt.mpr hindex)
  | cons entry entries ih =>
    rw [usable_cons] at hcount
    by_cases htype : entry.type = memmapUsable
    · rw [if_pos htype, List.length_cons] at hcount
      rw [populate, if_pos htype]
      by_cases hroom : index < 20
      · rw [EntryBuffer.write, dif_pos hroom, ok_bind]
        exact ih hroom (by omega)
      · rw [EntryBuffer.write, dif_neg hroom, error_bind]
    · rw [if_neg htype] at hcount
      rw [populate, if_neg htype]
      exact ih hindex hcount

/-- A loop that would end at the twentieth entry reads the one after it. -/
theorem linkHeaders_ne_ok {remaining : ℕ} (hpos : 0 < remaining) (hlast : 20 ≤ i + remaining) :
    linkHeaders hhdm buffer index remaining i list ≠ .ok list' := by
  induction remaining generalizing i list with
  | zero => exact absurd hpos (lt_irrefl 0)
  | succ remaining ih =>
    intro hrun
    rw [linkHeaders] at hrun
    obtain ⟨entry, -, hrun⟩ := bind_eq_ok_iff.mp hrun
    obtain ⟨nextEntry, hnext, hrun⟩ := bind_eq_ok_iff.mp hrun
    obtain ⟨measured, -, hrun⟩ := bind_eq_ok_iff.mp hrun
    obtain ⟨linked, -, hrun⟩ := bind_eq_ok_iff.mp hrun
    have hroom : i + 1 < 20 := by
      by_contra hout
      rw [EntryBuffer.read, dif_neg hout] at hnext
      cases hnext
    exact ih (by omega) (by omega) hrun

/-- An entry that is mapped to null stops the loop. -/
theorem linkHeaders_null {rest : List MemmapEntry} (list : BlockList)
    (hbuffer : ∀ (offset : ℕ) (hoffset : offset < rest.length),
      buffer.read (i + offset) = .ok ⟨rest[offset].base, rest[offset].length⟩)
    (hindex : i + rest.length = index) (hcount : index ≤ 19)
    (hnull : ∃ entry ∈ rest, paddrToVaddr hhdm entry.base = 0) :
    linkHeaders hhdm buffer index rest.length i list = .error .nullDereference := by
  induction rest generalizing i list with
  | nil => simp at hnull
  | cons entry rest ih =>
    rw [linkHeaders_round hhdm hbuffer hindex hcount]
    rw [List.length_cons] at hindex
    split_ifs with hentry
    · rfl
    · obtain ⟨other, hother, hzero⟩ := hnull
      rcases List.mem_cons.mp hother with rfl | hother
      · exact absurd hzero hentry
      · exact ih _ (forall_read_tail hbuffer) (by omega) ⟨other, hother, hzero⟩

/-- A list that was built has its entries in the buffer and none of them at null. -/
theorem linkable_of_run (huninitialised : ∀ uninitialised list, ∃ list',
      initialiseHeaders hhdm map.entries uninitialised list = .ok list') :
    (usable map.entries).length ≤ 19 ∧
      ∀ entry ∈ usable map.entries, paddrToVaddr hhdm entry.base ≠ 0 := by
  obtain ⟨list', hrun⟩ := huninitialised (Vector.replicate 20 ⟨0, 0⟩) ⟨fun _ ↦ 0, 0⟩
  obtain ⟨⟨count, buffer⟩, hpopulate, hrun⟩ := bind_eq_ok_iff.mp hrun
  obtain ⟨linked, hlink, -⟩ := bind_eq_ok_iff.mp hrun
  have hroom : (usable map.entries).length ≤ 20 := by
    by_contra hmany
    rw [populate_error (Nat.zero_le 20) (by omega)] at hpopulate
    cases hpopulate
  obtain ⟨filled, hfilled, hbuffer, -⟩ := populate_spec map.entries 0 (Vector.replicate 20 ⟨0, 0⟩)
    ((Nat.zero_add _).trans_le hroom)
  obtain ⟨rfl, rfl⟩ := ok_pair_inj hfilled hpopulate
  have hcount : 0 + (usable map.entries).length ≤ 19 := by
    by_contra hfull
    exact linkHeaders_ne_ok (by omega) (by omega) hlink
  refine ⟨by omega, fun entry hentry hzero ↦ ?_⟩
  rw [Nat.zero_add] at hlink
  have herror := linkHeaders_null ⟨fun _ ↦ 0, 0⟩ hbuffer (Nat.zero_add _) (by omega)
    ⟨entry, hentry, hzero⟩
  rw [herror] at hlink
  cases hlink

theorem RepresentsMap.linkable (h : RepresentsMap hhdm map) : Linkable hhdm map := by
  obtain ⟨hcount, hnull⟩ := linkable_of_run fun uninitialised list ↦
    (h uninitialised list).imp fun _ ↦ And.left
  refine ⟨?_, hcount, ?_, hnull⟩
  · by_contra hpos
    have hempty : usable map.entries = [] := List.length_eq_zero_iff.mp (by omega)
    -- the stack holds an address that is mapped to one
    obtain ⟨list', hrun, hsegment, -⟩ := h (Vector.replicate 20 ⟨1 - hhdm, 0⟩) ⟨fun _ ↦ 0, 0⟩
    rw [initialiseHeaders, populate_of_usable_nil hempty] at hrun
    have hhead : list'.head = paddrToVaddr hhdm (1 - hhdm) :=
      congrArg BlockList.head (Except.ok.inj hrun).symm
    rw [hempty, Segment.nil_iff, hhead, paddrToVaddr, sub_add_cancel] at hsegment
    exact absurd hsegment (by decide)
  · obtain ⟨list', -, hsegment, -⟩ := h (Vector.replicate 20 ⟨0, 0⟩) ⟨fun _ ↦ 0, 0⟩
    have hpositions := hsegment.nodup_positions
      (fun entry hentry hholds ↦ hnull entry hentry hholds.1.symm) fun _ _ hholds ↦ hholds.1
    refine List.Nodup.of_map (paddrToVaddr hhdm) ?_
    rwa [List.map_map]

/-- A boot memory map is represented exactly when its usable entries can be linked. -/
theorem representsMap_iff (hhdm : Word) (map : MemoryMap) :
    RepresentsMap hhdm map ↔ Linkable hhdm map :=
  ⟨RepresentsMap.linkable, Linkable.represents⟩

/-- The usable pages at every second page, with the given number of them. -/
def alternatePages (count : ℕ) : List MemmapEntry :=
  (List.range count).map fun page ↦ ⟨BitVec.ofNat 64 (0x2000 * page + 0x1000), 0x1000, memmapUsable⟩

/-- Twenty usable pages, which fill the buffer. -/
def twentyPages : MemoryMap where
  entries := alternatePages 20
  sorted := by decide +kernel
  aligned := by decide +kernel
  bounded := by decide +kernel

/-- A map without usable memory. -/
def reservedPage : MemoryMap where
  entries := [⟨0x1000, 0x1000, 1⟩]
  sorted := by decide
  aligned := by decide
  bounded := by decide

/-- Twenty usable pages are read past the buffer, and no usable page leaves the head to the stack. -/
theorem not_representsMap_twentyPages :
    faultOf (initialiseHeaders higherHalf twentyPages.entries (Vector.replicate 20 ⟨0, 0⟩)
        ⟨fun _ ↦ 0, 0⟩) = some .outOfBounds ∧
      ¬ RepresentsMap higherHalf twentyPages ∧ ¬ RepresentsMap higherHalf reservedPage := by
  refine ⟨by decide +kernel, fun h ↦ ?_, fun h ↦ ?_⟩
  · exact absurd h.linkable.length_le (by decide +kernel)
  · exact absurd h.linkable.pos (by decide)

end PenelopeOS.Memory
