import Mathlib.Data.List.Basic
import PenelopeOS.Memory.Pages

/-!
# What `InitialisePageFrames` leaves in the table

The table lists the pages of the usable entries one after the other, as far as it reaches. The start
of memory is assigned after an entry that left room in the table, if that entry is the one whose
index is remembered.
-/

namespace PenelopeOS.Memory

open Machine Limine

/-- The bases of the pages of an entry. -/
def framesOf (entry : MemmapEntry) : List ℕ :=
  (List.range (pagesOf entry)).map fun page ↦ entry.base.toNat + 0x1000 * page

/-- The usable entries with their indices in the memory map, which start at `i`. -/
def usableFrom : ℕ → List MemmapEntry → List (ℕ × MemmapEntry)
  | _, [] => []
  | i, entry :: entries =>
    if entry.type = memmapUsable then (i, entry) :: usableFrom (i + 1) entries
    else usableFrom (i + 1) entries

/-- The start of memory once the first of the given entries has been seen, with no index remembered,
`start` before it and `filled` frames in the table. -/
def startAfter (size filled : ℕ) (start : Word) : List (ℕ × MemmapEntry) → Word
  | [] => start
  | (i, entry) :: _ => if i < 256 ∧ filled + pagesOf entry < size then entry.base else start

/-- The start of memory in the end. The index zero of a first entry reads as none, and the second
entry takes its place. -/
def ramStart (size : ℕ) : List (ℕ × MemmapEntry) → Word
  | (0, first) :: rest =>
    if size ≤ pagesOf first then 0 else startAfter size (pagesOf first) first.base rest
  | entries => startAfter size 0 0 entries

variable {size : ℕ} {frames : PageFrames size} {entry : MemmapEntry} {entries : List MemmapEntry}
  {i frameIndex fuel : ℕ} {paddr stop : Word} {initialBlockIndex : BitVec 8}

/-- The descriptor of a frame in the table. -/
def PageFrames.frameAt (frames : PageFrames size) (frameNumber : ℕ) : Option Page :=
  frames.frameMap[frameNumber]?

/-- The base of a frame in the table. -/
def PageFrames.baseAt (frames : PageFrames size) (frameNumber : ℕ) : Option ℕ :=
  frames.frameMap[frameNumber]?.map fun frame ↦ frame.base.toNat

/-- The descriptor of the free page at an address. -/
def freePage (paddr : ℕ) : Page := ⟨BitVec.ofNat 64 paddr, 0, -1⟩

theorem freePage_toNat (paddr : Word) : freePage paddr.toNat = ⟨paddr, 0, -1⟩ := by
  rw [freePage, BitVec.ofNat_toNat, BitVec.setWidth_eq]

theorem length_framesOf (entry : MemmapEntry) : (framesOf entry).length = pagesOf entry := by
  rw [framesOf, List.length_map, List.length_range]

theorem getElem?_framesOf {page : ℕ} (h : page < pagesOf entry) :
    (framesOf entry)[page]? = some (entry.base.toNat + 0x1000 * page) := by
  rw [framesOf, List.getElem?_map, List.getElem?_range h]
  rfl

/-! ## The inner loop -/

theorem PageFrames.exists_write (frames : PageFrames size) (h : frameIndex < size) (frame : Page) :
    ∃ frames', frames.write frameIndex frame = .ok frames' ∧
      frames'.startOfRam = frames.startOfRam ∧ frames'.frameAt frameIndex = some frame ∧
      ∀ other ≠ frameIndex, frames'.frameAt other = frames.frameAt other := by
  refine ⟨{ frames with frameMap := frames.frameMap.set frameIndex frame }, dif_pos h, rfl, ?_,
    fun other hother ↦ ?_⟩
  · simp [frameAt]
  · simp [frameAt, Vector.getElem?_set_ne h hother.symm]

theorem toNat_add_page (hstop : paddr.toNat + 0x1000 ≤ stop.toNat) :
    (paddr + 0x1000).toNat = paddr.toNat + 0x1000 := by
  have hbound := stop.isLt
  rw [BitVec.toNat_add]
  change (paddr.toNat + 0x1000) % 2 ^ 64 = _
  omega

/-- The loop fills a frame for each page up to `stop`, or until the table is full. -/
theorem archivePages_spec (pages : ℕ) (frames : PageFrames size)
    (hstop : paddr.toNat + 0x1000 * pages = stop.toNat) (hindex : frameIndex < size)
    (hfuel : size - frameIndex < fuel) :
    ∃ frames', PageFrames.archivePages stop fuel paddr frameIndex frames =
        .ok (decide (size ≤ frameIndex + pages), min size (frameIndex + pages), frames') ∧
      frames'.startOfRam = frames.startOfRam ∧
      (∀ other < frameIndex, frames'.frameAt other = frames.frameAt other) ∧
      ∀ page < pages, frameIndex + page < size →
        frames'.frameAt (frameIndex + page) = some (freePage (paddr.toNat + 0x1000 * page)) := by
  induction pages generalizing fuel paddr frameIndex frames with
  | zero =>
    obtain ⟨fuel, rfl⟩ : ∃ rounds, fuel = rounds + 1 := ⟨fuel - 1, by omega⟩
    have hend : ¬ paddr < stop := by
      rw [BitVec.lt_def]
      omega
    refine ⟨frames, ?_, rfl, fun _ _ ↦ rfl, fun page hpage ↦ absurd hpage (Nat.not_lt_zero page)⟩
    have hroom : ¬ size ≤ frameIndex := by omega
    rw [PageFrames.archivePages, if_neg hend, Nat.add_zero, decide_eq_false hroom,
      Nat.min_eq_right hindex.le]
    rfl
  | succ pages ih =>
    obtain ⟨fuel, rfl⟩ : ∃ rounds, fuel = rounds + 1 := ⟨fuel - 1, by omega⟩
    have hlt : paddr < stop := by
      rw [BitVec.lt_def]
      omega
    obtain ⟨written, hwrite, hstart, hframe, hother⟩ :=
      frames.exists_write hindex ⟨paddr, 0, -1⟩
    rw [PageFrames.archivePages, if_pos hlt, hwrite, ok_bind]
    by_cases hfull : frameIndex + 1 = size
    · refine ⟨written, ?_, hstart, fun other hlt ↦ hother other (by omega), fun page _ hroom ↦ ?_⟩
      · have hle : size ≤ frameIndex + (pages + 1) := by omega
        rw [if_pos hfull, decide_eq_true hle, Nat.min_eq_left hle, hfull]
        rfl
      · obtain rfl : page = 0 := by omega
        rw [Nat.add_zero, hframe, Nat.mul_zero, Nat.add_zero, freePage_toNat]
    · have hsum := toNat_add_page (show paddr.toNat + 0x1000 ≤ stop.toNat by omega)
      have hstop' : (paddr + 0x1000).toNat + 0x1000 * pages = stop.toNat := by
        rw [hsum]
        omega
      have hroom : frameIndex + 1 < size := by omega
      have hfuel' : size - (frameIndex + 1) < fuel := by omega
      obtain ⟨frames', hrun, hstart', hbefore, hpages⟩ := ih written hstop' hroom hfuel'
      rw [show frameIndex + (pages + 1) = frameIndex + 1 + pages by omega]
      refine ⟨frames', ?_, hstart'.trans hstart, fun other hlt ↦ ?_, fun page hpage hroom ↦ ?_⟩
      · rw [← hrun]
        exact if_neg hfull
      · rw [hbefore other (by omega), hother other (by omega)]
      · cases page with
        | zero =>
          rw [Nat.add_zero, hbefore frameIndex (by omega), hframe, Nat.mul_zero, Nat.add_zero,
            freePage_toNat]
        | succ page =>
          have hbase : (paddr + 0x1000).toNat + 0x1000 * page = paddr.toNat + 0x1000 * (page + 1) := by
            rw [hsum, Nat.mul_succ]
            omega
          rw [show frameIndex + (page + 1) = frameIndex + 1 + page by omega,
            hpages page (by omega) (by omega), hbase]

/-! ## The loop over the entries -/

/-- An entry of whole pages that ends below 2^64. -/
structure Paged (entry : MemmapEntry) : Prop where
  dvd_length : 0x1000 ∣ entry.length.toNat
  stop_lt : entry.stop < 2 ^ 64

theorem Paged.stop_eq (hpaged : Paged entry) :
    entry.stop = entry.base.toNat + 0x1000 * pagesOf entry := by
  rw [MemmapEntry.stop, pagesOf, Nat.mul_div_cancel' hpaged.dvd_length]

theorem Paged.toNat_stop (hpaged : Paged entry) :
    (entry.base + entry.length).toNat = entry.base.toNat + 0x1000 * pagesOf entry := by
  rw [← hpaged.stop_eq, BitVec.toNat_add]
  exact Nat.mod_eq_of_lt hpaged.stop_lt

/-- The assignment of the start of memory after a usable entry. -/
def markStart (i : ℕ) (initialBlockIndex : BitVec 8) (base : Word) (frames : PageFrames size) :
    PageFrames size :=
  if i = initialBlockIndex.toNat then { frames with startOfRam := base } else frames

@[simp]
theorem frameAt_markStart (frameNumber : ℕ) (base : Word) (frames : PageFrames size) :
    (markStart i initialBlockIndex base frames).frameAt frameNumber = frames.frameAt frameNumber := by
  unfold markStart
  split <;> rfl

/-- One round for a usable entry, which fills the table or assigns the start of memory. -/
theorem archiveEntries_usable (hpaged : Paged entry) (husable : entry.type = memmapUsable)
    (hindex : frameIndex < size) (entries : List MemmapEntry) (i : ℕ) (initialBlockIndex : BitVec 8)
    (frames : PageFrames size) :
    ∃ filled, filled.startOfRam = frames.startOfRam ∧
      (∀ other < frameIndex, filled.frameAt other = frames.frameAt other) ∧
      (∀ page < pagesOf entry, frameIndex + page < size →
        filled.frameAt (frameIndex + page) = (framesOf entry)[page]?.map freePage) ∧
      PageFrames.archiveEntries (entry :: entries) i initialBlockIndex frameIndex frames =
        let block := if initialBlockIndex = 0 then BitVec.ofNat 8 i else initialBlockIndex
        if size ≤ frameIndex + pagesOf entry then .ok filled
        else PageFrames.archiveEntries entries (i + 1) block (frameIndex + pagesOf entry)
          (markStart i block entry.base filled) := by
  have hfuel : size - frameIndex < size + 1 := by omega
  obtain ⟨filled, hrun, hstart, hbefore, hpages⟩ :=
    archivePages_spec (pagesOf entry) frames hpaged.toNat_stop.symm hindex hfuel
  refine ⟨filled, hstart, hbefore, fun page hpage hroom ↦ ?_, ?_⟩
  · rw [hpages page hpage hroom, getElem?_framesOf hpage]
    rfl
  · rw [PageFrames.archiveEntries, if_pos husable, hrun, ok_bind]
    by_cases hfull : size ≤ frameIndex + pagesOf entry
    · rw [decide_eq_true hfull]
      exact (if_pos hfull).symm
    · rw [decide_eq_false hfull, Nat.min_eq_right (by omega)]
      exact (if_neg hfull).symm

theorem archiveEntries_unusable (husable : entry.type ≠ memmapUsable) :
    PageFrames.archiveEntries (entry :: entries) i initialBlockIndex frameIndex frames =
      PageFrames.archiveEntries entries (i + 1) initialBlockIndex frameIndex frames :=
  if_neg husable

/-- The pages of the usable entries follow the frames that are filled already. -/
theorem archiveEntries_frames (hpaged : ∀ entry ∈ usable entries, Paged entry)
    (hindex : frameIndex < size) (frames : PageFrames size) :
    ∃ frames', PageFrames.archiveEntries entries i initialBlockIndex frameIndex frames =
        .ok frames' ∧
      (∀ other < frameIndex, frames'.frameAt other = frames.frameAt other) ∧
      ∀ page < ((usable entries).flatMap framesOf).length, frameIndex + page < size →
        frames'.frameAt (frameIndex + page) =
          ((usable entries).flatMap framesOf)[page]?.map freePage := by
  induction entries generalizing i initialBlockIndex frameIndex frames with
  | nil => exact ⟨frames, rfl, fun _ _ ↦ rfl, fun page hpage _ ↦ absurd hpage (Nat.not_lt_zero page)⟩
  | cons entry entries ih =>
    by_cases husable : entry.type = memmapUsable
    · rw [usable_cons, if_pos husable] at hpaged ⊢
      obtain ⟨hhead, htail⟩ := List.forall_mem_cons.mp hpaged
      obtain ⟨filled, -, hbefore, hpages, hround⟩ :=
        archiveEntries_usable hhead husable hindex entries i initialBlockIndex frames
      rw [hround, List.flatMap_cons]
      by_cases hfull : size ≤ frameIndex + pagesOf entry
      · rw [if_pos hfull]
        refine ⟨filled, rfl, hbefore, fun page _ hroom ↦ ?_⟩
        have hpage : page < pagesOf entry := by omega
        rw [hpages page hpage hroom, List.getElem?_append_left (by rwa [length_framesOf])]
      · rw [if_neg hfull]
        generalize (if initialBlockIndex = 0 then BitVec.ofNat 8 i else initialBlockIndex) = block
        have hroom : frameIndex + pagesOf entry < size := by omega
        obtain ⟨frames', hrun, hkept, hrest⟩ := ih (i := i + 1) htail
          hroom (markStart i block entry.base filled)
        refine ⟨frames', hrun, fun other hlt ↦ ?_, fun page hpage hsize ↦ ?_⟩
        · rw [hkept other (by omega), frameAt_markStart, hbefore other hlt]
        · by_cases hhere : page < pagesOf entry
          · rw [List.getElem?_append_left (by rwa [length_framesOf]), hkept _ (by omega),
              frameAt_markStart, hpages page hhere hsize]
          · rw [List.length_append, length_framesOf] at hpage
            have hlater : frameIndex + page = frameIndex + pagesOf entry + (page - pagesOf entry) := by
              omega
            rw [List.getElem?_append_right (by rw [length_framesOf]; omega), length_framesOf, hlater]
            exact hrest (page - pagesOf entry) (by omega) (by omega)
    · rw [usable_cons, if_neg husable] at hpaged ⊢
      rw [archiveEntries_unusable husable]
      exact ih hpaged hindex frames

/-! ## The start of memory -/

/-- No index from `i` on can be the remembered one, which has been passed or has too few bits. -/
def Past (i : ℕ) (initialBlockIndex : BitVec 8) : Prop :=
  256 ≤ i ∨ initialBlockIndex ≠ 0 ∧ initialBlockIndex.toNat < i

theorem Past.succ (hpast : Past i initialBlockIndex) : Past (i + 1) initialBlockIndex :=
  hpast.imp (by omega) fun ⟨hne, hlt⟩ ↦ ⟨hne, by omega⟩

theorem past_ofNat (hpos : 0 < i) : Past (i + 1) (BitVec.ofNat 8 i) := by
  by_cases hbits : 255 ≤ i
  · exact .inl (by omega)
  · have hval : (BitVec.ofNat 8 i).toNat = i := by
      rw [BitVec.toNat_ofNat]
      omega
    refine .inr ⟨fun hzero ↦ ?_, by omega⟩
    rw [hzero] at hval
    exact hpos.ne hval

theorem Past.ne_toNat (hpast : Past i initialBlockIndex) : i ≠ initialBlockIndex.toNat := by
  have hbits := initialBlockIndex.isLt
  rcases hpast with hlarge | ⟨_, hlt⟩ <;> omega

/-- A round of the loop keeps it so. -/
theorem Past.round (hpast : Past i initialBlockIndex) :
    let block := if initialBlockIndex = 0 then BitVec.ofNat 8 i else initialBlockIndex
    i ≠ block.toNat ∧ Past (i + 1) block := by
  by_cases hzero : initialBlockIndex = 0
  · have hlarge : 256 ≤ i := hpast.resolve_right fun ⟨hne, _⟩ ↦ hne hzero
    have hbits := (BitVec.ofNat 8 i).isLt
    simp only [if_pos hzero]
    exact ⟨by omega, .inl (by omega)⟩
  · simp only [if_neg hzero]
    exact ⟨hpast.ne_toNat, hpast.succ⟩

/-- The start of memory is then kept. -/
theorem archiveEntries_past (hpaged : ∀ entry ∈ usable entries, Paged entry)
    (hindex : frameIndex < size)
    (hpast : Past i initialBlockIndex) {frames frames' : PageFrames size}
    (hrun : PageFrames.archiveEntries entries i initialBlockIndex frameIndex frames = .ok frames') :
    frames'.startOfRam = frames.startOfRam := by
  induction entries generalizing i initialBlockIndex frameIndex frames with
  | nil => exact congrArg PageFrames.startOfRam (Except.ok.inj hrun).symm
  | cons entry entries ih =>
    by_cases husable : entry.type = memmapUsable
    · rw [usable_cons, if_pos husable] at hpaged
      obtain ⟨hhead, htail⟩ := List.forall_mem_cons.mp hpaged
      obtain ⟨filled, hstart, -, -, hround⟩ :=
        archiveEntries_usable hhead husable hindex entries i initialBlockIndex frames
      obtain ⟨hother, hstill⟩ := hpast.round
      rw [hround] at hrun
      by_cases hfull : size ≤ frameIndex + pagesOf entry
      · rw [if_pos hfull] at hrun
        rw [← Except.ok.inj hrun, hstart]
      · rw [if_neg hfull, markStart, if_neg hother] at hrun
        rw [ih htail (by omega) hstill hrun, hstart]
    · rw [usable_cons, if_neg husable] at hpaged
      rw [archiveEntries_unusable husable] at hrun
      exact ih hpaged hindex hpast.succ hrun

/-- With no index remembered yet, the next usable entry is the one whose index is. -/
theorem archiveEntries_start (hpaged : ∀ entry ∈ usable entries, Paged entry)
    (hindex : frameIndex < size) (hpos : 0 < i) {frames frames' : PageFrames size}
    (hrun : PageFrames.archiveEntries entries i 0 frameIndex frames = .ok frames') :
    frames'.startOfRam = startAfter size frameIndex frames.startOfRam (usableFrom i entries) := by
  induction entries generalizing i frameIndex frames with
  | nil => exact congrArg PageFrames.startOfRam (Except.ok.inj hrun).symm
  | cons entry entries ih =>
    by_cases husable : entry.type = memmapUsable
    · rw [usable_cons, if_pos husable] at hpaged
      obtain ⟨hhead, htail⟩ := List.forall_mem_cons.mp hpaged
      obtain ⟨filled, hstart, -, -, hround⟩ :=
        archiveEntries_usable hhead husable hindex entries i 0 frames
      simp only [if_true] at hround
      rw [hround] at hrun
      rw [usableFrom, if_pos husable, startAfter]
      by_cases hfull : size ≤ frameIndex + pagesOf entry
      · rw [if_pos hfull] at hrun
        rw [← Except.ok.inj hrun, hstart, if_neg (by omega)]
      · rw [if_neg hfull] at hrun
        have hroom : frameIndex + pagesOf entry < size := by omega
        rw [archiveEntries_past htail hroom (past_ofNat hpos) hrun, markStart]
        by_cases hbits : i < 256
        · have hsame : i = (BitVec.ofNat 8 i).toNat := (Nat.mod_eq_of_lt hbits).symm
          rw [if_pos hsame, if_pos ⟨hbits, hroom⟩]
        · have hother : i ≠ (BitVec.ofNat 8 i).toNat := (BitVec.isLt _).trans_le (by omega) |>.ne'
          rw [if_neg hother, if_neg fun h ↦ hbits h.1, hstart]
    · rw [usable_cons, if_neg husable] at hpaged
      rw [archiveEntries_unusable husable] at hrun
      rw [usableFrom, if_neg husable]
      exact ih hpaged hindex (by omega) hrun

theorem ramStart_usableFrom (hpos : 0 < i) (entries : List MemmapEntry) :
    ramStart size (usableFrom i entries) = startAfter size 0 0 (usableFrom i entries) := by
  induction entries generalizing i with
  | nil => rfl
  | cons entry entries ih =>
    rw [usableFrom]
    split
    · obtain ⟨i, rfl⟩ := Nat.exists_eq_succ_of_ne_zero hpos.ne'
      rfl
    · exact ih (by omega)

theorem initialise_start (hpaged : ∀ entry ∈ usable entries, Paged entry) (hsize : 0 < size)
    (hrun : PageFrames.initialise entries (.zero size) = .ok frames) :
    frames.startOfRam = ramStart size (usableFrom 0 entries) := by
  rw [PageFrames.initialise] at hrun
  cases entries with
  | nil => exact congrArg PageFrames.startOfRam (Except.ok.inj hrun).symm
  | cons entry entries =>
    by_cases husable : entry.type = memmapUsable
    · rw [usable_cons, if_pos husable] at hpaged
      obtain ⟨hhead, htail⟩ := List.forall_mem_cons.mp hpaged
      obtain ⟨filled, hstart, -, -, hround⟩ :=
        archiveEntries_usable hhead husable hsize entries 0 0 (.zero size)
      simp only [if_true, Nat.zero_add] at hround
      rw [hround] at hrun
      rw [usableFrom, if_pos husable, ramStart]
      by_cases hfull : size ≤ pagesOf entry
      · rw [if_pos hfull] at hrun ⊢
        rw [← Except.ok.inj hrun, hstart]
        rfl
      · rw [if_neg hfull] at hrun ⊢
        exact archiveEntries_start htail (by omega) Nat.one_pos hrun
    · rw [usable_cons, if_neg husable] at hpaged
      rw [archiveEntries_unusable husable] at hrun
      rw [usableFrom, if_neg husable, ramStart_usableFrom Nat.one_pos]
      exact archiveEntries_start hpaged hsize Nat.one_pos hrun

theorem bounds_of_mem_framesOf (hpaged : Paged entry) {paddr : ℕ} (hmem : paddr ∈ framesOf entry) :
    entry.base.toNat ≤ paddr ∧ paddr + 0x1000 ≤ entry.stop := by
  obtain ⟨page, hpage, rfl⟩ := List.mem_map.mp hmem
  rw [List.mem_range] at hpage
  rw [hpaged.stop_eq]
  omega

theorem baseAt_eq (frames : PageFrames size) (frameNumber : ℕ) :
    frames.baseAt frameNumber = (frames.frameAt frameNumber).map fun frame ↦ frame.base.toNat := rfl

/-- The bases that are recorded are those of the pages. -/
theorem map_base_freePage (hpaged : ∀ entry ∈ entries, Paged entry) (page : ℕ) :
    ((entries.flatMap framesOf)[page]?.map freePage).map (fun frame ↦ frame.base.toNat) =
      (entries.flatMap framesOf)[page]? := by
  cases hpage : (entries.flatMap framesOf)[page]? with
  | none => rfl
  | some paddr =>
    obtain ⟨entry, hentry, hmem⟩ := List.mem_flatMap.mp (List.mem_of_getElem? hpage)
    have hstop := (bounds_of_mem_framesOf (hpaged entry hentry) hmem).2
    have hbound := (hpaged entry hentry).stop_lt
    rw [Option.map_some, Option.map_some, freePage, BitVec.toNat_ofNat, Nat.mod_eq_of_lt (by omega)]

/-- `InitialisePageFrames` lists the pages of the usable entries, as far as the table reaches. -/
theorem initialise_frames (hpaged : ∀ entry ∈ usable entries, Paged entry) (hsize : 0 < size)
    (before : PageFrames size) :
    ∃ frames, PageFrames.initialise entries before = .ok frames ∧
      ∀ frameNumber < ((usable entries).flatMap framesOf).length, frameNumber < size →
        frames.frameAt frameNumber =
          ((usable entries).flatMap framesOf)[frameNumber]?.map freePage := by
  obtain ⟨frames, hrun, -, hframes⟩ := archiveEntries_frames hpaged hsize before
  refine ⟨frames, hrun, fun frameNumber hlisted hlt ↦ ?_⟩
  rw [← hframes frameNumber hlisted (by rwa [Nat.zero_add]), Nat.zero_add]

/-- The same from a table that was not used, with the bases alone and the start of memory. -/
theorem initialise_spec (hpaged : ∀ entry ∈ usable entries, Paged entry) (hsize : 0 < size) :
    ∃ frames, PageFrames.initialise entries (.zero size) = .ok frames ∧
      frames.startOfRam = ramStart size (usableFrom 0 entries) ∧
      ∀ frameNumber < ((usable entries).flatMap framesOf).length, frameNumber < size →
        frames.baseAt frameNumber = ((usable entries).flatMap framesOf)[frameNumber]? := by
  obtain ⟨frames, hrun, hframes⟩ := initialise_frames hpaged hsize (.zero size)
  refine ⟨frames, hrun, initialise_start hpaged hsize hrun, fun frameNumber hlisted hlt ↦ ?_⟩
  rw [baseAt_eq, hframes frameNumber hlisted hlt, map_base_freePage hpaged]

end PenelopeOS.Memory
