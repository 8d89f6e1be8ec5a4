import Mathlib.Algebra.BigOperators.Group.List.Basic
import PenelopeOS.Memory.FrameTable

/-!
# Whether frame numbers and addresses are inverse

The table skips the holes between the usable entries, while `PhysicalToPageN` counts from the start of
memory as if there were none. The two agree exactly when the entries that hold the tracked frames
leave no hole and the start of memory is where the first of them starts.
-/

namespace PenelopeOS.Memory

open Machine Limine

/-- Frame numbers and physical addresses determine each other. -/
structure PageFrames.MutuallyInverse {size : ℕ} (frames : PageFrames size) : Prop where
  number : ∀ frameNumber < size, ∃ base, frames.pageAddress frameNumber = .ok base ∧
    (frames.physicalToPageN base).toNat = frameNumber
  address : ∀ frameNumber < size, ∀ base, frames.pageAddress frameNumber = .ok base →
    ∀ paddr : Word, base.toNat ≤ paddr.toNat → paddr.toNat < base.toNat + 0x1000 →
      frames.pageAddress (frames.physicalToPageN paddr).toNat = .ok (paddr / 0x1000 * 0x1000)

/-- The usable entries that are not empty. -/
def regions (entries : List MemmapEntry) : List MemmapEntry :=
  (usable entries).filter fun entry ↦ 0 < pagesOf entry

/-- No hole lies between the entries that hold the given number of first frames. -/
def Gapless : ℕ → List MemmapEntry → Prop
  | frames, first :: second :: rest =>
    frames ≤ pagesOf first ∨
      first.stop = second.base.toNat ∧ Gapless (frames - pagesOf first) (second :: rest)
  | _, _ => True

/-- The entry from which the start of memory is taken starts at `base`. That is the first usable
entry, and the second when the first has index zero, as long as it leaves room in the table and its
index fits in eight bits. Without such an entry the start of memory stays zero. -/
def StartsAt (size : ℕ) (base : Word) : List (ℕ × MemmapEntry) → Prop
  | (0, first) :: (j, second) :: _ =>
    if j < 256 ∧ pagesOf first + pagesOf second < size then second.base = base
    else if pagesOf first < size then first.base = base
    else base = 0
  | (i, first) :: _ => if i < 256 ∧ pagesOf first < size then first.base = base else base = 0
  | [] => base = 0

/-- Frames are counted from the first page of usable memory. -/
def CountsFromFirst (size : ℕ) (entries : List MemmapEntry) : Prop :=
  ∃ first ∈ (regions entries).head?, StartsAt size first.base (usableFrom 0 entries)

variable {size : ℕ} {frames : PageFrames size} {entries : List MemmapEntry}

/-! ## Contiguous frames -/

theorem pageAddress_eq_ok_iff {frameNumber : ℕ} {base : Word} :
    frames.pageAddress frameNumber = .ok base ↔ frames.baseAt frameNumber = some base.toNat := by
  unfold PageFrames.pageAddress PageFrames.baseAt
  by_cases h : frameNumber < size
  · rw [dif_pos h, Vector.getElem?_eq_getElem h]
    simp [BitVec.toNat_inj]
  · simp [h]

theorem toNat_physicalToPageN (frames : PageFrames size) (paddr : Word) :
    (frames.physicalToPageN paddr).toNat = (paddr - frames.startOfRam).toNat / 0x1000 :=
  BitVec.toNat_udiv

theorem toNat_div_mul (paddr : Word) :
    (paddr / 0x1000 * 0x1000).toNat = paddr.toNat / 0x1000 * 0x1000 := by
  have hbound := paddr.isLt
  rw [BitVec.toNat_mul, BitVec.toNat_udiv]
  change paddr.toNat / 0x1000 * 0x1000 % 2 ^ 64 = _
  omega

theorem lt_of_baseAt {frameNumber base : ℕ} (hbase : frames.baseAt frameNumber = some base) :
    frameNumber < size := by
  by_contra hge
  have hnone : frames.frameMap[frameNumber]? = none := Vector.getElem?_eq_none (not_lt.mp hge)
  rw [PageFrames.baseAt, hnone] at hbase
  contradiction

/-- The closed form inverts the table exactly when the table is the line that it describes. -/
theorem mutuallyInverse_iff (hstart : 0x1000 ∣ frames.startOfRam.toNat)
    (hdvd : ∀ frameNumber base, frames.baseAt frameNumber = some base → 0x1000 ∣ base)
    (hfirst : ∀ frameNumber first base, frames.baseAt 0 = some first →
      frames.baseAt frameNumber = some base → first ≤ base) :
    frames.MutuallyInverse ↔ ∀ frameNumber < size,
      frames.baseAt frameNumber = some (frames.startOfRam.toNat + 0x1000 * frameNumber) := by
  have hstartlt := frames.startOfRam.isLt
  constructor
  · intro hinverse frameNumber hlt
    obtain ⟨first, hfirstAt, hzero⟩ := hinverse.number 0 (by omega)
    obtain ⟨base, hbaseAt, hnumber⟩ := hinverse.number frameNumber hlt
    rw [pageAddress_eq_ok_iff] at hfirstAt hbaseAt
    rw [toNat_physicalToPageN, BitVec.toNat_sub] at hzero hnumber
    have hfirstdvd := hdvd 0 first.toNat hfirstAt
    have hbasedvd := hdvd frameNumber base.toNat hbaseAt
    have hle := hfirst frameNumber first.toNat base.toNat hfirstAt hbaseAt
    have hfirstlt := first.isLt
    have hbaselt := base.isLt
    have hfirsteq : first.toNat = frames.startOfRam.toNat := by omega
    have hbaseeq : base.toNat = frames.startOfRam.toNat + 0x1000 * frameNumber := by omega
    rw [hbaseAt, hbaseeq]
  · intro hline
    have hbaseAt (frameNumber : ℕ) (base : Word) (hlt : frameNumber < size)
        (hbase : frames.pageAddress frameNumber = .ok base) :
        base.toNat = frames.startOfRam.toNat + 0x1000 * frameNumber := by
      rw [pageAddress_eq_ok_iff, hline frameNumber hlt] at hbase
      exact (Option.some.inj hbase).symm
    constructor
    · intro frameNumber hlt
      refine ⟨frames.frameMap[frameNumber].base, dif_pos hlt, ?_⟩
      have hbase := hbaseAt frameNumber _ hlt (dif_pos hlt)
      have hbaselt := frames.frameMap[frameNumber].base.isLt
      rw [toNat_physicalToPageN, BitVec.toNat_sub]
      omega
    · intro frameNumber hlt base hbase paddr hle hpage
      have hbaseeq := hbaseAt frameNumber base hlt hbase
      have hpaddrlt := paddr.isLt
      have hnumber : (frames.physicalToPageN paddr).toNat = frameNumber := by
        rw [toNat_physicalToPageN, BitVec.toNat_sub]
        omega
      have hround : paddr / 0x1000 * 0x1000 = base := by
        apply BitVec.eq_of_toNat_eq
        rw [toNat_div_mul]
        omega
      rw [hnumber, hround, hbase]

/-! ## The table of a memory map -/

theorem map_snd_usableFrom (i : ℕ) (entries : List MemmapEntry) :
    (usableFrom i entries).map Prod.snd = usable entries := by
  induction entries generalizing i with
  | nil => rfl
  | cons entry entries ih =>
    rw [usableFrom, usable_cons]
    split
    · rw [List.map_cons, ih]
    · exact ih (i + 1)

theorem eq_ramStart_iff (base : Word) (entries : List (ℕ × MemmapEntry)) :
    base = ramStart size entries ↔ StartsAt size base entries := by
  match entries with
  | [] => exact Iff.rfl
  | [(0, first)] =>
    simp only [ramStart, startAfter, StartsAt]
    grind
  | (0, first) :: (j, second) :: _ =>
    simp only [ramStart, startAfter, StartsAt]
    grind
  | (i + 1, first) :: _ =>
    simp only [ramStart, startAfter, StartsAt]
    grind

theorem dvd_ramStart {indexed : List (ℕ × MemmapEntry)}
    (hdvd : ∀ entry ∈ indexed.map Prod.snd, 0x1000 ∣ entry.base.toNat) :
    0x1000 ∣ (ramStart size indexed).toNat := by
  match indexed with
  | [] => exact dvd_zero _
  | [(0, first)] =>
    simp only [ramStart, startAfter]
    grind
  | (0, first) :: (j, second) :: _ =>
    simp only [ramStart, startAfter]
    grind
  | (i + 1, first) :: _ =>
    simp only [ramStart, startAfter]
    grind

/-- Empty entries have no frames. -/
theorem flatMap_regions (entries : List MemmapEntry) :
    (regions entries).flatMap framesOf = (usable entries).flatMap framesOf := by
  unfold regions
  induction usable entries with
  | nil => rfl
  | cons entry entries ih =>
    rw [List.filter_cons, List.flatMap_cons]
    split
    case isTrue => rw [List.flatMap_cons, ih]
    case isFalse hpages =>
      have hempty : framesOf entry = [] := by
        rw [framesOf, Nat.eq_zero_of_not_pos fun hpos ↦ hpages (decide_eq_true hpos)]
        rfl
      rw [hempty, ih, List.nil_append]

theorem length_flatMap_framesOf (entries : List MemmapEntry) :
    (entries.flatMap framesOf).length = (entries.map pagesOf).sum := by
  induction entries with
  | nil => rfl
  | cons entry entries ih =>
    rw [List.flatMap_cons, List.length_append, length_framesOf, ih, List.map_cons, List.sum_cons]

theorem getElem?_frames_here {first : MemmapEntry} {page : ℕ} (hpage : page < pagesOf first)
    (rest : List ℕ) :
    (framesOf first ++ rest)[page]? = some (first.base.toNat + 0x1000 * page) := by
  rw [List.getElem?_append_left (by rwa [length_framesOf]), getElem?_framesOf hpage]

theorem getElem?_frames_later (first : MemmapEntry) (page : ℕ) (rest : List ℕ) :
    (framesOf first ++ rest)[pagesOf first + page]? = rest[page]? := by
  rw [List.getElem?_append_right (by rw [length_framesOf]; omega), length_framesOf,
    Nat.add_sub_cancel_left]

/-- The frames from an address on lie on a line when those of the first entry start there and the
others go on from where it ends. -/
theorem line_cons_iff {first : MemmapEntry} (hpages : 0 < pagesOf first) (hsize : 0 < size)
    (start : ℕ) (rest : List ℕ) :
    (∀ frameNumber < size, (framesOf first ++ rest)[frameNumber]? =
      some (start + 0x1000 * frameNumber)) ↔
      first.base.toNat = start ∧ ∀ frameNumber < size - pagesOf first, rest[frameNumber]? =
        some (start + 0x1000 * pagesOf first + 0x1000 * frameNumber) := by
  have hshift (page : ℕ) : start + 0x1000 * pagesOf first + 0x1000 * page =
      start + 0x1000 * (pagesOf first + page) := by
    rw [Nat.mul_add, Nat.add_assoc]
  constructor
  · intro hline
    have hzero := hline 0 hsize
    rw [getElem?_frames_here hpages] at hzero
    refine ⟨Option.some.inj hzero, fun page hlt ↦ ?_⟩
    rw [hshift, ← hline (pagesOf first + page) (by omega), getElem?_frames_later]
  · rintro ⟨hstart, hrest⟩ frameNumber hlt
    by_cases hpage : frameNumber < pagesOf first
    · rw [getElem?_frames_here hpage, hstart]
    · obtain ⟨page, rfl⟩ := Nat.exists_eq_add_of_le (not_lt.mp hpage)
      rw [getElem?_frames_later, hrest page (by omega), hshift]

/-- The first frames of non-empty entries follow each other exactly when no hole lies between them. -/
theorem line_iff (hpaged : ∀ entry ∈ entries, Paged entry)
    (hnonempty : ∀ entry ∈ entries, 0 < pagesOf entry) (hsize : 0 < size)
    (henough : size ≤ (entries.flatMap framesOf).length) (start : ℕ) :
    (∀ frameNumber < size,
      (entries.flatMap framesOf)[frameNumber]? = some (start + 0x1000 * frameNumber)) ↔
      Gapless size entries ∧ ∃ first ∈ entries.head?, first.base.toNat = start := by
  induction entries generalizing size start with
  | nil => exact absurd (hsize.trans_le henough) (Nat.not_lt_zero 0)
  | cons first rest ih =>
    obtain ⟨hhead, htail⟩ := List.forall_mem_cons.mp hpaged
    obtain ⟨hpages, hnonempty⟩ := List.forall_mem_cons.mp hnonempty
    rw [List.flatMap_cons, List.length_append, length_framesOf] at henough
    rw [List.flatMap_cons, line_cons_iff hpages hsize]
    by_cases hfull : size ≤ pagesOf first
    · have hgapless : Gapless size (first :: rest) := by
        cases rest with
        | nil => trivial
        | cons second rest => exact .inl hfull
      have hnone : size - pagesOf first = 0 := Nat.sub_eq_zero_of_le hfull
      simp [hgapless, hnone]
    · cases rest with
      | nil => exact absurd henough hfull
      | cons second rest =>
        have hroom : 0 < size - pagesOf first := by omega
        have hcount : size - pagesOf first ≤ ((second :: rest).flatMap framesOf).length := by omega
        rw [ih htail hnonempty hroom hcount]
        simp only [Gapless, hfull, false_or, List.head?_cons, Option.mem_some_iff, exists_eq_left',
          hhead.stop_eq]
        constructor
        · rintro ⟨hstart, hgapless, hsecond⟩
          exact ⟨⟨by rw [hstart, hsecond], hgapless⟩, hstart⟩
        · rintro ⟨⟨htouch, hgapless⟩, hstart⟩
          exact ⟨hstart, hgapless, by rw [← hstart, htouch]⟩

/-! ## The main result -/

theorem paged_of_mem (map : MemoryMap) : ∀ entry ∈ usable map.entries, Paged entry :=
  fun entry hmem ↦ ⟨(map.aligned entry hmem).2, map.bounded entry hmem⟩

theorem dvd_of_mem_frames (map : MemoryMap) :
    ∀ base ∈ (usable map.entries).flatMap framesOf, 0x1000 ∣ base := by
  intro base hbase
  obtain ⟨entry, hentry, hmem⟩ := List.mem_flatMap.mp hbase
  obtain ⟨page, _, rfl⟩ := List.mem_map.mp hmem
  exact (Nat.dvd_add_iff_left (Nat.dvd_mul_right _ _)).mp (map.aligned entry hentry).1

theorem pairwise_frames (map : MemoryMap) :
    ((usable map.entries).flatMap framesOf).Pairwise (· < ·) := by
  rw [List.pairwise_flatMap]
  constructor
  · intro entry _
    exact List.pairwise_lt_range.map _ fun first second hlt ↦ by omega
  · apply map.sorted.imp_of_mem
    intro first second hfirst _ hstop base hbase other hother
    obtain ⟨page, hpage, rfl⟩ := List.mem_map.mp hbase
    obtain ⟨later, _, rfl⟩ := List.mem_map.mp hother
    rw [(paged_of_mem map first hfirst).stop_eq] at hstop
    rw [List.mem_range] at hpage
    omega

theorem first_frame_le (map : MemoryMap) {frameNumber first base : ℕ}
    (hfirst : ((usable map.entries).flatMap framesOf)[0]? = some first)
    (hbase : ((usable map.entries).flatMap framesOf)[frameNumber]? = some base) : first ≤ base := by
  cases frameNumber with
  | zero => exact (Option.some.inj (hfirst.symm.trans hbase)).le
  | succ frameNumber =>
    obtain ⟨hzero, rfl⟩ := List.getElem?_eq_some_iff.mp hfirst
    obtain ⟨hlt, rfl⟩ := List.getElem?_eq_some_iff.mp hbase
    exact (List.pairwise_iff_getElem.mp (pairwise_frames map) _ _ hzero hlt (Nat.succ_pos _)).le

theorem dvd_ramStart_map (map : MemoryMap) :
    0x1000 ∣ (ramStart size (usableFrom 0 map.entries)).toNat := by
  apply dvd_ramStart
  rw [map_snd_usableFrom]
  exact fun entry hmem ↦ (map.aligned entry hmem).1

/-- The same for a table of any size. -/
theorem mutuallyInverse_initialise_iff (map : MemoryMap) (hsize : 0 < size)
    (hboot : CheckBootPages size map.entries) :
    ∃ frames : PageFrames size, PageFrames.initialise map.entries (.zero size) = .ok frames ∧
      (frames.MutuallyInverse ↔
        Gapless size (regions map.entries) ∧ CountsFromFirst size map.entries) := by
  obtain ⟨frames, hrun, hstart, hframes⟩ := initialise_spec (paged_of_mem map) hsize
  refine ⟨frames, hrun, ?_⟩
  have henough : size ≤ ((usable map.entries).flatMap framesOf).length := by
    rw [length_flatMap_framesOf]
    exact not_lt.mp hboot
  have htable (frameNumber : ℕ) (hlt : frameNumber < size) :
      frames.baseAt frameNumber = ((usable map.entries).flatMap framesOf)[frameNumber]? :=
    hframes frameNumber (hlt.trans_le henough) hlt
  have hpaged : ∀ entry ∈ regions map.entries, Paged entry :=
    fun entry hmem ↦ paged_of_mem map entry (List.mem_of_mem_filter hmem)
  have hnonempty : ∀ entry ∈ regions map.entries, 0 < pagesOf entry :=
    fun entry hmem ↦ of_decide_eq_true (List.mem_filter.mp hmem).2
  have hdvd (frameNumber base : ℕ) (hbase : frames.baseAt frameNumber = some base) :
      0x1000 ∣ base := by
    rw [htable frameNumber (lt_of_baseAt hbase)] at hbase
    exact dvd_of_mem_frames map base (List.mem_of_getElem? hbase)
  have hfirst (frameNumber first base : ℕ) (hfirst : frames.baseAt 0 = some first)
      (hbase : frames.baseAt frameNumber = some base) : first ≤ base := by
    rw [htable _ (lt_of_baseAt hfirst)] at hfirst
    rw [htable _ (lt_of_baseAt hbase)] at hbase
    exact first_frame_le map hfirst hbase
  calc
    frames.MutuallyInverse ↔ ∀ frameNumber < size,
        frames.baseAt frameNumber = some (frames.startOfRam.toNat + 0x1000 * frameNumber) :=
      mutuallyInverse_iff (hstart ▸ dvd_ramStart_map map) hdvd hfirst
    _ ↔ ∀ frameNumber < size, ((regions map.entries).flatMap framesOf)[frameNumber]? =
        some (frames.startOfRam.toNat + 0x1000 * frameNumber) := by
      rw [flatMap_regions]
      exact forall₂_congr fun frameNumber hlt ↦ by rw [htable frameNumber hlt]
    _ ↔ Gapless size (regions map.entries) ∧
        ∃ first ∈ (regions map.entries).head?, first.base.toNat = frames.startOfRam.toNat :=
      line_iff hpaged hnonempty hsize (by rwa [flatMap_regions]) _
    _ ↔ Gapless size (regions map.entries) ∧ CountsFromFirst size map.entries := by
      rw [hstart, CountsFromFirst]
      simp only [BitVec.toNat_inj, eq_ramStart_iff]

/-- Frame number and physical address are inverse exactly when the tracked frames lie in regions that
follow each other without a hole and are counted from the first of them. -/
theorem pageNumbers_inverse_iff (map : MemoryMap) (hboot : CheckBootPages availablePages map.entries) :
    ∃ frames : PageFrames availablePages,
      PageFrames.initialise map.entries (.zero availablePages) = .ok frames ∧
      (frames.MutuallyInverse ↔ Gapless availablePages (regions map.entries) ∧
        CountsFromFirst availablePages map.entries) :=
  mutuallyInverse_initialise_iff map (by decide) hboot

/-- Two usable entries that touch, behind a reserved one. -/
def touchingBanks : MemoryMap where
  entries := [⟨0, 0x1000, 1⟩, ⟨0x1000, 0x1000, 0⟩, ⟨0x2000, 0x1fc000000, 0⟩]
  sorted := by decide
  aligned := by decide
  bounded := by decide

theorem pageNumbers_inverse_touchingBanks :
    CheckBootPages availablePages touchingBanks.entries ∧
      ∃ frames : PageFrames availablePages,
        PageFrames.initialise touchingBanks.entries (.zero availablePages) = .ok frames ∧
        frames.MutuallyInverse := by
  have hboot : CheckBootPages availablePages touchingBanks.entries := by
    unfold CheckBootPages
    decide
  have hgapless : Gapless availablePages (regions touchingBanks.entries) :=
    .inr ⟨rfl, trivial⟩
  have hfirst : CountsFromFirst availablePages touchingBanks.entries := ⟨⟨0x1000, 0x1000, 0⟩, rfl, rfl⟩
  obtain ⟨frames, hrun, hinverse⟩ := pageNumbers_inverse_iff touchingBanks hboot
  exact ⟨hboot, frames, hrun, hinverse.mpr ⟨hgapless, hfirst⟩⟩

/-- Two usable entries with the legacy video area between them. -/
def splitBanks : MemoryMap where
  entries := [⟨0x1000, 0x9e000, 0⟩, ⟨0x9f000, 0x61000, 1⟩, ⟨0x100000, 0x1fc000000, 0⟩]
  sorted := by decide
  aligned := by decide
  bounded := by decide

theorem not_mutuallyInverse_splitBanks :
    CheckBootPages availablePages splitBanks.entries ∧
      ∃ frames : PageFrames availablePages,
        PageFrames.initialise splitBanks.entries (.zero availablePages) = .ok frames ∧
        ¬ frames.MutuallyInverse := by
  have hboot : CheckBootPages availablePages splitBanks.entries := by
    unfold CheckBootPages
    decide
  have hhole : ¬ Gapless availablePages (regions splitBanks.entries) := by
    rintro (hfull | ⟨htouch, _⟩)
    · exact absurd hfull (by decide)
    · exact absurd htouch (by decide)
  obtain ⟨frames, hrun, hinverse⟩ := mutuallyInverse_initialise_iff splitBanks (by decide) hboot
  exact ⟨hboot, frames, hrun, fun h ↦ hhole (hinverse.mp h).1⟩

end PenelopeOS.Memory
