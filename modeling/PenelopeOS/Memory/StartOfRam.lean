import PenelopeOS.Memory.PageNumbers

/-!
# Whether the start of memory is where the first frame is

The base of the first usable entry is assigned after the loop over its pages, which is left by a jump
when the table is full, and under an eight-bit index whose zero reads as none yet. The assignment is
therefore lost for an entry that fills the table or lies behind index 255, and taken over by the next
usable entry when the first one has index zero.
-/

namespace PenelopeOS.Memory

open Machine Limine

variable {size : ℕ} {entries : List MemmapEntry}

/-- The start of memory and the base of frame zero are the base of the first usable entry. -/
def PageFrames.StartsAtFirst (frames : PageFrames size) (entries : List MemmapEntry) : Prop :=
  ∃ first ∈ (usable entries).head?, frames.startOfRam = first.base ∧
    frames.pageAddress 0 = .ok first.base

/-- The first page of usable memory starts where the first usable entry starts, so that entry is not
empty, or what follows it has the same base. -/
def FirstHasFrame (entries : List MemmapEntry) : Prop :=
  ∃ first ∈ (usable entries).head?, ∃ region ∈ (regions entries).head?, region.base = first.base

theorem getElem?_zero_frames {region : MemmapEntry} (hregion : region ∈ (regions entries).head?) :
    ((usable entries).flatMap framesOf)[0]? = some region.base.toNat := by
  have hpages : 0 < pagesOf region :=
    of_decide_eq_true (List.mem_filter.mp (List.mem_of_mem_head? hregion)).2
  obtain ⟨rest, hrest⟩ := List.head?_eq_some_iff.mp hregion
  rw [← flatMap_regions, hrest, List.flatMap_cons, getElem?_frames_here hpages, Nat.mul_zero,
    Nat.add_zero]

/-- The same for a table of any size. -/
theorem startsAtFirst_initialise_iff (map : MemoryMap) (hsize : 0 < size)
    (hboot : CheckBootPages size map.entries) :
    ∃ frames : PageFrames size, PageFrames.initialise map.entries (.zero size) = .ok frames ∧
      frames.startOfRam = ramStart size (usableFrom 0 map.entries) ∧
      (frames.StartsAtFirst map.entries ↔
        FirstHasFrame map.entries ∧ CountsFromFirst size map.entries) := by
  obtain ⟨frames, hrun, hstart, hframes⟩ := initialise_spec (paged_of_mem map) hsize
  refine ⟨frames, hrun, hstart, ?_⟩
  have hlisted : 0 < ((usable map.entries).flatMap framesOf).length := by
    rw [length_flatMap_framesOf]
    exact hsize.trans_le (not_lt.mp hboot)
  obtain ⟨region, hregion⟩ : ∃ region, region ∈ (regions map.entries).head? := by
    cases hregions : regions map.entries with
    | nil =>
      rw [← flatMap_regions, hregions] at hlisted
      exact absurd hlisted (Nat.not_lt_zero 0)
    | cons region rest => exact ⟨region, rfl⟩
  have hzero : frames.pageAddress 0 = .ok region.base := by
    rw [pageAddress_eq_ok_iff, hframes 0 hlisted hsize, getElem?_zero_frames hregion]
  constructor
  · rintro ⟨first, hfirst, hram, haddress⟩
    have hbase : region.base = first.base := Except.ok.inj (hzero.symm.trans haddress)
    refine ⟨⟨first, hfirst, region, hregion, hbase⟩, region, hregion, ?_⟩
    rw [← eq_ramStart_iff, ← hstart, hram, hbase]
  · rintro ⟨⟨first, hfirst, region', hregion', hbase⟩, counted, hcounted, hcounts⟩
    obtain rfl := Option.mem_unique hregion hregion'
    obtain rfl := Option.mem_unique hregion hcounted
    rw [← eq_ramStart_iff, ← hstart] at hcounts
    exact ⟨first, hfirst, hcounts.symm.trans hbase, hbase ▸ hzero⟩

/-- On a map that passes `CheckBootPages`, the start of memory is the base of the first usable entry
and of frame zero exactly when that entry has the first frame and is the one it is taken from. -/
theorem startOfRam_iff (map : MemoryMap) (hboot : CheckBootPages availablePages map.entries) :
    ∃ frames : PageFrames availablePages,
      PageFrames.initialise map.entries (.zero availablePages) = .ok frames ∧
      (frames.StartsAtFirst map.entries ↔
        FirstHasFrame map.entries ∧ CountsFromFirst availablePages map.entries) := by
  obtain ⟨frames, hrun, -, hiff⟩ := startsAtFirst_initialise_iff map (by decide) hboot
  exact ⟨frames, hrun, hiff⟩

theorem startOfRam_touchingBanks :
    CheckBootPages availablePages touchingBanks.entries ∧
      ∃ frames : PageFrames availablePages,
        PageFrames.initialise touchingBanks.entries (.zero availablePages) = .ok frames ∧
        frames.StartsAtFirst touchingBanks.entries := by
  have hboot : CheckBootPages availablePages touchingBanks.entries := by
    unfold CheckBootPages
    decide
  obtain ⟨frames, hrun, hiff⟩ := startOfRam_iff touchingBanks hboot
  refine ⟨hboot, frames, hrun, hiff.mpr ⟨?_, ?_⟩⟩
  · exact ⟨⟨0x1000, 0x1000, 0⟩, rfl, ⟨0x1000, 0x1000, 0⟩, rfl, rfl⟩
  · exact ⟨⟨0x1000, 0x1000, 0⟩, rfl, rfl⟩

/-- Conventional memory, the memory above the video area, and that above 4 GiB. -/
def threeBanks : MemoryMap where
  entries := [⟨0x1000, 0x9e000, 0⟩, ⟨0x9f000, 0x61000, 1⟩, ⟨0x100000, 0x7ff00000, 0⟩,
    ⟨0x100000000, 0x1fc000000, 0⟩]
  sorted := by decide
  aligned := by decide
  bounded := by decide

/-- The first bank has index zero and is passed over for the second. -/
theorem not_startsAtFirst_threeBanks :
    CheckBootPages availablePages threeBanks.entries ∧
      ∃ frames : PageFrames availablePages,
        PageFrames.initialise threeBanks.entries (.zero availablePages) = .ok frames ∧
        frames.startOfRam = 0x100000 ∧ ¬ frames.StartsAtFirst threeBanks.entries := by
  have hboot : CheckBootPages availablePages threeBanks.entries := by
    unfold CheckBootPages
    decide
  obtain ⟨frames, hrun, hstart, -⟩ := startsAtFirst_initialise_iff threeBanks (by decide) hboot
  have hram : frames.startOfRam = 0x100000 := hstart
  refine ⟨hboot, frames, hrun, hram, ?_⟩
  rintro ⟨first, hfirst, hbase, -⟩
  obtain rfl : ⟨0x1000, 0x9e000, 0⟩ = first := Option.some.inj hfirst
  rw [hram] at hbase
  exact absurd hbase (by decide)

end PenelopeOS.Memory
