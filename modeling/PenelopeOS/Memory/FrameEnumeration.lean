import PenelopeOS.Memory.PageNumbers

/-!
# The table enumerates usable memory

The two loops of `InitialisePageFrames` visit the pages that `printPageFrames` prints, one after the
other, and leave when the table is full. `CheckBootPages` compares with a count that was obtained by
division; it is the number of these pages, so a map that passes fills every slot.
-/

namespace PenelopeOS.Memory

open Machine Limine

variable {size : ℕ} {entries : List MemmapEntry} {paddr stop : Word} {fuel : ℕ}

/-- The inner loop visits a page for each step of a page up to `stop`. -/
theorem printPages_spec (pages : ℕ) (hstop : paddr.toNat + 0x1000 * pages = stop.toNat)
    (hfuel : pages < fuel) :
    ∃ visited, printPages stop fuel paddr = .ok visited ∧
      visited.map BitVec.toNat = (List.range pages).map fun page ↦ paddr.toNat + 0x1000 * page := by
  induction pages generalizing fuel paddr with
  | zero =>
    obtain ⟨fuel, rfl⟩ : ∃ rounds, fuel = rounds + 1 := ⟨fuel - 1, by omega⟩
    have hend : ¬ paddr < stop := by
      rw [BitVec.lt_def]
      omega
    refine ⟨[], ?_, rfl⟩
    rw [printPages, if_neg hend]
    rfl
  | succ pages ih =>
    obtain ⟨fuel, rfl⟩ : ∃ rounds, fuel = rounds + 1 := ⟨fuel - 1, by omega⟩
    have hlt : paddr < stop := by
      rw [BitVec.lt_def]
      omega
    have hnext := toNat_add_page (show paddr.toNat + 0x1000 ≤ stop.toNat by omega)
    have hstop' : (paddr + 0x1000).toNat + 0x1000 * pages = stop.toNat := by
      rw [hnext]
      omega
    obtain ⟨visited, hrun, hvisited⟩ := ih hstop' (Nat.succ_lt_succ_iff.mp hfuel)
    refine ⟨paddr :: visited, ?_, ?_⟩
    · rw [printPages, if_pos hlt, hrun, ok_bind]
      rfl
    · rw [List.map_cons, hvisited, hnext, List.range_succ_eq_map, List.map_cons, List.map_map]
      refine congrArg (paddr.toNat :: ·) (List.map_congr_left fun page _ ↦ ?_)
      rw [Function.comp_apply, Nat.succ_eq_add_one]
      omega

/-- The loops without a table end, and visit the pages of the usable entries. -/
theorem printPageFrames_spec (hpaged : ∀ entry ∈ usable entries, Paged entry) :
    ∃ pages, printPageFrames entries = .ok pages ∧
      pages.map BitVec.toNat = (usable entries).flatMap framesOf := by
  induction entries with
  | nil => exact ⟨[], rfl, rfl⟩
  | cons entry entries ih =>
    by_cases husable : entry.type = memmapUsable
    · rw [usable_cons, if_pos husable] at hpaged ⊢
      obtain ⟨hhead, htail⟩ := List.forall_mem_cons.mp hpaged
      have hfuel : pagesOf entry < 2 ^ 64 := by
        have hbound := hhead.stop_lt
        rw [hhead.stop_eq] at hbound
        omega
      obtain ⟨visited, hrun, hvisited⟩ := printPages_spec _ hhead.toNat_stop.symm hfuel
      obtain ⟨pages, hrest, hpages⟩ := ih htail
      refine ⟨visited ++ pages, ?_, ?_⟩
      · rw [printPageFrames, if_pos husable, hrun, ok_bind, hrest, ok_bind]
        rfl
      · rw [List.map_append, hvisited, hpages, List.flatMap_cons, framesOf]
    · rw [usable_cons, if_neg husable] at hpaged ⊢
      rw [printPageFrames, if_neg husable]
      exact ih hpaged

/-- The count by division does not wrap. -/
theorem toNat_countBootPages (map : MemoryMap) :
    (countBootPages map.entries).toNat = getBootPages map.entries := by
  have hdiv (entry : MemmapEntry) : (entry.length / 0x1000).toNat = pagesOf entry := BitVec.toNat_udiv
  have hsum := toNat_sumUsable map fun entry _ ↦ (hdiv entry).trans_le (Nat.div_le_self _ _)
  rw [countBootPages, hsum, getBootPages]
  simp only [hdiv]

/-- The same for a table of any size. -/
theorem initialise_enumerates_pages (map : MemoryMap) (hsize : 0 < size)
    (hboot : CheckBootPages size map.entries) (before : PageFrames size) :
    ∃ frames pages, PageFrames.initialise map.entries before = .ok frames ∧
      printPageFrames map.entries = .ok pages ∧
      pages.map BitVec.toNat = (usable map.entries).flatMap framesOf ∧
      size ≤ pages.length ∧ pages.length = (countBootPages map.entries).toNat ∧
      (∀ frameNumber < size, frames.frameMap[frameNumber]? =
        pages[frameNumber]?.map fun paddr ↦ ⟨paddr, 0, -1⟩) ∧
      pages.Pairwise (· < ·) ∧
      ∀ paddr ∈ pages, ∃ entry ∈ usable map.entries,
        entry.base.toNat ≤ paddr.toNat ∧ paddr.toNat + 0x1000 ≤ entry.stop := by
  obtain ⟨frames, hrun, hframes⟩ := initialise_frames (paged_of_mem map) hsize before
  obtain ⟨pages, hprint, hpages⟩ := printPageFrames_spec (paged_of_mem map)
  have hlength : pages.length = getBootPages map.entries := by
    rw [← List.length_map (f := BitVec.toNat), hpages, length_flatMap_framesOf]
    rfl
  have henough : size ≤ pages.length := hlength ▸ not_lt.mp hboot
  refine ⟨frames, pages, hrun, hprint, hpages, henough, ?_, fun frameNumber hlt ↦ ?_, ?_,
    fun paddr hpaddr ↦ ?_⟩
  · rw [hlength, toNat_countBootPages]
  · have hlisted : frameNumber < ((usable map.entries).flatMap framesOf).length := by
      rw [← hpages, List.length_map]
      exact hlt.trans_le henough
    have hframe := hframes frameNumber hlisted hlt
    rw [← hpages, List.getElem?_map, Option.map_map] at hframe
    rw [← PageFrames.frameAt, hframe]
    simp only [Function.comp_def, freePage_toNat]
  · have hsorted := pairwise_frames map
    rw [← hpages, List.pairwise_map] at hsorted
    exact hsorted.imp BitVec.lt_def.mpr
  · have hmem := List.mem_map_of_mem (f := BitVec.toNat) hpaddr
    rw [hpages] at hmem
    obtain ⟨entry, hentry, hframe⟩ := List.mem_flatMap.mp hmem
    exact ⟨entry, hentry, bounds_of_mem_framesOf (paged_of_mem map entry hentry) hframe⟩

/-- On a map that passes `CheckBootPages`, whatever the table holds before, slot `k` describes the
`k`-th page of the usable entries. -/
theorem initialise_enumerates (map : MemoryMap) (hboot : CheckBootPages availablePages map.entries)
    (before : PageFrames availablePages) :
    ∃ frames pages, PageFrames.initialise map.entries before = .ok frames ∧
      printPageFrames map.entries = .ok pages ∧
      pages.map BitVec.toNat = (usable map.entries).flatMap framesOf ∧
      availablePages ≤ pages.length ∧ pages.length = (countBootPages map.entries).toNat ∧
      (∀ frameNumber < availablePages, frames.frameMap[frameNumber]? =
        pages[frameNumber]?.map fun paddr ↦ ⟨paddr, 0, -1⟩) ∧
      pages.Pairwise (· < ·) ∧
      ∀ paddr ∈ pages, ∃ entry ∈ usable map.entries,
        entry.base.toNat ≤ paddr.toNat ∧ paddr.toNat + 0x1000 ≤ entry.stop :=
  initialise_enumerates_pages map (by decide) hboot before

theorem initialise_enumerates_touchingBanks :
    CheckBootPages availablePages touchingBanks.entries ∧
      ∃ frames pages, PageFrames.initialise touchingBanks.entries (.zero availablePages) =
          .ok frames ∧
        printPageFrames touchingBanks.entries = .ok pages ∧ availablePages ≤ pages.length ∧
        ∀ frameNumber < availablePages, frames.frameMap[frameNumber]? =
          pages[frameNumber]?.map fun paddr ↦ ⟨paddr, 0, -1⟩ := by
  have hboot : CheckBootPages availablePages touchingBanks.entries := by
    unfold CheckBootPages
    decide
  obtain ⟨frames, pages, hrun, hprint, -, henough, -, hframes, -⟩ :=
    initialise_enumerates touchingBanks hboot (.zero availablePages)
  exact ⟨hboot, frames, pages, hrun, hprint, henough, hframes⟩

end PenelopeOS.Memory
