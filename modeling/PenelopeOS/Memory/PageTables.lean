import PenelopeOS.Memory.Paging

/-!
# Whether `VirtualToPageBase` walks the tables of the processor

The mask of `address()` keeps the bits above the address field, so an entry whose execute-disable bit
or any of its ignored bits is set leads elsewhere. And no entry is tested on the way down, so the walk
goes on through entries that are not present and through large pages, and always reports a page.
-/

namespace PenelopeOS.Memory

open Machine

/-- The walk reads the entries that the processor reads and ends at the page that it defines. -/
structure AgreesWithProcessor (memory : Memory) (cr3 vaddr base : Word) : Prop where
  reads : (virtualToPageBase memory cr3 vaddr).reads =
    (descend pageFrame memory vaddr 4 (pageFrame cr3)).1
  base : (virtualToPageBase memory cr3 vaddr).base = base

/-- Bits 63:52 are clear. -/
def HighBitsClear (entry : Word) : Prop := entry >>> 52 = 0

instance (entry : Word) : Decidable (HighBitsClear entry) :=
  inferInstanceAs (Decidable (entry >>> 52 = 0))

variable {memory : Memory} {cr3 vaddr base : Word}

/-- For an address that the processor translates to a 4 KiB page, the code agrees exactly when bits
63:52 are clear in cr3 and in each of the four entries. -/
theorem agreesWithProcessor_iff
    (h : translate pageFrame memory vaddr 4 (pageFrame cr3) = .page base) :
    AgreesWithProcessor memory cr3 vaddr base ↔ HighBitsClear cr3 ∧
      ∀ entry ∈ (descend pageFrame memory vaddr 4 (pageFrame cr3)).1,
        HighBitsClear (load64 memory entry) := by
  have hbase := (translate_eq_page_iff.mp h).2
  have hwalk := virtualToPageBase_eq memory cr3 vaddr
  simp only [HighBitsClear, ← address_eq_pageFrame_iff, ← descend_eq_iff, ← hwalk]
  constructor
  · intro hagrees
    exact Prod.ext hagrees.reads (hagrees.base.trans hbase.symm)
  · intro heq
    exact ⟨congrArg Prod.fst heq, (congrArg Prod.snd heq).trans hbase⟩

/-- Tables at `0x1000`, `0x2000`, `0x3000` and `0x4000` that map the address zero to the given entry. -/
def mapZero (pte : Word) : Memory :=
  store64 (store64 (store64 (store64 (fun _ ↦ 0) 0x1000 0x2003) 0x2000 0x3003) 0x3000 0x4003) 0x4000 pte

/-- A writable page. -/
theorem agreesWithProcessor_writable : AgreesWithProcessor (mapZero 0x5003) 0x1000 0 0x5000 := by
  have hpage : translate pageFrame (mapZero 0x5003) 0 4 (pageFrame 0x1000) = .page 0x5000 := by
    decide +kernel
  have hentries : (descend pageFrame (mapZero 0x5003) 0 4 (pageFrame 0x1000)).1 =
      [0x1000, 0x2000, 0x3000, 0x4000] := by
    decide +kernel
  have hclear : (([0x1000, 0x2000, 0x3000, 0x4000] : List Word).all fun entry ↦
      HighBitsClear (load64 (mapZero 0x5003) entry)) = true := by
    decide +kernel
  refine (agreesWithProcessor_iff hpage).mpr ⟨by decide, fun entry hentry ↦ ?_⟩
  rw [hentries] at hentry
  exact of_decide_eq_true (List.all_eq_true.mp hclear entry hentry)

/-- A page of data that is not executable is reported at an address with bit 63 set. -/
theorem not_agreesWithProcessor_executeDisable :
    translate pageFrame (mapZero 0x8000000000005003) 0 4 (pageFrame 0x1000) = .page 0x5000 ∧
      (virtualToPageBase (mapZero 0x8000000000005003) 0x1000 0).base = 0x8000000000005000 ∧
      ¬ AgreesWithProcessor (mapZero 0x8000000000005003) 0x1000 0 0x5000 := by
  have hbase : (virtualToPageBase (mapZero 0x8000000000005003) 0x1000 0).base =
      0x8000000000005000 := by
    decide +kernel
  refine ⟨by decide +kernel, hbase, fun hagrees ↦ ?_⟩
  rw [hagrees.base] at hbase
  exact absurd hbase (by decide)

/-! ## Descents -/

/-- The entries are read in the tables of the processor, every table below the first was taken from an
entry that is present and no large page, and the entry that the page is taken from is present. -/
structure DescendsThroughTables (memory : Memory) (cr3 vaddr : Word) : Prop where
  reads : (virtualToPageBase memory cr3 vaddr).reads =
    (descend pageFrame memory vaddr 4 (pageFrame cr3)).1
  pdpt : present (load64 memory (virtualToPageBase memory cr3 vaddr).p4e) = true
  pd : present (load64 memory (virtualToPageBase memory cr3 vaddr).pdpte) = true ∧
    largePage 2 (load64 memory (virtualToPageBase memory cr3 vaddr).pdpte) = false
  pt : present (load64 memory (virtualToPageBase memory cr3 vaddr).pde) = true ∧
    largePage 1 (load64 memory (virtualToPageBase memory cr3 vaddr).pde) = false
  page : present (load64 memory (virtualToPageBase memory cr3 vaddr).pte) = true

theorem descendsThroughTables_iff_reachesPage (memory : Memory) (cr3 vaddr : Word) :
    DescendsThroughTables memory cr3 vaddr ↔
      (virtualToPageBase memory cr3 vaddr).reads =
          (descend pageFrame memory vaddr 4 (pageFrame cr3)).1 ∧
        ReachesPage memory 4 (virtualToPageBase memory cr3 vaddr).reads := by
  constructor
  · intro h
    exact ⟨h.reads, h.pdpt, rfl, h.pd.1, h.pd.2, h.pt.1, h.pt.2, h.page, rfl, trivial⟩
  · rintro ⟨hreads, hpdpt, -, hpd, hpdLarge, hpt, hptLarge, hpage, -⟩
    exact ⟨hreads, hpdpt, ⟨hpd, hpdLarge⟩, ⟨hpt, hptLarge⟩, hpage⟩

/-- The code reads the entries that the processor reads exactly when bits 63:52 are clear in cr3 and in
every entry but the last. -/
theorem reads_eq_iff (memory : Memory) (cr3 vaddr : Word) :
    (virtualToPageBase memory cr3 vaddr).reads =
        (descend pageFrame memory vaddr 4 (pageFrame cr3)).1 ↔
      HighBitsClear cr3 ∧ ∀ entry ∈ (descend pageFrame memory vaddr 4 (pageFrame cr3)).1.dropLast,
        HighBitsClear (load64 memory entry) := by
  have hwalk := congrArg Prod.fst (virtualToPageBase_eq memory cr3 vaddr)
  simp only [HighBitsClear, ← address_eq_pageFrame_iff, ← descend_reads_eq_iff, ← hwalk]

/-- The code descends through the tables of the processor exactly when the processor translates the
address to a 4 KiB page and bits 63:52 are clear in cr3 and in the three entries that refer to tables. -/
theorem descendsThroughTables_iff (memory : Memory) (cr3 vaddr : Word) :
    DescendsThroughTables memory cr3 vaddr ↔
      (∃ base, translate pageFrame memory vaddr 4 (pageFrame cr3) = .page base) ∧
        HighBitsClear cr3 ∧ ∀ entry ∈ (descend pageFrame memory vaddr 4 (pageFrame cr3)).1.dropLast,
          HighBitsClear (load64 memory entry) := by
  have hpage : (∃ base, translate pageFrame memory vaddr 4 (pageFrame cr3) = .page base) ↔
      ReachesPage memory 4 (descend pageFrame memory vaddr 4 (pageFrame cr3)).1 := by
    simp only [translate_eq_page_iff, exists_and_left, exists_eq', and_true]
  rw [descendsThroughTables_iff_reachesPage, hpage, ← reads_eq_iff, and_comm]
  exact and_congr_left fun hreads ↦ by rw [hreads]

/-- The tables of the boot loader as far as the faulting address of `main` needs them: the PML4 at
`0x1000` refers to an empty table. -/
def faultingTables : Memory := store64 (fun _ ↦ 0) (0x1000 + 8 * 0x100) 0x2003

/-- The address is not mapped, and the walk reads three entries in whatever lies at address zero. -/
theorem not_descendsThroughTables_faulting :
    translate pageFrame faultingTables 0xffff800280000000 4 (pageFrame 0x1000) = .notPresent 2 ∧
      virtualToPageBase faultingTables 0x1000 0xffff800280000000 =
        ⟨0x1800, 0x2050, 0, 0, 0⟩ ∧
      ¬ DescendsThroughTables faultingTables 0x1000 0xffff800280000000 := by
  refine ⟨by decide +kernel, by decide +kernel, fun h ↦ ?_⟩
  exact absurd h.pd.1 (by decide +kernel)

end PenelopeOS.Memory
