import PenelopeOS.Console.Reports
import PenelopeOS.Machine.VirtualMemory
import PenelopeOS.Memory.PageTables

/-!
# What `ParseBootLoaderTable` reports

`ParseBootLoaderTable` goes through the four levels of the page tables in nested loops and follows every
entry that is present. It reads the tables at the addresses that `address()` takes from the entries, and
an address that is not mapped or not canonical ends it by an exception. Where the tables are read where
they are, the lines about present pages list the pages that `VirtualToPageBase` computes for the addresses
whose four entries are present, in the order of these addresses.
-/

namespace PenelopeOS.Memory

open Console Machine Foundation

/-- The loop over the entries of a table, with their indices and addresses. -/
def forEntries (table : Word) (body : ℕ → Word → Except AccessFault (List Item)) :
    Except AccessFault (List Item) := do
  let lines ← (List.range 512).mapM fun j ↦ body j (table + 8 * BitVec.ofNat 64 j)
  return lines.flatten

/-- A loop counter of the type `std::uint16_t` -/
def counter (j : ℕ) : Item := .short (BitVec.ofNat 16 j)

def pageFront : List (BitVec 8) := ascii "there is a present page at address :: "

/-- The innermost loop, over a page table. -/
def parsePageTable (memory : Memory) (cr3 pt : Word) : Except AccessFault (List Item) :=
  forEntries pt fun j entry ↦ do
    let pte ← loadAt memory cr3 entry
    return [.text (ascii "Page Table entry :: "), counter j, .text (ascii " :: value :: "), .word pte,
        .char 10] ++
      [.text (ascii "alpaca"), .char 10] ++
      if present pte then
        [.text (ascii "there is a present page at address :: "), .word (address pte), .char 10]
      else []

/-- The loop over a page directory. -/
def parsePageDirectory (memory : Memory) (cr3 pd : Word) : Except AccessFault (List Item) :=
  forEntries pd fun j entry ↦ do
    let pde ← loadAt memory cr3 entry
    let line : List Item := [.text (ascii "PD entry :: "), counter j, .text (ascii " :: value :: "),
      .word pde, .char 10]
    if present pde then
      let pt ← parsePageTable memory cr3 (address pde)
      return line ++
        ([.text (ascii "PDE IS PRESENT, TRAVERSING PT PAGE TABLE ... "), .text (ascii "\n\n")] ++
        pt ++ [.text (ascii "finished parsing PDE's Page Table"), .text (ascii "\n\n")])
    else return line

/-- The loop over a page directory pointer table. -/
def parsePointerTable (memory : Memory) (cr3 pdpt : Word) : Except AccessFault (List Item) :=
  forEntries pdpt fun j entry ↦ do
    let pdpte ← loadAt memory cr3 entry
    let line : List Item := [.text (ascii "pdpte entry :: "), counter j, .text (ascii " :: value :: "),
      .word pdpte, .char 10]
    if present pdpte then
      let pd ← parsePageDirectory memory cr3 (address pdpte)
      return line ++
        ([.text (ascii "PDPTE IS PRESENT, TRAVERSING PD PAGE TABLE ... "), .text (ascii "\n\n")] ++
        pd ++ [.text (ascii "Finished parsing PDPTE's PD"), .text (ascii "\n\n")])
    else return line

/-- What `ParseBootLoaderTable` inserts into `kout`. -/
def parseBootLoaderTable (memory : Memory) (cr3 : Word) : Except AccessFault (List Item) := do
  let bootpm4 := getCurrentPM4L cr3
  let entries ← forEntries bootpm4 fun i entry ↦ do
    let pm4le ← loadAt memory cr3 entry
    let line : List Item := [.text (ascii "pm4l entry :: "), counter i, .text (ascii " :: value :: "),
      .word pm4le, .text (ascii " :: address :: "), .word entry, .char 10]
    if present pm4le then
      let pdpt ← parsePointerTable memory cr3 (address pm4le)
      return line ++
        ([.text (ascii "PM4LE IS PRESENT, TRAVERSING PDPT PAGE TABLE ... "), .text (ascii "\n\n")] ++
        pdpt ++ [.text (ascii "Finished parsing PM4LE's PDPT"), .text (ascii "\n\n")])
    else return line
  return [.text (ascii "cr3 = "), .word cr3, .char 10] ++
    [.text (ascii "address of boot paging table: "), .word bootpm4, .char 10] ++ entries ++
    [.text (ascii "Finished parsing PM4L"), .char 10]

/-- The table and those that its present entries lead to, down to the given number of levels above the
pages, are read where they are. -/
def ReadableBelow (memory : Memory) (cr3 : Word) : ℕ → Word → Prop
  | 0, _ => True
  | level + 1, table => Readable memory cr3 table ∧ ∀ j < 512,
      let entry := load64 memory (table + 8 * BitVec.ofNat 64 j)
      present entry = true → ReadableBelow memory cr3 level (address entry)

/-- The page that `VirtualToPageBase` computes, where every entry that it reads is present. -/
def presentBase (memory : Memory) (cr3 vaddr : Word) : Option Word :=
  let walk := virtualToPageBase memory cr3 vaddr
  if walk.reads.all fun entry ↦ present (load64 memory entry) then some walk.base else none

/-! ## Tables -/

variable {memory : Memory} {out : Kostream} {table cr3 : Word} {level : ℕ}
  {label label' : List (BitVec 8)} {line : ℕ → Word → Word → List Item}
  {inner : Word → Except AccessFault (List Item)} {before after : List Item}

theorem mapM_eq_ok {α β : Type} {list : List α} {body : α → Except AccessFault β} {result : α → β}
    (h : ∀ entry ∈ list, body entry = .ok (result entry)) : list.mapM body = .ok (list.map result) := by
  induction list with
  | nil => rfl
  | cons entry list ih =>
    obtain ⟨hentry, hlist⟩ := List.forall_mem_cons.mp h
    rw [List.mapM_cons, hentry, ih hlist]
    rfl

theorem forEntries_eq_ok {body : ℕ → Word → Except AccessFault (List Item)} {items : ℕ → List Item}
    (h : ∀ j < 512, body j (table + 8 * BitVec.ofNat 64 j) = .ok (items j)) :
    forEntries table body = .ok ((List.range 512).flatMap items) := by
  rw [forEntries, mapM_eq_ok fun j hj ↦ h j (List.mem_range.mp hj)]
  rfl

/-- What is inserted tells what the entries tell. -/
theorem tells_forEntries {body : ℕ → Word → Except AccessFault (List Item)} {values : ℕ → List ℕ}
    (h : ∀ j < 512, ∃ items, body j (table + 8 * BitVec.ofNat 64 j) = .ok items ∧
      Tells out pageFront items (values j)) :
    ∃ items, forEntries table body = .ok items ∧
      Tells out pageFront items ((List.range 512).flatMap values) := by
  choose! items hbody htells using h
  exact ⟨_, forEntries_eq_ok hbody, tells_flatMap fun j hj ↦ htells j (List.mem_range.mp hj)⟩

/-- A table whose present entries lead to the tables below it reports the pages below it. -/
theorem tells_entries (hline : ∀ j entry value, Tells out pageFront (line j entry value) [])
    (hbefore : Tells out pageFront before []) (hafter : Tells out pageFront after [])
    (hinner : ∀ table, ReadableBelow memory cr3 level table → ∃ items, inner table = .ok items ∧
      Tells out pageFront items ((pagesBelow address memory level table).map BitVec.toNat))
    (hreadable : ReadableBelow memory cr3 (level + 1) table) :
    ∃ items, (forEntries table fun j entry ↦ do
        let value ← loadAt memory cr3 entry
        if present value then
          let below ← inner (address value)
          return line j entry value ++ (before ++ below ++ after)
        else return line j entry value) = .ok items ∧
      Tells out pageFront items ((pagesBelow address memory (level + 1) table).map BitVec.toNat) := by
  rw [pagesBelow, List.map_flatMap]
  refine tells_forEntries fun j hj ↦ ?_
  have hentry := hline j (table + 8 * BitVec.ofNat 64 j) (load64 memory (table + 8 * BitVec.ofNat 64 j))
  rw [hreadable.1.loadAt_eq hj]
  by_cases hpresent : present (load64 memory (table + 8 * BitVec.ofNat 64 j)) = true
  · obtain ⟨below, hbelow, htells⟩ := hinner _ (hreadable.2 j hj hpresent)
    have hall := hentry.append ((hbefore.append htells).append hafter)
    rw [List.nil_append, List.nil_append, List.append_nil] at hall
    simp only [if_pos hpresent]
    refine ⟨_, ?_, hall⟩
    change (if present _ = true then _ else _) = _
    rw [if_pos hpresent, hbelow]
    rfl
  · simp only [if_neg hpresent]
    exact ⟨_, if_neg hpresent, hentry⟩

theorem printsAs_counter (out : Kostream) (j : ℕ) :
    PrintsAs out out.mode.base (counter j) (BitVec.ofNat 16 j).toNat :=
  printsAs_number out (show 16 ≤ 20 by decide) (BitVec.ofNat 16 j)

section Mode

variable (hmode : out.mode ≠ .bin)

include hmode

/-- The line with the index and the value of an entry. -/
theorem tells_entryLine {first : BitVec 8} (hlabel : 10 ∉ label) (hfirst : label.head? = some first)
    (hne : 116 ≠ first) (j : ℕ) (value : Word) :
    Tells out pageFront [.text label, counter j, .text (ascii " :: value :: "), .word value, .char 10]
      [] := by
  have hvalue : 10 ∉ ascii " :: value :: " := by decide
  have hrow := tells_row
    (.cons (shows_text hlabel (printsAs_counter out j)) <|
      .cons (shows_text hvalue (printsAs_word hmode value)) .nil)
    (by
      simp only [List.forall_mem_cons]
      exact ⟨hlabel, hvalue, List.forall_mem_nil _⟩)
    (show pageFront.head? = _ from rfl)
    (show _ = some first by rw [List.head?_cons, Option.bind_some, hfirst]) hne
  exact hrow

/-- A line with one word. -/
theorem tells_wordLine {first : BitVec 8} (hlabel : 10 ∉ label) (hfirst : label.head? = some first)
    (hne : 116 ≠ first) (value : Word) :
    Tells out pageFront [.text label, .word value, .char 10] [] :=
  tells_row (.cons (shows_text hlabel (printsAs_word hmode value)) .nil)
    (List.forall_mem_singleton.mpr hlabel) (show pageFront.head? = _ from rfl)
    (show _ = some first by rw [List.head?_cons, Option.bind_some, hfirst]) hne

theorem tells_parsePageTable (pt : Word) (hreadable : ReadableBelow memory cr3 1 pt) :
    ∃ items, parsePageTable memory cr3 pt = .ok items ∧
      Tells out pageFront items ((pagesBelow address memory 1 pt).map BitVec.toNat) := by
  rw [pagesBelow, List.map_flatMap]
  refine tells_forEntries fun j hj ↦ ?_
  have hline := tells_entryLine hmode (show 10 ∉ ascii "Page Table entry :: " by decide) rfl
    (by decide) j (load64 memory (pt + 8 * BitVec.ofNat 64 j))
  have halpaca : Tells out pageFront [.text (ascii "alpaca"), .char 10] [] :=
    tells_text (by decide) (by decide)
  rw [hreadable.1.loadAt_eq hj]
  refine ⟨_, rfl, (hline.append halpaca).append ?_⟩
  by_cases hpresent : present (load64 memory (pt + 8 * BitVec.ofNat 64 j)) = true
  · simp only [if_pos hpresent]
    exact tells_report (by decide) (printsAs_word hmode _)
  · simp only [if_neg hpresent]
    exact tells_nil

theorem tells_parsePageDirectory (pd : Word) (hreadable : ReadableBelow memory cr3 2 pd) :
    ∃ items, parsePageDirectory memory cr3 pd = .ok items ∧
      Tells out pageFront items ((pagesBelow address memory 2 pd).map BitVec.toNat) :=
  tells_entries (fun j _ value ↦ tells_entryLine hmode (by decide) rfl (by decide) j value)
    (tells_banner (by decide) (by decide) (by decide)) (tells_banner (by decide) (by decide) (by decide))
    (tells_parsePageTable hmode) hreadable

theorem tells_parsePointerTable (pdpt : Word) (hreadable : ReadableBelow memory cr3 3 pdpt) :
    ∃ items, parsePointerTable memory cr3 pdpt = .ok items ∧
      Tells out pageFront items ((pagesBelow address memory 3 pdpt).map BitVec.toNat) :=
  tells_entries (fun j _ value ↦ tells_entryLine hmode (by decide) rfl (by decide) j value)
    (tells_banner (by decide) (by decide) (by decide)) (tells_banner (by decide) (by decide) (by decide))
    (tells_parsePageDirectory hmode) hreadable

/-- The line for an entry of the PML4. -/
theorem tells_pm4lLine (i : ℕ) (value entry : Word) : Tells out pageFront
    [.text (ascii "pm4l entry :: "), counter i, .text (ascii " :: value :: "), .word value,
      .text (ascii " :: address :: "), .word entry, .char 10] [] :=
  tells_row
    (.cons (shows_text (show 10 ∉ ascii "pm4l entry :: " by decide) (printsAs_counter out i)) <|
      .cons (shows_text (show 10 ∉ ascii " :: value :: " by decide) (printsAs_word hmode value)) <|
      .cons (shows_text (show 10 ∉ ascii " :: address :: " by decide) (printsAs_word hmode entry))
      .nil)
    (by
      simp only [List.forall_mem_cons]
      exact ⟨by decide, by decide, by decide, List.forall_mem_nil _⟩)
    (show pageFront.head? = _ from rfl) rfl (by decide)

theorem tells_parseBootLoaderTable (hreadable : ReadableBelow memory cr3 4 (address cr3)) :
    ∃ items, parseBootLoaderTable memory cr3 = .ok items ∧
      Tells out pageFront items ((pagesBelow address memory 4 (address cr3)).map BitVec.toNat) := by
  have hcr3 := tells_wordLine hmode (show 10 ∉ ascii "cr3 = " by decide) rfl (by decide) cr3
  have hpm4 := tells_wordLine hmode (show 10 ∉ ascii "address of boot paging table: " by decide)
    rfl (by decide) (getCurrentPM4L cr3)
  rw [← getCurrentPM4L_eq] at hreadable
  obtain ⟨entries, hrun, hentries⟩ := tells_entries
    (fun i entry value ↦ tells_pm4lLine hmode i value entry)
    (tells_banner (show 10 ∉ ascii "PM4LE IS PRESENT, TRAVERSING PDPT PAGE TABLE ... " by decide)
      (by decide) (by decide))
    (tells_banner (show 10 ∉ ascii "Finished parsing PM4LE's PDPT" by decide) (by decide) (by decide))
    (tells_parsePointerTable hmode) hreadable
  have hlast : Tells out pageFront [.text (ascii "Finished parsing PM4L"), .char 10] [] :=
    tells_text (by decide) (by decide)
  have hall := ((hcr3.append hpm4).append hentries).append hlast
  rw [List.nil_append, List.append_nil, List.nil_append, getCurrentPM4L_eq] at hall
  refine ⟨_, ?_, hall⟩
  rw [parseBootLoaderTable]
  dsimp only
  rw [hrun, getCurrentPM4L_eq]
  rfl

end Mode

theorem presentPage_eq (memory : Memory) (cr3 vaddr : Word) :
    presentPage address memory 4 (address cr3) vaddr = presentBase memory cr3 vaddr := by
  have hwalk := virtualToPageBase_eq memory cr3 vaddr
  simp only [presentPage, presentBase, ← hwalk]

/-- Where the tables are read where they are and unless `kout` prints in binary, the pages that are
reported are those that `VirtualToPageBase` computes for the addresses of pages with all four entries
present, in the order of the addresses. -/
theorem parseBootLoaderTable_reports (hreadable : ReadableBelow memory cr3 4 (address cr3))
    (hmode : out.mode ≠ .bin) :
    ∃ items text, parseBootLoaderTable memory cr3 = .ok items ∧ out.write items = .ok (text, out) ∧
      out.reports pageFront text = (List.range (2 ^ 36)).filterMap fun page ↦
        (presentBase memory cr3 (pageVaddr page)).map BitVec.toNat := by
  obtain ⟨items, hrun, text, hwrite, hreports⟩ := tells_parseBootLoaderTable hmode hreadable
  refine ⟨items, text, hrun, hwrite, ?_⟩
  have hall := hreports []
  have hnone : out.reports pageFront [] = [] := rfl
  have hpages : 512 ^ 4 = 2 ^ 36 := by decide
  rw [List.append_nil, hnone, List.append_nil, pagesBelow_eq le_rfl, List.map_filterMap, hpages] at hall
  simpa only [presentPage_eq] using hall

/-- The entries of four tables at `0x1000`, `0x2000`, `0x3000` and `0x4000`, which map the pages of the
tables to themselves. -/
def selfEntries : List (Word × Word) :=
  [(0x1000, 0x2003), (0x2000, 0x3003), (0x3000, 0x4003), (0x4008, 0x1003), (0x4010, 0x2003),
    (0x4018, 0x3003), (0x4020, 0x4003)]

def storeEntries (entries : List (Word × Word)) (memory : Memory) : Memory :=
  entries.foldl (fun memory entry ↦ store64 memory entry.1 entry.2) memory

def selfMapped : Memory := storeEntries selfEntries fun _ ↦ 0

theorem load64_storeEntries {entries : List (Word × Word)} {place : Word} (hplace : 8 ∣ place.toNat)
    (hentries : ∀ entry ∈ entries, 8 ∣ entry.1.toNat ∧ entry.1 ≠ place) :
    load64 (storeEntries entries memory) place = load64 memory place := by
  induction entries generalizing memory with
  | nil => rfl
  | cons entry entries ih =>
    obtain ⟨⟨haligned, hne⟩, hrest⟩ := List.forall_mem_cons.mp hentries
    rw [storeEntries, List.foldl_cons, ← storeEntries, ih hrest]
    exact load64_store64_apart memory entry.2 (apart_of_dvd haligned hplace hne)

theorem mem_selfEntries {place : Word} (hplace : 8 ∣ place.toNat)
    (hpresent : present (load64 selfMapped place) = true) :
    (place, load64 selfMapped place) ∈ selfEntries := by
  have hstored : ∀ entry ∈ selfEntries, (entry.1, load64 selfMapped entry.1) ∈ selfEntries :=
    List.forall_iff_forall_mem.mp (by decide +kernel)
  by_cases hentry : ∃ entry ∈ selfEntries, entry.1 = place
  · obtain ⟨entry, hmem, rfl⟩ := hentry
    exact hstored entry hmem
  · have haligned : ∀ entry ∈ selfEntries, 8 ∣ entry.1.toNat :=
      List.forall_iff_forall_mem.mp (by decide)
    have hzero : load64 selfMapped place = load64 (fun _ ↦ 0) place :=
      load64_storeEntries hplace fun entry hmem ↦
        ⟨haligned entry hmem, fun heq ↦ hentry ⟨entry, hmem, heq⟩⟩
    rw [hzero, load64] at hpresent
    exact absurd hpresent (by decide)

/-- The addresses of the tables. -/
def selfTables : List Word := [0x1000, 0x2000, 0x3000, 0x4000]

theorem selfTables_range : ∀ other ∈ selfTables,
    other.toNat % 0x1000 = 0 ∧ 0x1000 ≤ other.toNat ∧ other.toNat < 0x5000 := by
  simp only [selfTables, List.forall_mem_cons]
  exact ⟨by decide, by decide, by decide, by decide, List.forall_mem_nil _⟩

theorem toNat_selfPlace (htable : table ∈ selfTables) {j : ℕ} (hj : j < 512) :
    (table + 8 * BitVec.ofNat 64 j).toNat = table.toNat + 8 * j := by
  have hrange := selfTables_range table htable
  have height : (8 : Word).toNat = 8 := rfl
  rw [BitVec.toNat_add, BitVec.toNat_mul, height, BitVec.toNat_ofNat]
  omega

theorem entry_selfMapped (htable : table ∈ selfTables) {j : ℕ} (hj : j < 512)
    (hpresent : present (load64 selfMapped (table + 8 * BitVec.ofNat 64 j)) = true) :
    load64 selfMapped (table + 8 * BitVec.ofNat 64 j) ∈ (selfEntries.filter fun entry ↦
      entry.1.toNat / 0x1000 = table.toNat / 0x1000).map Prod.snd := by
  have hrange := selfTables_range table htable
  have hplace := toNat_selfPlace htable hj
  have hmem := mem_selfEntries (by omega) hpresent
  refine List.mem_map.mpr ⟨_, List.mem_filter.mpr ⟨hmem, decide_eq_true ?_⟩, rfl⟩
  dsimp only
  omega

/-- What holds of pages, and of a table when its present entries are clean and it holds of what they lead
to, holds of all of the tables. -/
theorem below_selfMapped {holds : ℕ → Word → Prop} (hpage : ∀ page, holds 0 page)
    (htable : ∀ level, ∀ table ∈ selfTables, (∀ j < 512,
      let entry := load64 selfMapped (table + 8 * BitVec.ofNat 64 j)
      present entry = true →
        largePage level entry = false ∧ HighBitsClear entry ∧ holds level (address entry)) →
      holds (level + 1) table) : holds 4 0x1000 := by
  have hclean : ∀ entry ∈ selfEntries, entry.2.getLsbD 7 = false ∧ HighBitsClear entry.2 :=
    List.forall_iff_forall_mem.mp (by decide)
  have hlevel (level : ℕ) (table : Word) (hmem : table ∈ selfTables)
      (hbelow : ∀ entry ∈ (selfEntries.filter fun entry ↦
        entry.1.toNat / 0x1000 = table.toNat / 0x1000).map Prod.snd, holds level (address entry)) :
      holds (level + 1) table := by
    refine htable level table hmem fun j hj hpresent ↦ ?_
    have hentry := entry_selfMapped hmem hj hpresent
    obtain ⟨pair, hpair, hvalue⟩ := List.mem_map.mp hentry
    obtain ⟨hbit, hclear⟩ := hclean pair (List.mem_of_mem_filter hpair)
    rw [hvalue] at hbit hclear
    exact ⟨by rw [largePage, hbit, Bool.and_false], hclear, hbelow _ hentry⟩
  have hsingle (level : ℕ) (table entry : Word) (hmem : table ∈ selfTables)
      (hfilter : (selfEntries.filter fun entry ↦
        entry.1.toNat / 0x1000 = table.toNat / 0x1000).map Prod.snd = [entry])
      (hbelow : holds level (address entry)) : holds (level + 1) table := by
    apply hlevel level table hmem
    rw [hfilter]
    exact List.forall_mem_singleton.mpr hbelow
  have hpt : holds 1 (address 0x4003) := hlevel 0 _ (by decide +kernel) fun entry _ ↦ hpage _
  have hpd : holds 2 (address 0x3003) := hsingle 1 _ 0x4003 (by decide +kernel) (by decide +kernel) hpt
  have hpdpt : holds 3 (address 0x2003) := hsingle 2 _ 0x3003 (by decide +kernel) (by decide +kernel) hpd
  exact hsingle 3 0x1000 0x2003 (by decide +kernel) (by decide +kernel) hpdpt

theorem toNat_pageOffset (vaddr : Word) : (pageOffset 12 vaddr).toNat = vaddr.toNat % 0x1000 := by
  rw [pageOffset, BitVec.toNat_and]
  exact Nat.and_two_pow_sub_one_eq_mod _ 12

/-- The pages of the tables are read, and written to, where they are. -/
theorem access_selfMapped {vaddr : Word} (hlow : 0x1000 ≤ vaddr.toNat) (hhigh : vaddr.toNat < 0x5000)
    (write : Bool) : access selfMapped 0x1000 false write vaddr = .ok vaddr := by
  have hpages : ∀ page < 5, 1 ≤ page → Machine.translate pageFrame selfMapped
      (BitVec.ofNat 64 (0x1000 * page)) 4 (pageFrame 0x1000) =
        .page (BitVec.ofNat 64 (0x1000 * page)) := by
    decide +kernel
  have hpage := hpages (vaddr.toNat / 0x1000) (by omega) (by omega)
  have hindices : ∀ other < 4, tableIndex other vaddr =
      tableIndex other (BitVec.ofNat 64 (0x1000 * (vaddr.toNat / 0x1000))) := by
    intro other hother
    apply BitVec.eq_of_toNat_eq
    rw [toNat_tableIndex, toNat_tableIndex, BitVec.toNat_ofNat]
    interval_cases other <;> omega
  rw [translate_eq_page_iff, ← descend_congr hindices, ← translate_eq_page_iff] at hpage
  rw [access_of_translate (canonical_iff.mpr (.inl (by omega))) hpage (Bool.and_false write)]
  congr 1
  apply BitVec.eq_of_toNat_eq
  rw [BitVec.toNat_add, toNat_pageOffset, BitVec.toNat_ofNat]
  omega

theorem readable_selfMapped (htable : table ∈ selfTables) : Readable selfMapped 0x1000 table where
  aligned := by
    have hrange := selfTables_range table htable
    omega
  access_eq j hj := by
    have hrange := selfTables_range table htable
    have hplace := toNat_selfPlace htable hj
    exact access_selfMapped (by omega) (by omega) false

theorem readableBelow_selfMapped : ReadableBelow selfMapped 0x1000 4 (address 0x1000) :=
  below_selfMapped (fun _ ↦ trivial) fun _ _ htable hbelow ↦
    ⟨readable_selfMapped htable, fun j hj hpresent ↦ (hbelow j hj hpresent).2.2⟩

theorem parseBootLoaderTable_reports_selfMapped :
    ∃ items text, parseBootLoaderTable selfMapped 0x1000 = .ok items ∧
      (Kostream.mk .dec).write items = .ok (text, ⟨.dec⟩) ∧
      (Kostream.mk .dec).reports pageFront text = (List.range (2 ^ 36)).filterMap fun page ↦
        (presentBase selfMapped 0x1000 (pageVaddr page)).map BitVec.toNat :=
  parseBootLoaderTable_reports readableBelow_selfMapped (by decide)

/-! ## What the processor maps -/

/-- The page that the processor translates to. -/
def mappedPage : Translation → Option Word
  | .page base => some base
  | _ => none

/-- Below a table no present entry is a large page or has one of the bits 63:52 set. -/
def CleanBelow (memory : Memory) : ℕ → Word → Prop
  | 0, _ => True
  | level + 1, table => ∀ j < 512,
      let entry := load64 memory (table + 8 * BitVec.ofNat 64 j)
      present entry = true →
        largePage level entry = false ∧ HighBitsClear entry ∧ CleanBelow memory level (address entry)

theorem presentPage_of_cleanBelow (hclean : CleanBelow memory level table) (vaddr : Word) :
    presentPage address memory level table vaddr =
      mappedPage (translate pageFrame memory vaddr level table) := by
  induction level generalizing table with
  | zero => exact presentPage_zero
  | succ level ih =>
    have hindex : (tableIndex level vaddr).toNat < 512 := by
      rw [toNat_tableIndex]
      exact Nat.mod_lt _ (by decide)
    have hentry := hclean _ hindex
    rw [BitVec.ofNat_toNat, BitVec.setWidth_eq] at hentry
    rw [presentPage_succ, Machine.translate, entryAddress]
    cases hpresent : present (load64 memory (table + 8 * tableIndex level vaddr)) with
    | false => simp only [hpresent, Bool.false_eq_true, if_false, if_true, mappedPage]
    | true =>
      obtain ⟨hlarge, hclear, hbelow⟩ := hentry hpresent
      have hframe := address_eq_pageFrame_iff.mpr hclear
      simp only [hpresent, hlarge, if_true, Bool.true_eq_false, Bool.false_eq_true, if_false, ih hbelow,
        ← hframe]

/-- Where the tables are read where they are and hold no large pages and no flags in bits 63:52, the
pages that are reported are those that the processor maps, in the order of the addresses. -/
theorem parseBootLoaderTable_reports_mapped
    (hreadable : ReadableBelow memory cr3 4 (address cr3)) (hmode : out.mode ≠ .bin)
    (hcr3 : HighBitsClear cr3) (hclean : CleanBelow memory 4 (pageFrame cr3)) :
    ∃ items text, parseBootLoaderTable memory cr3 = .ok items ∧ out.write items = .ok (text, out) ∧
      out.reports pageFront text = (List.range (2 ^ 36)).filterMap fun page ↦
        (mappedPage (translate pageFrame memory (pageVaddr page) 4 (pageFrame cr3))).map
          BitVec.toNat := by
  have hframe := address_eq_pageFrame_iff.mpr hcr3
  obtain ⟨items, hrun, text, hwrite, hreports⟩ := tells_parseBootLoaderTable hmode hreadable
  refine ⟨items, text, hrun, hwrite, ?_⟩
  have hall := hreports []
  have hnone : out.reports pageFront [] = [] := rfl
  have hpages : 512 ^ 4 = 2 ^ 36 := by decide
  rw [List.append_nil, hnone, List.append_nil, pagesBelow_eq le_rfl, List.map_filterMap, hpages, hframe]
    at hall
  simpa only [presentPage_of_cleanBelow hclean] using hall

theorem cleanBelow_selfMapped : CleanBelow selfMapped 4 (pageFrame 0x1000) :=
  below_selfMapped (fun _ ↦ trivial) fun _ _ _ hbelow ↦ hbelow

theorem parseBootLoaderTable_reports_mapped_selfMapped :
    ∃ items text, parseBootLoaderTable selfMapped 0x1000 = .ok items ∧
      (Kostream.mk .hex).write items = .ok (text, ⟨.hex⟩) ∧
      (Kostream.mk .hex).reports pageFront text = (List.range (2 ^ 36)).filterMap fun page ↦
        (mappedPage (translate pageFrame selfMapped (pageVaddr page) 4 (pageFrame 0x1000))).map
          BitVec.toNat :=
  parseBootLoaderTable_reports_mapped readableBelow_selfMapped (by decide) (by decide)
    cleanBelow_selfMapped

end PenelopeOS.Memory
