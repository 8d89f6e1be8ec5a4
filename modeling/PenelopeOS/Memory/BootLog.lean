import PenelopeOS.Cpu.SegmentLog
import PenelopeOS.Limine.MapDump
import PenelopeOS.Memory.FrameEnumeration

/-!
# What is logged at boot

`_start` sets up the tables of the processor, counts the pages of the boot memory map and prints the map.
The log of these calls, when no interrupt comes in between, is one text without marks between its parts.
Read back, it shows what the processor is set up with, and the count in it is the one that its own lines
give.
-/

namespace PenelopeOS.Memory

open Console Cpu Foundation Limine Machine

/-- What `_start` prints in front of the memory map. -/
def bootItems (hhdm : Word) (globals : Globals) (entries : List MemmapEntry) : List Item :=
  gdtItems hhdm globals ++ idtItems globals ++
    [.text (ascii "boot pages :: "), .word (countBootPages entries), .char 10]

/-- The text of `_start` from `initialiseGDT` to `printMemoryMap` -/
def bootLog (hhdm : Word) (globals : Globals) (entries : List MemmapEntry) (out : Kostream) :
    Except Fault (List (BitVec 8) × Kostream) := do
  let (tables, out) ← out.write (bootItems hhdm globals entries)
  let (map, out) ← printMemoryMap (some entries) (some hhdm) out
  return (tables ++ map, out)

/-- The processor at `printMemoryMap` -/
def bootSystem (globals : Globals) (system : System) : Except Exception System :=
  (initialiseGDT globals system).map (storeIdt globals)

structure BootReport where
  segments : List (List ℕ)
  task : List ℕ
  stub : List ℕ
  gates : List (List ℕ)
  table : List ℕ
  pages : List ℕ
  entries : List (List ℕ)

/-- The parts of the log one after the other. -/
def readBoot (mode : Intmode) (text : List (BitVec 8)) : Option BootReport :=
  (dropFront heading text).bind fun text ↦
    (readMany (readRow (digitOf mode.base) mode.base [13, 10] segmentLabels) 5 text).bind fun segments ↦
    (readRow (digitOf 16) 16 [13, 10] taskLabels segments.2).bind fun task ↦
    (readRow (digitOf 16) 16 [13, 10] [[]] task.2).bind fun stub ↦
    (readMany (readRow (digitOf 16) 16 [13, 10] gateLabels) 34 stub.2).bind fun gates ↦
    (readRow (digitOf 16) 16 idtMark idtLabels gates.2).bind fun table ↦
    (readRow (digitOf 16) 16 [13, 10] [ascii "boot pages :: "] table.2).bind fun pages ↦
    (readRows (digitOf 16) 16 [13, 10] mapLabels pages.2).map fun entries ↦
      ⟨segments.1, task.1, stub.1, gates.1, table.1, pages.1, entries⟩

/-- The pages in the line of a usable entry. -/
def pagesOfRow : List ℕ → Option ℕ
  | [_, _, length, type] => if type = 0 then some (length / 0x1000) else none
  | _ => none

theorem sum_pagesOfRow (hhdm : Word) (entries : List MemmapEntry) :
    ((entries.map (mapRow hhdm)).filterMap pagesOfRow).sum = getBootPages entries := by
  induction entries with
  | nil => rfl
  | cons entry entries ih =>
    rw [List.map_cons, getBootPages, usable_cons]
    by_cases husable : entry.type = memmapUsable
    · have hrow : pagesOfRow (mapRow hhdm entry) = some (pagesOf entry) := by
        rw [mapRow, husable]
        rfl
      rw [if_pos husable, List.filterMap_cons_some hrow, List.sum_cons, ih, List.map_cons, List.sum_cons]
      rfl
    · have hrow : pagesOfRow (mapRow hhdm entry) = none := by
        have hkind : entry.type.toNat ≠ 0 := fun hzero ↦ husable (BitVec.eq_of_toNat_eq hzero)
        rw [mapRow, pagesOfRow, if_neg hkind]
      rw [if_neg husable, List.filterMap_cons_none hrow, ih]
      rfl

/-- The line with the count of the pages. -/
theorem exists_pagesText (entries : List MemmapEntry) :
    ∃ text, Kostream.write ⟨.hex⟩ [.text (ascii "boot pages :: "), .word (countBootPages entries),
        .char 10] = .ok (text, ⟨.hex⟩) ∧
      ∀ rest, readRow (digitOf 16) 16 [13, 10] [ascii "boot pages :: "] (text ++ rest) =
        some ([(countBootPages entries).toNat], rest) := by
  have hmode : (⟨.hex⟩ : Kostream).mode ≠ .bin := by decide
  have hfield : Field.Shows ⟨.hex⟩ 16 ⟨[.text (ascii "boot pages :: ")], .word (countBootPages entries)⟩
      (ascii "boot pages :: ", (countBootPages entries).toNat) :=
    shows_text (by decide) (printsAs_word hmode _)
  obtain ⟨text, hwrite, hrow⟩ := exists_write_row (.cons hfield .nil)
    (show Kostream.write ⟨.hex⟩ [.char 10] = .ok ([13, 10], ⟨.hex⟩) from rfl)
  refine ⟨text, hwrite, readRow_append hrow ?_⟩
  exact List.forall_mem_singleton.mpr ⟨13, _, rfl, digitOf_return ⟨.hex⟩⟩

/-- What is read from the log. -/
def bootReport (hhdm : Word) (globals : Globals) (entries : List MemmapEntry) : BootReport where
  segments := List.replicate 5 [0, 0, 0, 0]
  task := taskRow hhdm globals
  stub := [(globals.location isr0).toNat]
  gates := (List.finRange 34).map fun i ↦ gateRow (globals.location (isr.get i))
  table := [globals.idtor.toNat]
  pages := [(countBootPages entries).toNat]
  entries := entries.map (mapRow hhdm)

theorem exists_bootLog {out : Kostream} (hmode : out.mode ≠ .bin) (hhdm : Word) (globals : Globals)
    (entries : List MemmapEntry) :
    ∃ text out', bootLog hhdm globals entries out = .ok (text, out') ∧
      readBoot out.mode text = some (bootReport hhdm globals entries) := by
  obtain ⟨segments, task, hgdt, hsegments, htask⟩ := exists_gdtTexts hmode hhdm globals
  obtain ⟨stub, gates, table, hidt, hstub, hgates, htable⟩ := exists_idtTexts globals ⟨.hex⟩
  obtain ⟨pages, hpages, hpagesRead⟩ := exists_pagesText entries
  obtain ⟨last, out', hmap, hlast⟩ := exists_printMemoryMap hhdm entries ⟨.hex⟩
  have hwrite := Kostream.write_append (Kostream.write_append hgdt hidt) hpages
  refine ⟨heading ++ (segments ++ task) ++ (stub ++ gates ++ table) ++ pages ++ last, out', ?_, ?_⟩
  · simp only [bootLog, bootItems, hwrite, ok_bind, hmap]
    rfl
  · simp only [List.append_assoc]
    rw [readBoot, dropFront_append, Option.bind_some, hsegments, Option.bind_some, htask,
      Option.bind_some, hstub, Option.bind_some, hgates, Option.bind_some, htable, Option.bind_some,
      hpagesRead, Option.bind_some, hlast]
    rfl

/-- The log of the boot shows what it has set up. It reads back as one text: the base of the task segment
is the one that the task register is loaded with, an interrupt goes to the address that is logged for its
vector or nowhere, and the count of the pages is the one that the lines of the memory map give. -/
theorem boot_logged {out : Kostream} (hmode : out.mode ≠ .bin) (hhdm : Word) (map : MemoryMap)
    (globals : Globals) (system : System)
    (hzero : Machine.Stores system.memory globals.idtTable (List.replicate 4096 0)) :
    ∃ text out' booted report, bootLog hhdm globals map.entries out = .ok (text, out') ∧
      bootSystem globals system = .ok booted ∧ readBoot out.mode text = some report ∧
      report.task.head? = some booted.tr.base.toNat ∧
      (∀ vector : BitVec 8, dispatch booted vector =
        match report.gates[vector.toNat]? with
        | some gate => .ok ⟨0x08, BitVec.ofNat 64 (gate.headD 0), 0⟩
        | none => .error .generalProtection) ∧
      report.entries = map.entries.map (mapRow hhdm) ∧
      report.pages = [(report.entries.filterMap pagesOfRow).sum] := by
  obtain ⟨text, out', hlog, hread⟩ := exists_bootLog hmode hhdm globals map.entries
  obtain ⟨loaded, hloaded, hsegments⟩ := initialiseGDT_loads globals system
  refine ⟨text, out', storeIdt globals loaded, _, hlog, ?_, hread, ?_,
    dispatch_eq_logged hsegments hzero, rfl, ?_⟩
  · rw [bootSystem, hloaded]
    rfl
  · have htask : (storeIdt globals loaded).tr = ⟨0x28, globals.tss, 101⟩ := hsegments.tr
    rw [htask]
    rfl
  · change [(countBootPages map.entries).toNat] = [_]
    rw [toNat_countBootPages, ← sum_pagesOfRow hhdm]
    rfl

/-- A memory map with two pages that can be used, and one that cannot. -/
def threePages : MemoryMap where
  entries := [⟨0x1000, 0x2000, 0⟩, ⟨0x3000, 0x1000, 1⟩]
  sorted := by decide
  aligned := by decide
  bounded := by decide

theorem boot_logged_threePages :
    ∃ text out' booted report,
      bootLog 0xffff800000000000 pagedGlobals threePages.entries ⟨.dec⟩ = .ok (text, out') ∧
      bootSystem pagedGlobals
          ⟨fun _ ↦ 0, ⟨0, 0⟩, ⟨0, 0⟩, ⟨0, 0, 0⟩, 0x28, 0x30, 0x30, 0x30, 0x30, 0x30, false⟩ =
        .ok booted ∧
      readBoot .dec text = some report ∧ report.pages = [2] := by
  obtain ⟨text, out', booted, report, hlog, hbooted, hread, -, -, hentries, hpages⟩ :=
    boot_logged (show (⟨.dec⟩ : Kostream).mode ≠ .bin by decide) 0xffff800000000000 threePages
      pagedGlobals
      ⟨fun _ ↦ 0, ⟨0, 0⟩, ⟨0, 0⟩, ⟨0, 0, 0⟩, 0x28, 0x30, 0x30, 0x30, 0x30, 0x30, false⟩
      (stores_replicate_zero pagedGlobals.idtTable 4096)
  refine ⟨text, out', booted, report, hlog, hbooted, hread, ?_⟩
  rw [hpages, hentries]
  decide

end PenelopeOS.Memory
