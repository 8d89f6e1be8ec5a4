import PenelopeOS.Console.Output
import PenelopeOS.Limine.MemoryMap

/-!
# What `printMemoryMap` shows of the boot memory map

A line for each entry, usable or not, with the physical base, the address it is mapped at, the length
and the type. The text reads back as these numbers, whatever mode `kout` was in, so two maps with the
same text have the same entries.
-/

namespace PenelopeOS.Limine

open Console Machine Foundation

/-- The line for one entry. -/
def mapLine (hhdm : Word) (entry : MemmapEntry) : List Item :=
  [.mode .hex, .word entry.base, .char 9, .word (paddrToVaddr hhdm entry.base), .char 9,
    .word entry.length, .char 9, .word entry.type, .char 10]

/-- The loop of `printMemoryMap` over the entries that are left. -/
def printMap (hhdm : Word) : List MemmapEntry → Kostream → Except Fault (List (BitVec 8) × Kostream)
  | [], out => .ok ([], out)
  | entry :: entries, out => do
    let (line, out) ← out.write (mapLine hhdm entry)
    let (rest, out) ← printMap hhdm entries out
    return (line ++ rest, out)

/-- The responses are null when the bootloader has not answered. That is noticed for the memory map,
but the response is read all the same. -/
def printMemoryMap (response : Option (List MemmapEntry)) (offset : Option Word) (out : Kostream) :
    Except Fault (List (BitVec 8) × Kostream) := do
  let (warning, out) ← if response.isNone then out.write [.text (ascii "MEM FAIL\n")] else .ok ([], out)
  match offset, response with
  | some hhdm, some entries =>
    let (text, out) ← printMap hhdm entries out
    return (warning ++ text, out)
  | _, _ => .error .nullDereference

/-- The first number of a line has no label. -/
def mapLabels : List (List (BitVec 8)) := [[], [9], [9], [9]]

/-- The numbers in the line for an entry. -/
def mapRow (hhdm : Word) (entry : MemmapEntry) : List ℕ :=
  [entry.base.toNat, (paddrToVaddr hhdm entry.base).toNat, entry.length.toNat, entry.type.toNat]

variable {hhdm : Word} {entries entries' : List MemmapEntry} {out : Kostream}

theorem exists_write_mapLine (hhdm : Word) (entry : MemmapEntry) (out : Kostream) :
    ∃ line, out.write (mapLine hhdm entry) = .ok (line, out.insertMode .hex) ∧
      IsRow (digitOf 16) 16 [13, 10] mapLabels (mapRow hhdm entry) line := by
  have hmode : (out.insertMode .hex).mode = .hex := rfl
  have hfirst : Field.Shows (out.insertMode .hex) 16 ⟨[], .word entry.base⟩
      ([], entry.base.toNat) := ⟨rfl, printsAs_word_hex hmode _⟩
  have hshows (i : Word) :
      Field.Shows (out.insertMode .hex) 16 ⟨[.char 9], .word i⟩ ([9], i.toNat) :=
    ⟨rfl, printsAs_word_hex hmode i⟩
  obtain ⟨line, hwrite, hrow⟩ := exists_write_row
    (.cons hfirst <| .cons (hshows (paddrToVaddr hhdm entry.base)) <| .cons (hshows entry.length) <|
      .cons (hshows entry.type) .nil)
    (show (out.insertMode .hex).write [.char 10] = .ok ([13, 10], out.insertMode .hex) from rfl)
  have hput : out.put (.mode .hex) = .ok ([], out.insertMode .hex) := rfl
  exact ⟨line, Kostream.write_cons hput hwrite, hrow⟩

theorem printMap_spec (hhdm : Word) (entries : List MemmapEntry) (out : Kostream) :
    ∃ text out', printMap hhdm entries out = .ok (text, out') ∧
      AreRows (digitOf 16) 16 [13, 10] mapLabels (entries.map (mapRow hhdm)) text := by
  induction entries generalizing out with
  | nil => exact ⟨[], out, rfl, .nil⟩
  | cons entry entries ih =>
    obtain ⟨line, hline, hrow⟩ := exists_write_mapLine hhdm entry out
    obtain ⟨rest, out', hrest, hrows⟩ := ih (out.insertMode .hex)
    refine ⟨line ++ rest, out', ?_, .cons hrow hrows⟩
    simp only [printMap, hline, ok_bind, hrest]
    rfl

theorem delimits_mapLabels :
    ∀ label ∈ mapLabels.tail ++ [[13, 10]], Delimits (digitOf 16) label := by
  simp only [mapLabels, List.tail_cons, List.cons_append, List.nil_append, List.forall_mem_cons]
  exact ⟨⟨9, _, rfl, rfl⟩, ⟨9, _, rfl, rfl⟩, ⟨9, _, rfl, rfl⟩, ⟨13, _, rfl, rfl⟩, List.forall_mem_nil _⟩

theorem exists_printMemoryMap (hhdm : Word) (entries : List MemmapEntry) (out : Kostream) :
    ∃ text out', printMemoryMap (some entries) (some hhdm) out = .ok (text, out') ∧
      readRows (digitOf 16) 16 [13, 10] mapLabels text = some (entries.map (mapRow hhdm)) := by
  obtain ⟨text, out', hrun, hrows⟩ := printMap_spec hhdm entries out
  refine ⟨text, out', ?_, hrows.read delimits_mapLabels (by simp)⟩
  simp only [printMemoryMap, Option.isNone_some, Bool.false_eq_true, if_false, ok_bind, hrun]
  rfl

theorem mapRow_injective {entry entry' : MemmapEntry} {hhdm' : Word}
    (h : mapRow hhdm entry = mapRow hhdm' entry') : entry = entry' ∧ hhdm = hhdm' := by
  cases entry
  cases entry'
  simp only [mapRow, List.cons.injEq, paddrToVaddr] at h
  obtain ⟨hbase, hmapped, hlength, htype, -⟩ := h
  obtain rfl := BitVec.eq_of_toNat_eq hbase
  obtain rfl := BitVec.eq_of_toNat_eq hlength
  obtain rfl := BitVec.eq_of_toNat_eq htype
  exact ⟨rfl, add_left_cancel (BitVec.eq_of_toNat_eq hmapped)⟩

/-- The text of the memory map reads back as its entries, with the addresses they are mapped at. Two
maps are printed as the same text only if they have the same entries and, unless there are none, are
mapped at the same offset. -/
theorem printMemoryMap_reads (hhdm : Word) (entries : List MemmapEntry) (out : Kostream) :
    ∃ text out', printMemoryMap (some entries) (some hhdm) out = .ok (text, out') ∧
      readRows (digitOf 16) 16 [13, 10] mapLabels text = some (entries.map (mapRow hhdm)) ∧
      ∀ hhdm' entries' before after,
        printMemoryMap (some entries') (some hhdm') before = .ok (text, after) →
          entries' = entries ∧ (entries ≠ [] → hhdm' = hhdm) := by
  obtain ⟨text, out', hrun, hread⟩ := exists_printMemoryMap hhdm entries out
  refine ⟨text, out', hrun, hread, fun hhdm' entries' before after hrun' ↦ ?_⟩
  obtain ⟨text', after', hrun'', hread'⟩ := exists_printMemoryMap hhdm' entries' before
  obtain ⟨rfl, -⟩ := ok_pair_inj hrun' hrun''
  have hrows := Option.some.inj (hread'.symm.trans hread)
  have hlength : entries'.length = entries.length := by
    simpa only [List.length_map] using congrArg List.length hrows
  have hentries (index : ℕ) (hindex : index < entries'.length) :
      mapRow hhdm' entries'[index] = mapRow hhdm entries[index] := by
    have hrow := congrArg (·[index]?) hrows
    simpa [hindex, hlength ▸ hindex] using hrow
  constructor
  · apply List.ext_getElem hlength
    intro index hindex _
    exact (mapRow_injective (hentries index hindex)).1
  · intro hne
    have hpos := List.length_pos_iff.mpr hne
    exact (mapRow_injective (hentries 0 (by omega))).2

end PenelopeOS.Limine
