import PenelopeOS.Console.Reports
import PenelopeOS.Memory.FrameEnumeration

/-!
# What is printed of the page frames

`InitialisePageFrames` logs what it does, `PrintPageFrames` prints the table that it fills, and
`printPageFrames` prints the pages of the memory map. On a map that passes `CheckBootPages`, the two dumps
show the same pages in the same order, and the log shows the start of memory that is assigned.
-/

namespace PenelopeOS.Memory

open Console Foundation Machine Limine

namespace PageFrames

variable {size : ℕ}

/-- The loop over the entries, with what it prints. -/
def archiveEntriesPrinted : List MemmapEntry → ℕ → BitVec 8 → ℕ → PageFrames size →
    Except Fault (List Item × PageFrames size)
  | [], _, _, _, frames => .ok ([], frames)
  | entry :: entries, i, initialBlockIndex, frameIndex, frames =>
    if entry.type = memmapUsable then do
      let initialBlockIndex :=
        if initialBlockIndex = 0 then BitVec.ofNat 8 i else initialBlockIndex
      let usable : List Item := [.text (ascii "usable chunk with base :: "), .word entry.base, .char 10]
      let (finished, frameIndex, frames) ←
        archivePages (entry.base + entry.length) (size + 1) entry.base frameIndex frames
      if finished then return (usable, frames)
      else
        let (start, frames) : List Item × PageFrames size :=
          if i = initialBlockIndex.toNat then
            ([.text (ascii "start of ram :: "), .word entry.base, .char 10],
              { frames with startOfRam := entry.base })
          else ([], frames)
        let archived : List Item :=
          [.text (ascii "finished archiving pages with base :: "), .word entry.base, .char 10]
        let (rest, frames) ← archiveEntriesPrinted entries (i + 1) initialBlockIndex frameIndex frames
        return (usable ++ start ++ archived ++ rest, frames)
    else archiveEntriesPrinted entries (i + 1) initialBlockIndex frameIndex frames

/-- `InitialisePageFrames`, with what it prints -/
def initialisePrinted (entries : List MemmapEntry) (frames : PageFrames size) :
    Except Fault (List Item × PageFrames size) := do
  let (items, frames) ← archiveEntriesPrinted entries 0 0 0 frames
  return ([.text (ascii "initiaialising Pageframes... "), .char 10] ++ items ++
    [.text (ascii "finished initialising page frames :: total :: "), .word (BitVec.ofNat 64 size),
      .text (ascii " / "), .word (countBootPages entries), .char 10], frames)

/-- `PrintPageFrames` -/
def printed (frames : PageFrames size) : List Item :=
  (List.finRange size).flatMap fun (i : Fin size) ↦
    [.text (ascii "page frame index :: "), .word (BitVec.ofNat 64 i), .text (ascii " :: "),
      .text (ascii " base address :: "), .word (frames.frameMap.get i).base, .text (ascii " :: "),
      .text (if (frames.frameMap.get i).count.slt 0 then ascii " free " else ascii " not in use "),
      .char 10]

end PageFrames

/-- What `printPageFrames` prints for the pages that it visits. -/
def printedPages (pages : List Word) : List Item :=
  pages.flatMap fun paddr ↦
    [.text (ascii "page: "), .word paddr, .text (ascii " to "), .word (paddr + 0x1000), .char 10]

/-! ## The log -/

variable {size : ℕ} {entries : List MemmapEntry} {frames frames' : PageFrames size} {out : Kostream}

theorem startOfRam_archivePages {stop paddr : Word} {fuel frameIndex : ℕ}
    {result : Bool × ℕ × PageFrames size}
    (h : PageFrames.archivePages stop fuel paddr frameIndex frames = .ok result) :
    result.2.2.startOfRam = frames.startOfRam := by
  induction fuel generalizing paddr frameIndex frames with
  | zero => cases h
  | succ fuel ih =>
    rw [PageFrames.archivePages] at h
    split_ifs at h with hlt
    · obtain ⟨written, hwrite, hrest⟩ := bind_eq_ok_iff.mp h
      have hstart : written.startOfRam = frames.startOfRam := by
        rw [PageFrames.write] at hwrite
        split_ifs at hwrite
        obtain rfl := Except.ok.inj hwrite
        rfl
      dsimp only at hrest
      split_ifs at hrest
      · obtain rfl := Except.ok.inj hrest
        exact hstart
      · exact (ih hrest).trans hstart
    · obtain rfl := Except.ok.inj h
      rfl

def startFront : List (BitVec 8) := ascii "start of ram :: "

section Mode

variable (hmode : out.mode ≠ .bin)

include hmode

/-- A line of the log that is not about the start of memory. -/
theorem tells_noStart {label : List (BitVec 8)} {other : BitVec 8} (hlabel : 10 ∉ label)
    (hother : label.head? = some other) (hne : 115 ≠ other) (value : Word) :
    Tells out startFront [.text label, .word value, .char 10] [] :=
  tells_row (.cons (shows_text hlabel (printsAs_word hmode value)) .nil)
    (List.forall_mem_singleton.mpr hlabel) (show startFront.head? = some 115 from rfl)
    (show _ = some other by rw [List.head?_cons, Option.bind_some, hother]) hne

/-- The log shows the start of memory whenever it is assigned, so what it shows last is what remains. -/
theorem archiveEntriesPrinted_spec {i frameIndex : ℕ} {initialBlockIndex : BitVec 8}
    (h : PageFrames.archiveEntries entries i initialBlockIndex frameIndex frames = .ok frames') :
    ∃ (items : List Item) (bases : List Word),
      PageFrames.archiveEntriesPrinted entries i initialBlockIndex frameIndex frames =
        .ok (items, frames') ∧ Tells out startFront items (bases.map BitVec.toNat) ∧
      frames'.startOfRam = bases.getLast?.getD frames.startOfRam := by
  induction entries generalizing i initialBlockIndex frameIndex frames with
  | nil =>
    obtain rfl := Except.ok.inj h
    exact ⟨[], [], rfl, tells_nil, rfl⟩
  | cons entry entries ih =>
    have hchunk := tells_noStart hmode (show 10 ∉ ascii "usable chunk with base :: " by decide) rfl
      (by decide) entry.base
    have harchived := tells_noStart hmode
      (show 10 ∉ ascii "finished archiving pages with base :: " by decide) rfl (by decide) entry.base
    rw [PageFrames.archiveEntries] at h
    rw [PageFrames.archiveEntriesPrinted]
    by_cases husable : entry.type = memmapUsable
    · rw [if_pos husable] at h ⊢
      dsimp only at h ⊢
      obtain ⟨⟨finished, frameIndex', archived⟩, hpages, hrest⟩ := bind_eq_ok_iff.mp h
      have hkept : archived.startOfRam = frames.startOfRam := startOfRam_archivePages hpages
      rw [hpages, ok_bind]
      dsimp only at hrest ⊢
      cases finished with
      | true =>
        rw [if_pos rfl] at hrest ⊢
        obtain rfl := Except.ok.inj hrest
        exact ⟨_, [], rfl, hchunk, hkept⟩
      | false =>
        rw [if_neg Bool.false_ne_true] at hrest ⊢
        by_cases hstart : i = (if initialBlockIndex = 0 then BitVec.ofNat 8 i else initialBlockIndex).toNat
        · rw [if_pos hstart] at hrest ⊢
          obtain ⟨items, bases, hprinted, htells, hlast⟩ := ih hrest
          have hline : Tells out startFront [.text startFront, .word entry.base, .char 10]
              [entry.base.toNat] := tells_report (by decide) (printsAs_word hmode entry.base)
          refine ⟨_, entry.base :: bases, bind_eq_ok_iff.mpr ⟨_, hprinted, rfl⟩,
            ((hchunk.append hline).append harchived).append htells, ?_⟩
          rw [hlast, List.getLast?_cons]
          cases bases.getLast? <;> rfl
        · rw [if_neg hstart] at hrest ⊢
          obtain ⟨items, bases, hprinted, htells, hlast⟩ := ih hrest
          refine ⟨_, bases, bind_eq_ok_iff.mpr ⟨_, hprinted, rfl⟩,
            ((hchunk.append tells_nil).append harchived).append htells, ?_⟩
          rw [hlast, hkept]
    · rw [if_neg husable] at h ⊢
      exact ih h

theorem initialisePrinted_spec (h : PageFrames.initialise entries frames = .ok frames') :
    ∃ (items : List Item) (bases : List Word), PageFrames.initialisePrinted entries frames =
        .ok (items, frames') ∧ Tells out startFront items (bases.map BitVec.toNat) ∧
      frames'.startOfRam = bases.getLast?.getD frames.startOfRam := by
  obtain ⟨items, bases, hprinted, htells, hlast⟩ := archiveEntriesPrinted_spec hmode h
  have hfirst : Tells out startFront [.text (ascii "initiaialising Pageframes... "), .char 10] [] :=
    tells_text (by decide) (by decide)
  have htotal : 10 ∉ ascii "finished initialising page frames :: total :: " := by decide
  have hslash : 10 ∉ ascii " / " := by decide
  have hfinished : Tells out startFront
      [.text (ascii "finished initialising page frames :: total :: "), .word (BitVec.ofNat 64 size),
        .text (ascii " / "), .word (countBootPages entries), .char 10] [] :=
    tells_row
      (.cons (shows_text htotal (printsAs_word hmode _)) <|
        .cons (shows_text hslash (printsAs_word hmode _)) .nil)
      (List.forall_mem_cons.mpr ⟨htotal, List.forall_mem_singleton.mpr hslash⟩)
      (show startFront.head? = some 115 from rfl) rfl (by decide)
  have hall := (hfirst.append htells).append hfinished
  rw [List.nil_append, List.append_nil] at hall
  exact ⟨_, bases, bind_eq_ok_iff.mpr ⟨_, hprinted, rfl⟩, hall, hlast⟩

end Mode

/-! ## The dumps -/

/-- What a line of the table says. -/
structure FrameReport where
  index : ℕ
  base : ℕ
  free : Bool
  deriving DecidableEq, Repr

def freeMark : List (BitVec 8) := ascii " free " ++ [13, 10]

def usedMark : List (BitVec 8) := ascii " not in use " ++ [13, 10]

def frameLabels : List (List (BitVec 8)) :=
  [ascii "page frame index :: ", ascii " :: " ++ ascii " base address :: "]

/-- The line at the front of the text. -/
def readFrame (out : Kostream) (text : List (BitVec 8)) :
    Option (FrameReport × List (BitVec 8)) :=
  match readRow (digitOf out.mode.base) out.mode.base (ascii " :: ") frameLabels text with
  | some ([index, base], rest) =>
    match takeFront freeMark rest with
    | (true, rest) => some (⟨index, base, true⟩, rest)
    | (false, rest) => (dropFront usedMark rest).map fun rest ↦ (⟨index, base, false⟩, rest)
  | _ => none

def pageLabels : List (List (BitVec 8)) := [ascii "page: ", ascii " to "]

section Mode

variable (hmode : out.mode ≠ .bin)

include hmode

theorem exists_frameRecord (index base : Word) (free : Bool) :
    ∃ text, out.write [.text (ascii "page frame index :: "), .word index, .text (ascii " :: "),
        .text (ascii " base address :: "), .word base, .text (ascii " :: "),
        .text (if free then ascii " free " else ascii " not in use "), .char 10] = .ok (text, out) ∧
      IsRecord (readFrame out) (fun _ ↦ True) text ⟨index.toNat, base.toNat, free⟩ := by
  have hindex : 10 ∉ ascii "page frame index :: " := by decide
  have hbase : out.write [.text (ascii " :: "), .text (ascii " base address :: ")] =
      .ok (ascii " :: " ++ ascii " base address :: ", out) := rfl
  have hmark : out.write [.text (ascii " :: ")] = .ok (ascii " :: ", out) := rfl
  obtain ⟨row, hwrite, hrow⟩ := exists_write_row
    (.cons (shows_text hindex (printsAs_word hmode index)) <|
      .cons (show Field.Shows out out.mode.base ⟨[.text (ascii " :: "), .text (ascii " base address :: ")],
          .word base⟩ (_, base.toNat) from ⟨hbase, printsAs_word hmode base⟩) .nil) hmark
  have hlast : out.write [.text (if free then ascii " free " else ascii " not in use "), .char 10] =
      .ok (if free then freeMark else usedMark, out) := by
    cases free <;> rfl
  have hdelimits : ∀ label ∈ [ascii " :: " ++ ascii " base address :: ", ascii " :: "],
      Delimits (digitOf out.mode.base) label := by
    simp only [List.forall_mem_cons]
    exact ⟨⟨32, _, rfl, digitOf_space out⟩, ⟨32, _, rfl, digitOf_space out⟩, List.forall_mem_nil _⟩
  refine ⟨_, Kostream.write_append hwrite hlast, fun rest _ ↦ ?_, fun _ ↦ trivial⟩
  have hread : readRow _ _ (ascii " :: ") frameLabels _ = some ([index.toNat, base.toNat], _) :=
    readRow_append hrow hdelimits ((if free then freeMark else usedMark) ++ rest)
  rw [List.append_assoc]
  unfold readFrame
  rw [hread]
  cases free with
  | true =>
    simp only [if_true, takeFront_append]
  | false =>
    have hused : ¬ freeMark <+: usedMark ++ rest :=
      not_prefix_of_take (show 2 ≤ usedMark.length by decide) (by decide) (by decide) rest
    simp only [Bool.false_eq_true, if_false, takeFront_absent hused, dropFront_append, Option.map_some]

theorem exists_pageRecord (paddr : Word) :
    ∃ text, out.write [.text (ascii "page: "), .word paddr, .text (ascii " to "), .word (paddr + 0x1000),
        .char 10] = .ok (text, out) ∧
      IsRecord (readRow (digitOf out.mode.base) out.mode.base [13, 10] pageLabels) (fun _ ↦ True) text
        [paddr.toNat, (paddr + 0x1000).toNat] := by
  have hpage : 10 ∉ ascii "page: " := by decide
  have hto : 10 ∉ ascii " to " := by decide
  obtain ⟨text, hwrite, hrow⟩ := exists_write_row
    (.cons (shows_text hpage (printsAs_word hmode paddr)) <|
      .cons (shows_text hto (printsAs_word hmode (paddr + 0x1000))) .nil)
    (show out.write [.char 10] = .ok ([13, 10], out) from rfl)
  refine ⟨text, hwrite, hrow.isRecord ?_⟩
  change ∀ label ∈ [ascii " to ", [13, 10]], Delimits (digitOf out.mode.base) label
  simp only [List.forall_mem_cons]
  exact ⟨⟨32, _, rfl, digitOf_space out⟩, ⟨13, _, rfl, digitOf_return out⟩, List.forall_mem_nil _⟩

/-- The dump of a table of frames. -/
theorem exists_write_printed (hsize : size ≤ 2 ^ 64) (frames : PageFrames size) :
    ∃ text, out.write frames.printed = .ok (text, out) ∧
      readMany (readFrame out) size text = some ((List.finRange size).map fun i ↦
        ⟨i, (frames.frameMap.get i).base.toNat, (frames.frameMap.get i).count.slt 0⟩, []) := by
  have hrecord (i : Fin size) := exists_frameRecord hmode (BitVec.ofNat 64 i)
    (frames.frameMap.get i).base ((frames.frameMap.get i).count.slt 0)
  have hindex (i : Fin size) : (BitVec.ofNat 64 i).toNat = i := by
    rw [BitVec.toNat_ofNat]
    omega
  simp only [hindex] at hrecord
  have hread := exists_write_records (List.finRange size) trivial fun i _ ↦ hrecord i
  rwa [List.length_finRange] at hread

/-- The dump of the pages of the memory map. -/
theorem exists_write_printedPages (pages : List Word) :
    ∃ text, out.write (printedPages pages) = .ok (text, out) ∧
      readMany (readRow (digitOf out.mode.base) out.mode.base [13, 10] pageLabels) pages.length text =
        some (pages.map fun paddr ↦ [paddr.toNat, (paddr + 0x1000).toNat], []) :=
  exists_write_records pages trivial fun paddr _ ↦ exists_pageRecord hmode paddr

/-- On a map that passes `CheckBootPages`, the lines of the table are the first lines of the memory map,
in the same order, and all of its frames are free. The log of the initialisation shows the start of memory
that is assigned. -/
theorem frameDumps_agree (map : MemoryMap) (hboot : CheckBootPages availablePages map.entries)
    (before : PageFrames availablePages) :
    ∃ items frames pages, PageFrames.initialisePrinted map.entries before = .ok (items, frames) ∧
      printPageFrames map.entries = .ok pages ∧
      (∃ text, out.write items = .ok (text, out) ∧ ∃ bases : List Word,
        out.reports startFront text = bases.map BitVec.toNat ∧
          frames.startOfRam = bases.getLast?.getD before.startOfRam) ∧
      ∃ table reports dump rows, out.write frames.printed = .ok (table, out) ∧
        readMany (readFrame out) availablePages table = some (reports, []) ∧
        out.write (printedPages pages) = .ok (dump, out) ∧
        readMany (readRow (digitOf out.mode.base) out.mode.base [13, 10] pageLabels) pages.length dump =
          some (rows, []) ∧
        ∀ k < availablePages, reports[k]? = rows[k]?.map fun row ↦ ⟨k, row.headD 0, true⟩ := by
  obtain ⟨frames, pages, hrun, hprint, hpages, henough, -, hframes, -⟩ :=
    initialise_enumerates_pages map (by decide) hboot before
  obtain ⟨items, bases, hprinted, ⟨text, hwrite, hreports⟩, hlast⟩ := initialisePrinted_spec hmode hrun
  have hsize : availablePages ≤ 2 ^ 64 := by decide
  obtain ⟨table, htable, hread⟩ := exists_write_printed hmode hsize frames
  obtain ⟨dump, hdump, hrows⟩ := exists_write_printedPages hmode pages
  refine ⟨items, frames, pages, hprinted, hprint, ⟨text, hwrite, bases, ?_, hlast⟩, table, _, dump, _,
    htable, hread, hdump, hrows, fun k hk ↦ ?_⟩
  · have hall := hreports []
    rw [List.append_nil] at hall
    exact hall.trans (List.append_nil _)
  · have hframe := hframes k hk
    rw [Vector.getElem?_eq_getElem hk] at hframe
    obtain ⟨paddr, hpaddr, hpage⟩ := Option.map_eq_some_iff.mp hframe.symm
    have hindex : (List.finRange availablePages)[k]? = some ⟨k, hk⟩ := by
      rw [List.getElem?_eq_getElem (by rwa [List.length_finRange]), List.getElem_finRange]
      rfl
    have hget : frames.frameMap.get ⟨k, hk⟩ = ⟨paddr, 0, -1⟩ := hpage.symm
    rw [List.getElem?_map, hindex, Option.map_some, hget, List.getElem?_map, hpaddr, Option.map_some,
      Option.map_some]
    rfl

end Mode

theorem frameDumps_agree_touchingBanks :
    ∃ items frames, PageFrames.initialisePrinted touchingBanks.entries (.zero availablePages) =
        .ok (items, frames) ∧
      ∃ table reports dump rows, Kostream.write ⟨.hex⟩ frames.printed = .ok (table, ⟨.hex⟩) ∧
        readMany (readFrame ⟨.hex⟩) availablePages table = some (reports, []) ∧
        (∃ pages, readMany (readRow (digitOf 16) 16 [13, 10] pageLabels) pages dump = some (rows, [])) ∧
        ∀ k < availablePages, reports[k]? = rows[k]?.map fun row ↦ ⟨k, row.headD 0, true⟩ := by
  have hboot : CheckBootPages availablePages touchingBanks.entries := by
    unfold CheckBootPages
    decide
  obtain ⟨items, frames, pages, hprinted, -, -, table, reports, dump, rows, htable, hreports, -, hrows,
    hagree⟩ := frameDumps_agree (show (⟨.hex⟩ : Kostream).mode ≠ .bin by decide) touchingBanks hboot
      (.zero availablePages)
  exact ⟨items, frames, hprinted, table, reports, dump, rows, htable, hreports, ⟨pages.length, hrows⟩,
    hagree⟩

end PenelopeOS.Memory
