import PenelopeOS.Memory.BootTables

/-!
# Dumps of single tables

`ParsePM4L`, `ParsePDPT`, `ParsePD`, `ParsePT` and `ParsePageTableCommon` print the entries of one table,
and `ParsePage` the bytes of a page. The text determines what is printed: all of the 512 words of a table
can be read back from it, with their flags, and all of the 4096 bytes of a page. The table or page has to
be readable where it is; otherwise the loop ends by an exception.
-/

namespace PenelopeOS.Memory

open Console Foundation Machine

/-- `PagingEntryDescriptor::Writeable` -/
def writeable (entry : Word) : Bool := entry.getLsbD 1

/-- The loop over a table, with the text in front of the index. -/
def parseEntries (label : List (BitVec 8)) (memory : Memory) (cr3 table : Word) :
    Except AccessFault (List Item) :=
  forEntries table fun j entry ↦ do
    let pe ← loadAt memory cr3 entry
    return [.text label, counter j, .text (ascii " :: value :: "), .word pe, .char 10] ++
      (if present pe then [.text (ascii "present"), .char 10] else []) ++
      if writeable pe then [.text (ascii "writeable"), .char 10] else []

def parsePageTableCommon : Memory → Word → Word → Except AccessFault (List Item) :=
  parseEntries (ascii "pml4e entry :: ")

def parsePM4L : Memory → Word → Word → Except AccessFault (List Item) :=
  parseEntries (ascii "pml4e entry :: ")

def parsePDPT : Memory → Word → Word → Except AccessFault (List Item) :=
  parseEntries (ascii "pdpte entry :: ")

def parsePD : Memory → Word → Word → Except AccessFault (List Item) :=
  parseEntries (ascii "pde entry :: ")

def parsePT : Memory → Word → Word → Except AccessFault (List Item) :=
  parseEntries (ascii "pte entry :: ")

/-- `ParsePage` -/
def parsePage (memory : Memory) (cr3 paddr : Word) : Except AccessFault (List Item) := do
  let lines ← (List.range 4096).mapM fun j ↦ do
    let pch ← access memory cr3 false false (paddr + BitVec.ofNat 64 j)
    return [.char (memory pch), .char 10]
  return lines.flatten

/-- The bytes of a page are read where they are. -/
def ReadablePage (memory : Memory) (cr3 paddr : Word) : Prop :=
  ∀ j < 4096, access memory cr3 false false (paddr + BitVec.ofNat 64 j) = .ok (paddr + BitVec.ofNat 64 j)

/-! ## Reading -/

def presentLine : List (BitVec 8) := ascii "present" ++ [13, 10]

def writeableLine : List (BitVec 8) := ascii "writeable" ++ [13, 10]

/-- What a dump tells about an entry. -/
structure EntryReport where
  index : ℕ
  value : ℕ
  present : Bool
  writeable : Bool
  deriving DecidableEq, Repr

/-- The report of an entry at the front of a text. -/
def readEntry (out : Kostream) (label text : List (BitVec 8)) :
    Option (EntryReport × List (BitVec 8)) :=
  match readRow (digitOf out.mode.base) out.mode.base [13, 10] [label, ascii " :: value :: "] text with
  | some ([index, value], rest) =>
    let (present, rest) := takeFront presentLine rest
    let (writeable, rest) := takeFront writeableLine rest
    some (⟨index, value, present, writeable⟩, rest)
  | _ => none

/-- The byte at the front of the dump of a page. -/
def readByte (text : List (BitVec 8)) : Option (BitVec 8 × List (BitVec 8)) :=
  match takeFront [13, 10, 13, 10] text, text with
  | (true, rest), _ => some (10, rest)
  | (false, _), byte :: rest => if [13, 10] <+: rest then some (byte, rest.drop 2) else none
  | (false, _), [] => none

/-- What can follow an entry. -/
def FollowsEntry (rest : List (BitVec 8)) : Prop :=
  ¬ presentLine <+: rest ∧ ¬ writeableLine <+: rest

def reportEntry (memory : Memory) (table : Word) (j : ℕ) : EntryReport :=
  let entry := load64 memory (table + 8 * BitVec.ofNat 64 j)
  ⟨j, entry.toNat, present entry, writeable entry⟩

/-- The loop ends, and its insertions write a text from which the table is read back. -/
def ReadsBack (out : Kostream) (label : List (BitVec 8)) (run : Except AccessFault (List Item))
    (memory : Memory) (table : Word) : Prop :=
  ∃ items text, run = .ok items ∧ out.write items = .ok (text, out) ∧
    readMany (readEntry out label) 512 text = some ((List.range 512).map (reportEntry memory table), [])

variable {out : Kostream} {label row : List (BitVec 8)} {memory : Memory} {table cr3 : Word}

/-- The optional lines are told apart from each other and from what follows. -/
theorem takeFront_flags {rest : List (BitVec 8)} (hrest : FollowsEntry rest) (p w : Bool) :
    takeFront presentLine
        ((if p then presentLine else []) ++ ((if w then writeableLine else []) ++ rest)) =
      (p, (if w then writeableLine else []) ++ rest) ∧
    takeFront writeableLine ((if w then writeableLine else []) ++ rest) = (w, rest) := by
  have hdiffer : ¬ presentLine <+: writeableLine ++ rest :=
    not_prefix_of_take (show 1 ≤ writeableLine.length by decide) (by decide) (by decide) rest
  cases p <;> cases w
  · exact ⟨takeFront_absent hrest.1, takeFront_absent hrest.2⟩
  · exact ⟨takeFront_absent hdiffer, takeFront_append writeableLine rest⟩
  · exact ⟨takeFront_append presentLine rest, takeFront_absent hrest.2⟩
  · exact ⟨takeFront_append presentLine _, takeFront_append writeableLine rest⟩

/-- The text in front of an index is no front of an optional line. -/
structure IsEntryLabel (label : List (BitVec 8)) : Prop where
  newline : 10 ∉ label
  length : 2 ≤ label.length
  present : presentLine.take 2 ≠ label.take 2
  writeable : writeableLine.take 2 ≠ label.take 2

theorem IsEntryLabel.follows (h : IsEntryLabel label) (hrow : label <+: row) (rest : List (BitVec 8)) :
    FollowsEntry (row ++ rest) := by
  obtain ⟨back, rfl⟩ := hrow
  rw [List.append_assoc]
  exact ⟨not_prefix_of_take h.length h.present (by decide) _,
    not_prefix_of_take h.length h.writeable (by decide) _⟩

/-- The text of one entry. -/
theorem exists_record (hmode : out.mode ≠ .bin) (h : IsEntryLabel label) (memory : Memory) (table : Word)
    {j : ℕ} (hj : j < 512) :
    ∃ text, out.write ([.text label, counter j, .text (ascii " :: value :: "),
          .word (load64 memory (table + 8 * BitVec.ofNat 64 j)), .char 10] ++
        (if present (load64 memory (table + 8 * BitVec.ofNat 64 j)) then
          [.text (ascii "present"), .char 10] else []) ++
        if writeable (load64 memory (table + 8 * BitVec.ofNat 64 j)) then
          [.text (ascii "writeable"), .char 10] else []) = .ok (text, out) ∧
      IsRecord (readEntry out label) FollowsEntry text (reportEntry memory table j) := by
  rw [reportEntry]
  generalize load64 memory (table + 8 * BitVec.ofNat 64 j) = entry
  have hvalue : 10 ∉ ascii " :: value :: " := by decide
  obtain ⟨row, hwrite, hrow⟩ := exists_write_row
    (.cons (shows_text h.newline (printsAs_counter out j)) <|
      .cons (shows_text hvalue (printsAs_word hmode entry)) .nil)
    (show out.write [.char 10] = .ok ([13, 10], out) from rfl)
  have hindex : (BitVec.ofNat 16 j).toNat = j := by
    rw [BitVec.toNat_ofNat]
    omega
  have hpresent : out.write (if present entry then [.text (ascii "present"), .char 10] else []) =
      .ok (if present entry then presentLine else [], out) := by
    cases present entry <;> rfl
  have hwriteable : out.write (if writeable entry then [.text (ascii "writeable"), .char 10] else []) =
      .ok (if writeable entry then writeableLine else [], out) := by
    cases writeable entry <;> rfl
  refine ⟨_, Kostream.write_append (Kostream.write_append hwrite hpresent) hwriteable, fun rest hrest ↦ ?_,
    fun rest ↦ ?_⟩
  · obtain ⟨htake, htake'⟩ := takeFront_flags hrest (present entry) (writeable entry)
    have hread := readRow_append hrow (fun other hother ↦ ?_)
      ((if present entry then presentLine else []) ++
        ((if writeable entry then writeableLine else []) ++ rest))
    · change readRow _ _ [13, 10] [label, ascii " :: value :: "] _ =
        some ([(BitVec.ofNat 16 j).toNat, entry.toNat], _) at hread
      rw [List.append_assoc, List.append_assoc, readEntry, hread, hindex]
      simp only [htake, htake']
    · change other ∈ [ascii " :: value :: ", [13, 10]] at hother
      simp only [List.mem_cons, List.not_mem_nil, or_false] at hother
      rcases hother with rfl | rfl
      · exact ⟨32, _, rfl, digitOf_space out⟩
      · exact ⟨13, _, rfl, digitOf_return out⟩
  · have hlabels : ∀ other ∈ [label, ascii " :: value :: "], 10 ∉ other :=
      List.forall_mem_cons.mpr ⟨h.newline, List.forall_mem_singleton.mpr hvalue⟩
    obtain ⟨body, hbody, -, hstart⟩ := hrow.exists_body (digitOf_newline out) hlabels
    rw [List.append_assoc, List.append_assoc]
    refine h.follows ?_ _
    rw [hbody]
    exact (hstart label rfl).trans (List.prefix_append body _)

/-- A dump is read back entry by entry. -/
theorem parseEntries_readsBack (hmode : out.mode ≠ .bin) (h : IsEntryLabel label)
    (hreadable : Readable memory cr3 table) :
    ReadsBack out label (parseEntries label memory cr3 table) memory table := by
  have hempty : FollowsEntry [] := by
    constructor <;> decide
  obtain ⟨text, hwrite, hread⟩ := exists_write_records (List.range 512) hempty fun j hj ↦
    exists_record hmode h memory table (List.mem_range.mp hj)
  rw [List.length_range] at hread
  refine ⟨_, text, forEntries_eq_ok fun j hj ↦ ?_, hwrite, hread⟩
  rw [hreadable.loadAt_eq hj]
  rfl

/-- A byte of a page is read back, also when it is a part of a line break itself. -/
theorem exists_byteRecord (out : Kostream) (byte : BitVec 8) :
    ∃ text, out.write [.char byte, .char 10] = .ok (text, out) ∧
      IsRecord readByte (fun _ ↦ True) text byte := by
  by_cases hbyte : byte = 10
  · subst hbyte
    exact ⟨[13, 10, 13, 10], rfl, fun rest _ ↦ rfl, fun _ ↦ trivial⟩
  · have hput : out.put (.char byte) = .ok ([byte], out) := by
      simp only [Kostream.put, if_neg hbyte]
      rfl
    refine ⟨[byte] ++ [13, 10], Kostream.write_cons hput rfl, fun rest _ ↦ ?_, fun _ ↦ trivial⟩
    change readByte (byte :: 13 :: 10 :: rest) = some (byte, rest)
    have hbreak : ¬ [13, 10, 13, 10] <+: byte :: 13 :: 10 :: rest := by
      rintro ⟨back, hback⟩
      exact absurd (List.cons.inj (List.cons.inj hback).2).1 (by decide)
    unfold readByte
    rw [takeFront_absent hbreak]
    exact if_pos (List.prefix_append [13, 10] rest)

theorem parsePage_readsBack (out : Kostream) {paddr : Word} (hreadable : ReadablePage memory cr3 paddr) :
    ∃ items text, parsePage memory cr3 paddr = .ok items ∧ out.write items = .ok (text, out) ∧
      readMany readByte 4096 text =
        some ((List.range 4096).map fun j ↦ memory (paddr + BitVec.ofNat 64 j), []) := by
  obtain ⟨text, hwrite, hread⟩ := exists_write_records (List.range 4096) trivial fun j _ ↦
    exists_byteRecord out (memory (paddr + BitVec.ofNat 64 j))
  rw [List.length_range] at hread
  refine ⟨_, text, ?_, hwrite, hread⟩
  rw [parsePage, mapM_eq_ok fun j hj ↦ by rw [hreadable j (List.mem_range.mp hj)]; rfl]
  rfl

/-- Each of the dumps determines its table or page, where this is read where it is. -/
theorem dumps_readBack (out : Kostream) (memory : Memory) (cr3 table : Word) :
    (out.mode ≠ .bin → Readable memory cr3 table →
      ReadsBack out (ascii "pml4e entry :: ") (parsePageTableCommon memory cr3 table) memory table ∧
        ReadsBack out (ascii "pml4e entry :: ") (parsePM4L memory cr3 table) memory table ∧
        ReadsBack out (ascii "pdpte entry :: ") (parsePDPT memory cr3 table) memory table ∧
        ReadsBack out (ascii "pde entry :: ") (parsePD memory cr3 table) memory table ∧
        ReadsBack out (ascii "pte entry :: ") (parsePT memory cr3 table) memory table) ∧
      (ReadablePage memory cr3 table →
        ∃ items text, parsePage memory cr3 table = .ok items ∧ out.write items = .ok (text, out) ∧
          readMany readByte 4096 text =
            some ((List.range 4096).map fun j ↦ memory (table + BitVec.ofNat 64 j), [])) := by
  have hpml4e : IsEntryLabel (ascii "pml4e entry :: ") := ⟨by decide, by decide, by decide, by decide⟩
  have hpdpte : IsEntryLabel (ascii "pdpte entry :: ") := ⟨by decide, by decide, by decide, by decide⟩
  have hpde : IsEntryLabel (ascii "pde entry :: ") := ⟨by decide, by decide, by decide, by decide⟩
  have hpte : IsEntryLabel (ascii "pte entry :: ") := ⟨by decide, by decide, by decide, by decide⟩
  refine ⟨fun hmode hreadable ↦ ?_, parsePage_readsBack out⟩
  exact ⟨parseEntries_readsBack hmode hpml4e hreadable, parseEntries_readsBack hmode hpml4e hreadable,
    parseEntries_readsBack hmode hpdpte hreadable, parseEntries_readsBack hmode hpde hreadable,
    parseEntries_readsBack hmode hpte hreadable⟩

theorem readablePage_selfMapped : ReadablePage selfMapped 0x1000 0x4000 := by
  intro j hj
  have hplace : (0x4000 + BitVec.ofNat 64 j : Word).toNat = 0x4000 + j := by
    have htable : (0x4000 : Word).toNat = 0x4000 := rfl
    rw [BitVec.toNat_add, BitVec.toNat_ofNat, htable]
    omega
  exact access_selfMapped (by omega) (by omega) false

/-- A page table with four entries, read as a table and as a page. -/
theorem dumps_readBack_selfMapped :
    (∃ items text, parsePT selfMapped 0x1000 0x4000 = .ok items ∧
      Kostream.write ⟨.hex⟩ items = .ok (text, ⟨.hex⟩) ∧
      (readMany (readEntry ⟨.hex⟩ (ascii "pte entry :: ")) 512 text).map (fun read ↦ read.1.take 2) =
        some [⟨0, 0, false, false⟩, ⟨1, 0x1003, true, true⟩]) ∧
    ∃ items text, parsePage selfMapped 0x1000 0x4000 = .ok items ∧
      Kostream.write ⟨.bin⟩ items = .ok (text, ⟨.bin⟩) ∧
      (readMany readByte 4096 text).map (fun read ↦ read.1.take 10) =
        some [0, 0, 0, 0, 0, 0, 0, 0, 3, 0x10] := by
  constructor
  · obtain ⟨-, -, -, -, items, text, hrun, hwrite, hread⟩ :=
      (dumps_readBack ⟨.hex⟩ selfMapped 0x1000 0x4000).1 (by decide) (readable_selfMapped (by decide))
    refine ⟨items, text, hrun, hwrite, ?_⟩
    rw [hread]
    decide +kernel
  · obtain ⟨items, text, hrun, hwrite, hread⟩ :=
      (dumps_readBack ⟨.bin⟩ selfMapped 0x1000 0x4000).2 readablePage_selfMapped
    refine ⟨items, text, hrun, hwrite, ?_⟩
    rw [hread]
    decide +kernel

end PenelopeOS.Memory
