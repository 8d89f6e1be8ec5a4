import PenelopeOS.Cpu.GateLog
import PenelopeOS.Limine.MemoryMap

/-!
# What is logged of the segments

`initialiseGDT` prints the base of every descriptor and the parts that it is cut into. The segments of
the kernel have no base. The log of the task segment shows what the task register is loaded with, and
the last lines show the base of the table register.
-/

namespace PenelopeOS.Cpu

open Console Foundation Limine Machine

/-- What `constructSegtor` prints. -/
def segmentItems (base_address : Word) (limit : BitVec 16) (accessbyte flagslimit : BitVec 8) :
    List Item :=
  let descriptor := constructSegtor base_address limit accessbyte flagslimit
  [.text (ascii "constructin segtor: "), .char 10, .text (ascii "vaddr: "), .word base_address,
    .char 10, .text (ascii "vaddr0: "), .short descriptor.base0,
    .char 10, .text (ascii "vaddr1: "), .byte descriptor.base1,
    .char 10, .text (ascii "vaddr2: "), .byte descriptor.base2, .char 10]

/-- What `constructTsstor` prints. -/
def taskItems (base_address : Word) (limit : BitVec 32) : List Item :=
  let descriptor := constructTsstor base_address limit
  [.mode .hex, .text (ascii "in constructTsstor"), .char 10, .text (ascii "vaddr: "),
    .word base_address, .char 10, .text (ascii "vaddr0: "), .short descriptor.base0,
    .char 10, .text (ascii "vaddr1: "), .byte descriptor.base1,
    .char 10, .text (ascii "vaddr2: "), .byte descriptor.base2,
    .char 10, .text (ascii "vaddr3: "), .number int_le_word descriptor.base3, .char 10]

/-- What `setupGdt` prints. -/
def setupItems (tss : Word) : List Item :=
  segmentItems 0 0 0 0 ++ segmentItems 0 0xFFFF 0b10011010 0b10101111 ++
    segmentItems 0 0xFFFF 0b10010010 0b11001111 ++ segmentItems 0 0xFFFF 0b11111010 0b10101111 ++
    segmentItems 0 0xFFFF 0b11110010 0b11001111 ++ taskItems tss (sizeofTss - 1)

/-- What `initialiseGDT` prints. -/
def gdtItems (hhdm : Word) (globals : Globals) : List Item :=
  [.text (ascii "INITIALISAING GDT"), .char 10] ++ setupItems globals.tss ++
    [.text (ascii "gdt vbase: "), .word globals.table, .char 10,
      .text (ascii "gdt pbase: "), .word (vaddrToPaddr hhdm globals.table), .char 10]

def segmentLabels : List (List (BitVec 8)) :=
  [ascii "constructin segtor: " ++ [13, 10] ++ ascii "vaddr: ", [13, 10] ++ ascii "vaddr0: ",
    [13, 10] ++ ascii "vaddr1: ", [13, 10] ++ ascii "vaddr2: "]

def taskLabels : List (List (BitVec 8)) :=
  [ascii "in constructTsstor" ++ [13, 10] ++ ascii "vaddr: ", [13, 10] ++ ascii "vaddr0: ",
    [13, 10] ++ ascii "vaddr1: ", [13, 10] ++ ascii "vaddr2: ", [13, 10] ++ ascii "vaddr3: ",
    [13, 10] ++ ascii "gdt vbase: ", [13, 10] ++ ascii "gdt pbase: "]

/-- The numbers of five segments, in the mode of the beginning, and those of the task segment and the
table. -/
def readSegments (mode : Intmode) (text : List (BitVec 8)) : Option (List (List ℕ) × List ℕ) :=
  (dropFront (ascii "INITIALISAING GDT" ++ [13, 10]) text).bind fun rest ↦
    (readMany (readRow (digitOf mode.base) mode.base [13, 10] segmentLabels) 5 rest).bind
      fun segments ↦ (readRow (digitOf 16) 16 [13, 10] taskLabels segments.2).map fun task ↦
        (segments.1, task.1)

variable {globals : Globals} {out : Kostream}

/-- The text of a segment without a base. -/
theorem exists_segmentRecord (hmode : out.mode ≠ .bin) (limit : BitVec 16)
    (accessbyte flagslimit : BitVec 8) :
    ∃ text, out.write (segmentItems 0 limit accessbyte flagslimit) = .ok (text, out) ∧
      IsRecord (readRow (digitOf out.mode.base) out.mode.base [13, 10] segmentLabels) (fun _ ↦ True) text
        [0, 0, 0, 0] := by
  have hnext (label : List (BitVec 8)) (hlabel : 10 ∉ label) {width : ℕ} (hwidth : width ≤ 64) :
      Field.Shows out out.mode.base ⟨[.char 10, .text label], .number hwidth (0 : BitVec width)⟩
        ([13, 10] ++ label, 0) :=
    shows_nextLine hlabel (printsAs_unsigned hmode hwidth 0)
  have hfirst := shows_underLine (show 10 ∉ ascii "constructin segtor: " by decide)
    (show 10 ∉ ascii "vaddr: " by decide) (printsAs_word hmode 0)
  obtain ⟨text, hwrite, hrow⟩ := exists_write_row
    (.cons hfirst <| .cons (hnext (ascii "vaddr0: ") (by decide) (show 16 ≤ 64 by decide)) <|
      .cons (hnext (ascii "vaddr1: ") (by decide) (show 8 ≤ 64 by decide)) <|
      .cons (hnext (ascii "vaddr2: ") (by decide) (show 8 ≤ 64 by decide)) .nil)
    (show out.write [.char 10] = .ok ([13, 10], out) from rfl)
  refine ⟨text, hwrite, hrow.isRecord ?_⟩
  have hreturn := digitOf_return out
  simp only [List.map_cons, List.map_nil, List.tail_cons, List.cons_append, List.nil_append,
    List.forall_mem_cons]
  exact ⟨⟨13, _, rfl, hreturn⟩, ⟨13, _, rfl, hreturn⟩, ⟨13, _, rfl, hreturn⟩, ⟨13, _, rfl, hreturn⟩,
    List.forall_mem_nil _⟩

/-- The numbers of the task segment and the table. -/
def taskRow (hhdm : Word) (globals : Globals) : List ℕ :=
  let descriptor := constructTsstor globals.tss (sizeofTss - 1)
  [globals.tss.toNat, descriptor.base0.toNat, descriptor.base1.toNat, descriptor.base2.toNat,
    descriptor.base3.toNat, globals.table.toNat, (vaddrToPaddr hhdm globals.table).toNat]

/-- The text behind the segments. -/
theorem exists_taskText (hhdm : Word) (globals : Globals) (out : Kostream) :
    ∃ text, out.write (taskItems globals.tss (sizeofTss - 1) ++
        [.text (ascii "gdt vbase: "), .word globals.table, .char 10,
          .text (ascii "gdt pbase: "), .word (vaddrToPaddr hhdm globals.table), .char 10]) =
        .ok (text, ⟨.hex⟩) ∧
      ∀ rest, readRow (digitOf 16) 16 [13, 10] taskLabels (text ++ rest) =
        some (taskRow hhdm globals, rest) := by
  have hmode : (⟨.hex⟩ : Kostream).mode ≠ .bin := by decide
  have hnext (label : List (BitVec 8)) (hlabel : 10 ∉ label) {width : ℕ} (hwidth : width ≤ 64)
      (value : BitVec width) :
      Field.Shows ⟨.hex⟩ 16 ⟨[.char 10, .text label], .number hwidth value⟩
        ([13, 10] ++ label, value.toNat) :=
    shows_nextLine hlabel (printsAs_unsigned hmode hwidth value)
  have hfirst : Field.Shows ⟨.hex⟩ 16
      ⟨[.text (ascii "in constructTsstor"), .char 10, .text (ascii "vaddr: ")], .word globals.tss⟩
      (ascii "in constructTsstor" ++ [13, 10] ++ ascii "vaddr: ", globals.tss.toNat) :=
    shows_underLine (by decide) (by decide) (printsAs_word hmode globals.tss)
  set descriptor := constructTsstor globals.tss (sizeofTss - 1) with hdescriptor
  obtain ⟨text, hwrite, hrow⟩ := exists_write_row
    (.cons hfirst <|
      .cons (hnext (ascii "vaddr0: ") (by decide) (show 16 ≤ 64 by decide) descriptor.base0) <|
      .cons (hnext (ascii "vaddr1: ") (by decide) (show 8 ≤ 64 by decide) descriptor.base1) <|
      .cons (hnext (ascii "vaddr2: ") (by decide) (show 8 ≤ 64 by decide) descriptor.base2) <|
      .cons (hnext (ascii "vaddr3: ") (by decide) int_le_word descriptor.base3) <|
      .cons (hnext (ascii "gdt vbase: ") (by decide) le_rfl globals.table) <|
      .cons (hnext (ascii "gdt pbase: ") (by decide) le_rfl (vaddrToPaddr hhdm globals.table)) .nil)
    (show Kostream.write ⟨.hex⟩ [.char 10] = .ok ([13, 10], ⟨.hex⟩) from rfl)
  have hput : out.put (.mode .hex) = .ok ([], ⟨.hex⟩) := rfl
  refine ⟨text, Kostream.write_cons hput hwrite, readRow_append hrow ?_⟩
  have hreturn := digitOf_return ⟨.hex⟩
  change ∀ label ∈ taskLabels.tail ++ [[13, 10]], Delimits (digitOf 16) label
  simp only [taskLabels, List.tail_cons, List.cons_append, List.nil_append, List.forall_mem_cons]
  exact ⟨⟨13, _, rfl, hreturn⟩, ⟨13, _, rfl, hreturn⟩, ⟨13, _, rfl, hreturn⟩, ⟨13, _, rfl, hreturn⟩,
    ⟨13, _, rfl, hreturn⟩, ⟨13, _, rfl, hreturn⟩, ⟨13, _, rfl, hreturn⟩, List.forall_mem_nil _⟩

def heading : List (BitVec 8) := ascii "INITIALISAING GDT" ++ [13, 10]

/-- The parts of the log, each of which is read back whatever follows. -/
theorem exists_gdtTexts (hmode : out.mode ≠ .bin) (hhdm : Word) (globals : Globals) :
    ∃ segments task,
      out.write (gdtItems hhdm globals) = .ok (heading ++ (segments ++ task), ⟨.hex⟩) ∧
      (∀ rest, readMany (readRow (digitOf out.mode.base) out.mode.base [13, 10] segmentLabels) 5
        (segments ++ rest) = some (List.replicate 5 [0, 0, 0, 0], rest)) ∧
      ∀ rest, readRow (digitOf 16) 16 [13, 10] taskLabels (task ++ rest) =
        some (taskRow hhdm globals, rest) := by
  let segments : List (BitVec 16 × BitVec 8 × BitVec 8) :=
    [(0, 0, 0), (0xFFFF, 0b10011010, 0b10101111), (0xFFFF, 0b10010010, 0b11001111),
      (0xFFFF, 0b11111010, 0b10101111), (0xFFFF, 0b11110010, 0b11001111)]
  obtain ⟨text, hwrite, hread⟩ := exists_write_records_rest segments
    fun segment _ ↦ exists_segmentRecord hmode segment.1 segment.2.1 segment.2.2
  obtain ⟨last, hlast, hlastRead⟩ := exists_taskText hhdm globals out
  have hheading : out.write [.text (ascii "INITIALISAING GDT"), .char 10] = .ok (heading, out) := rfl
  refine ⟨text, last, ?_, fun rest ↦ hread rest trivial, hlastRead⟩
  have hitems : gdtItems hhdm globals = [.text (ascii "INITIALISAING GDT"), .char 10] ++
      (segments.flatMap (fun segment ↦ segmentItems 0 segment.1 segment.2.1 segment.2.2) ++
        (taskItems globals.tss (sizeofTss - 1) ++ [.text (ascii "gdt vbase: "), .word globals.table,
          .char 10, .text (ascii "gdt pbase: "), .word (vaddrToPaddr hhdm globals.table),
          .char 10])) := by
    simp only [gdtItems, setupItems, segments, List.flatMap_cons, List.flatMap_nil, List.append_assoc,
      List.append_nil]
  rw [hitems]
  exact Kostream.write_append hheading (Kostream.write_append hwrite hlast)

/-- The whole log is read back. -/
theorem exists_write_gdtItems (hmode : out.mode ≠ .bin) (hhdm : Word) (globals : Globals) :
    ∃ text, out.write (gdtItems hhdm globals) = .ok (text, ⟨.hex⟩) ∧
      readSegments out.mode text = some (List.replicate 5 [0, 0, 0, 0], taskRow hhdm globals) := by
  obtain ⟨segments, task, hwrite, hsegments, htask⟩ := exists_gdtTexts hmode hhdm globals
  refine ⟨_, hwrite, ?_⟩
  have hend := htask []
  rw [List.append_nil] at hend
  change ((dropFront heading (heading ++ (segments ++ task))).bind _) = _
  rw [dropFront_append, Option.bind_some, hsegments, Option.bind_some, hend]
  rfl

/-- The log shows what the processor is loaded with. The segments in front have no base, and the parts of
the task segment make up the base that the task register is loaded with. -/
theorem segments_logged (hmode : out.mode ≠ .bin) (hhdm : Word) (globals : Globals) (system : System) :
    ∃ text loaded part0 part1 part2 part3,
      out.write (gdtItems hhdm globals) = .ok (text, ⟨.hex⟩) ∧
      initialiseGDT globals system = .ok loaded ∧
      readSegments out.mode text = some (List.replicate 5 [0, 0, 0, 0],
        [loaded.tr.base.toNat, part0, part1, part2, part3, loaded.gdtr.base.toNat,
          (vaddrToPaddr hhdm loaded.gdtr.base).toNat]) ∧
      loaded.tr.base.toNat = part0 + 2 ^ 16 * part1 + 2 ^ 24 * part2 + 2 ^ 32 * part3 := by
  obtain ⟨text, hwrite, hread⟩ := exists_write_gdtItems hmode hhdm globals
  obtain ⟨loaded, hloaded, hsegments⟩ := initialiseGDT_loads globals system
  obtain ⟨hbase0, hbase1, hbase2, hbase3, -⟩ := toNat_constructTsstor globals.tss (sizeofTss - 1)
  set descriptor := constructTsstor globals.tss (sizeofTss - 1) with hdescriptor
  refine ⟨text, loaded, descriptor.base0.toNat, descriptor.base1.toNat, descriptor.base2.toNat,
    descriptor.base3.toNat, hwrite, hloaded, ?_, ?_⟩
  · rw [hread, taskRow, hsegments.tr, hsegments.gdtr]
  · rw [hsegments.tr, hbase0, hbase1, hbase2, hbase3]
    have hbound := globals.tss.isLt
    change globals.tss.toNat = _
    omega

theorem segments_logged_paged :
    ∃ text loaded, (⟨.dec⟩ : Kostream).write (gdtItems 0xffffffff80000000 pagedGlobals) =
        .ok (text, ⟨.hex⟩) ∧
      initialiseGDT pagedGlobals
          ⟨fun _ ↦ 0, ⟨0, 0⟩, ⟨0, 0⟩, ⟨0, 0, 0⟩, 0x28, 0x30, 0x30, 0x30, 0x30, 0x30, false⟩ =
        .ok loaded := by
  obtain ⟨text, loaded, -, -, -, -, hwrite, hloaded, -⟩ := segments_logged
    (show (⟨.dec⟩ : Kostream).mode ≠ .bin by decide) 0xffffffff80000000 pagedGlobals
    ⟨fun _ ↦ 0, ⟨0, 0⟩, ⟨0, 0⟩, ⟨0, 0, 0⟩, 0x28, 0x30, 0x30, 0x30, 0x30, 0x30, false⟩
  exact ⟨text, loaded, hwrite, hloaded⟩

end PenelopeOS.Cpu
