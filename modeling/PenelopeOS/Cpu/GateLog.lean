import PenelopeOS.Console.Reports
import PenelopeOS.Cpu.SystemTables

/-!
# What is logged of the interrupt gates

`initialiseIdt` prints the address of every handler, and the three parts that the address is cut into
for the gate. Read back, the log says where the processor goes at an interrupt: the parts of a gate
make up the address, the processor goes there, and the vectors that are not logged have no handler.
-/

namespace PenelopeOS.Cpu

open Console Foundation Machine

theorem int_le_word : 32 ≤ 64 := by
  decide

/-- What `constructIdtGate` prints. -/
def gateItems (handler_address : Word) : List Item :=
  let gate := constructIdtGate handler_address
  [.text (ascii "Constructing IDT GATE: "), .char 10, .text (ascii "vaddr: "), .word handler_address,
    .char 10, .text (ascii "vaddr0: "), .short gate.offset0,
    .char 10, .text (ascii "vaddr1: "), .short gate.offset1,
    .char 10, .text (ascii "vaddr2: "), .number int_le_word gate.offset2, .char 10]

/-- What `initialiseIdt` prints. -/
def idtItems (globals : Globals) : List Item :=
  [.mode .hex, .word (globals.location isr0), .char 10] ++
    (List.finRange 34).flatMap (fun i ↦ gateItems (globals.location (isr.get i))) ++
    [.text (ascii "idt descriptor location: "), .mode .hex, .word globals.idtor, .char 10,
      .text (ascii "IDT Initialised"), .char 10]

def gateLabels : List (List (BitVec 8)) :=
  [ascii "Constructing IDT GATE: " ++ [13, 10] ++ ascii "vaddr: ", [13, 10] ++ ascii "vaddr0: ",
    [13, 10] ++ ascii "vaddr1: ", [13, 10] ++ ascii "vaddr2: "]

/-- The numbers that are logged for a handler. -/
def gateRow (handler_address : Word) : List ℕ :=
  let gate := constructIdtGate handler_address
  [handler_address.toNat, gate.offset0.toNat, gate.offset1.toNat, gate.offset2.toNat]

/-- The numbers of the log: one in front, those of 34 gates, and one behind them. -/
def readGates (text : List (BitVec 8)) : Option (List ℕ × List (List ℕ) × List ℕ) :=
  (readRow (digitOf 16) 16 [13, 10] [[]] text).bind fun first ↦
    (readMany (readRow (digitOf 16) 16 [13, 10] gateLabels) 34 first.2).bind fun gates ↦
      (readRow (digitOf 16) 16 ([13, 10] ++ ascii "IDT Initialised" ++ [13, 10])
        [ascii "idt descriptor location: "] gates.2).map fun last ↦ (first.1, gates.1, last.1)

variable {globals : Globals} {out : Kostream}

/-- The text of one gate. -/
theorem exists_gateRecord (hmode : out.mode ≠ .bin) (handler_address : Word) :
    ∃ text, out.write (gateItems handler_address) = .ok (text, out) ∧
      IsRecord (readRow (digitOf out.mode.base) out.mode.base [13, 10] gateLabels) (fun _ ↦ True) text
        (gateRow handler_address) := by
  set gate := constructIdtGate handler_address with hgate
  have hnext (label : List (BitVec 8)) (hlabel : 10 ∉ label) {width : ℕ} (hwidth : width ≤ 64)
      (value : BitVec width) :
      Field.Shows out out.mode.base ⟨[.char 10, .text label], .number hwidth value⟩
        ([13, 10] ++ label, value.toNat) :=
    shows_nextLine hlabel (printsAs_unsigned hmode hwidth value)
  have hfirst := shows_underLine (show 10 ∉ ascii "Constructing IDT GATE: " by decide)
    (show 10 ∉ ascii "vaddr: " by decide) (printsAs_word hmode handler_address)
  obtain ⟨text, hwrite, hrow⟩ := exists_write_row
    (.cons hfirst <| .cons (hnext (ascii "vaddr0: ") (by decide) (by decide) gate.offset0) <|
      .cons (hnext (ascii "vaddr1: ") (by decide) (by decide) gate.offset1) <|
      .cons (hnext (ascii "vaddr2: ") (by decide) int_le_word gate.offset2) .nil)
    (show out.write [.char 10] = .ok ([13, 10], out) from rfl)
  refine ⟨text, hwrite, hrow.isRecord ?_⟩
  have hreturn := digitOf_return out
  simp only [List.map_cons, List.map_nil, List.tail_cons, List.cons_append, List.nil_append,
    List.forall_mem_cons]
  exact ⟨⟨13, _, rfl, hreturn⟩, ⟨13, _, rfl, hreturn⟩, ⟨13, _, rfl, hreturn⟩, ⟨13, _, rfl, hreturn⟩,
    List.forall_mem_nil _⟩

def idtLabels : List (List (BitVec 8)) := [ascii "idt descriptor location: "]

def idtMark : List (BitVec 8) := [13, 10] ++ ascii "IDT Initialised" ++ [13, 10]

/-- The parts of the log, each of which is read back whatever follows. -/
theorem exists_idtTexts (globals : Globals) (out : Kostream) :
    ∃ first gates last, out.write (idtItems globals) = .ok (first ++ gates ++ last, ⟨.hex⟩) ∧
      (∀ rest, readRow (digitOf 16) 16 [13, 10] [[]] (first ++ rest) =
        some ([(globals.location isr0).toNat], rest)) ∧
      (∀ rest, readMany (readRow (digitOf 16) 16 [13, 10] gateLabels) 34 (gates ++ rest) =
        some ((List.finRange 34).map (fun i ↦ gateRow (globals.location (isr.get i))), rest)) ∧
      ∀ rest, readRow (digitOf 16) 16 idtMark idtLabels (last ++ rest) =
        some ([globals.idtor.toNat], rest) := by
  have hmode : (⟨.hex⟩ : Kostream).mode ≠ .bin := by decide
  have hword (value : Word) : PrintsAs ⟨.hex⟩ 16 (.word value) value.toNat := printsAs_word hmode value
  obtain ⟨first, hfirst, hfirstRow⟩ := exists_write_row
    (.cons (show Field.Shows ⟨.hex⟩ 16 ⟨[], .word (globals.location isr0)⟩ ([], _) from
      ⟨rfl, hword (globals.location isr0)⟩) .nil)
    (show Kostream.write ⟨.hex⟩ [.char 10] = .ok ([13, 10], ⟨.hex⟩) from rfl)
  obtain ⟨gates, hgates, hgatesRead⟩ := exists_write_records_rest (List.finRange 34)
    fun i _ ↦ exists_gateRecord hmode (globals.location (isr.get i))
  obtain ⟨last, hlast, hlastRow⟩ := exists_write_row
    (.cons (show Field.Shows ⟨.hex⟩ 16
      ⟨[.text (ascii "idt descriptor location: "), .mode .hex], .word globals.idtor⟩
      (ascii "idt descriptor location: ", _) from ⟨rfl, hword globals.idtor⟩) .nil)
    (show Kostream.write ⟨.hex⟩ [.char 10, .text (ascii "IDT Initialised"), .char 10] =
      .ok ([13, 10] ++ ascii "IDT Initialised" ++ [13, 10], ⟨.hex⟩) from rfl)
  have hput : out.put (.mode .hex) = .ok ([], ⟨.hex⟩) := rfl
  have hreturn : ∀ rest : List (BitVec 8), Delimits (digitOf 16) (13 :: rest) :=
    fun rest ↦ ⟨13, rest, rfl, digitOf_return ⟨.hex⟩⟩
  refine ⟨first, gates, last, ?_, fun rest ↦ ?_, fun rest ↦ hgatesRead rest trivial, fun rest ↦ ?_⟩
  · have hall := Kostream.write_append
      (Kostream.write_append (Kostream.write_cons hput hfirst) hgates) hlast
    exact hall
  · exact readRow_append hfirstRow (List.forall_mem_singleton.mpr (hreturn [10])) rest
  · exact readRow_append hlastRow (List.forall_mem_singleton.mpr (hreturn _)) rest

/-- The whole log is read back. -/
theorem exists_write_idtItems (globals : Globals) (out : Kostream) :
    ∃ text, out.write (idtItems globals) = .ok (text, ⟨.hex⟩) ∧
      readGates text = some ([(globals.location isr0).toNat],
        (List.finRange 34).map (fun i ↦ gateRow (globals.location (isr.get i))),
        [globals.idtor.toNat]) := by
  obtain ⟨first, gates, last, hwrite, hfirst, hgates, hlast⟩ := exists_idtTexts globals out
  refine ⟨first ++ gates ++ last, hwrite, ?_⟩
  have hend := hlast []
  rw [List.append_nil] at hend
  rw [List.append_assoc, readGates, hfirst, Option.bind_some, hgates, Option.bind_some]
  change (readRow (digitOf 16) 16 idtMark idtLabels last).map _ = _
  rw [hend]
  rfl

/-- After `initialiseGDT` and `initialiseIdt`, the gates in the log are those of the processor. -/
theorem dispatch_eq_logged {system loaded : System} (hsegments : SegmentsLoaded globals system loaded)
    (hzero : Stores system.memory globals.idtTable (List.replicate 4096 0)) (vector : BitVec 8) :
    dispatch (storeIdt globals loaded) vector =
      match ((List.finRange 34).map fun i ↦ gateRow (globals.location (isr.get i)))[vector.toNat]? with
      | some gate => .ok ⟨0x08, BitVec.ofNat 64 (gate.headD 0), 0⟩
      | none => .error .generalProtection := by
  rw [dispatch_of_loaded hsegments hzero, List.getElem?_map]
  by_cases hvector : vector.toNat < 34
  · have hindex : (List.finRange 34)[vector.toNat]? = some ⟨vector.toNat, hvector⟩ := by
      rw [List.getElem?_eq_getElem (by rwa [List.length_finRange]), List.getElem_finRange]
      rfl
    have hentry := initialiseIdt_apply (fun _ ↦ none) ⟨vector.toNat, hvector⟩
    rw [show BitVec.ofNat 8 (⟨vector.toNat, hvector⟩ : Fin 34) = vector by
      rw [BitVec.ofNat_toNat, BitVec.setWidth_eq]] at hentry
    rw [hentry, hindex, Option.map_some]
    simp only [expectedHandler, gateRow, List.headD_cons, BitVec.ofNat_toNat, BitVec.setWidth_eq]
  · have hindex : (List.finRange 34)[vector.toNat]? = none := by
      rw [List.getElem?_eq_none_iff, List.length_finRange]
      exact Nat.not_lt.mp hvector
    rw [initialiseIdt_of_le _ (Nat.not_lt.mp hvector), hindex, Option.map_none]
    rfl

/-- The log says where the processor goes. The log of `initialiseIdt` reads back as 34 gates, each with
an address and the parts that make it up, and after `initialiseGDT` and `initialiseIdt` an interrupt goes
to the address that is logged for its vector, or nowhere if none is. -/
theorem gates_logged (globals : Globals) (system : System) (out : Kostream)
    (hzero : Stores system.memory globals.idtTable (List.replicate 4096 0)) :
    ∃ text gates loaded, out.write (idtItems globals) = .ok (text, ⟨.hex⟩) ∧
      readGates text = some ([(globals.location isr0).toNat], gates, [globals.idtor.toNat]) ∧
      initialiseGDT globals system = .ok loaded ∧ gates.length = 34 ∧
      (∀ gate ∈ gates, ∃ part0 part1 part2,
        gate = [part0 + 2 ^ 16 * part1 + 2 ^ 32 * part2, part0, part1, part2]) ∧
      ∀ vector : BitVec 8, dispatch (storeIdt globals loaded) vector =
        match gates[vector.toNat]? with
        | some gate => .ok ⟨0x08, BitVec.ofNat 64 (gate.headD 0), 0⟩
        | none => .error .generalProtection := by
  obtain ⟨text, hwrite, hread⟩ := exists_write_idtItems globals out
  obtain ⟨loaded, hloaded, hsegments⟩ := initialiseGDT_loads globals system
  refine ⟨text, _, loaded, hwrite, hread, hloaded, ?_, fun gate hgate ↦ ?_, fun vector ↦ ?_⟩
  · rw [List.length_map, List.length_finRange]
  · obtain ⟨i, -, rfl⟩ := List.mem_map.mp hgate
    have hoffset := offsetOf_constructIdtGate (globals.location (isr.get i))
    refine ⟨(constructIdtGate (globals.location (isr.get i))).offset0.toNat,
      (constructIdtGate (globals.location (isr.get i))).offset1.toNat,
      (constructIdtGate (globals.location (isr.get i))).offset2.toNat, ?_⟩
    rw [offsetOf] at hoffset
    rw [hoffset]
    rfl
  · exact dispatch_eq_logged hsegments hzero vector

theorem gates_logged_paged :
    ∃ text gates loaded, (⟨.dec⟩ : Kostream).write (idtItems pagedGlobals) = .ok (text, ⟨.hex⟩) ∧
      readGates text = some ([0x70000], gates, [0x20000]) ∧
      initialiseGDT pagedGlobals
        ⟨fun _ ↦ 0, ⟨0, 0⟩, ⟨0, 0⟩, ⟨0, 0, 0⟩, 0x28, 0x30, 0x30, 0x30, 0x30, 0x30, false⟩ = .ok loaded ∧
      gates.length = 34 ∧ dispatch (storeIdt pagedGlobals loaded) 34 = .error .generalProtection := by
  obtain ⟨text, gates, loaded, hwrite, hread, hloaded, hlength, -, hdispatch⟩ :=
    gates_logged pagedGlobals
      ⟨fun _ ↦ 0, ⟨0, 0⟩, ⟨0, 0⟩, ⟨0, 0, 0⟩, 0x28, 0x30, 0x30, 0x30, 0x30, 0x30, false⟩ ⟨.dec⟩
      (stores_replicate_zero pagedGlobals.idtTable 4096)
  refine ⟨text, gates, loaded, hwrite, hread, hloaded, hlength, ?_⟩
  have hnone : gates[(34 : BitVec 8).toNat]? = none := List.getElem?_eq_none (by rw [hlength]; decide)
  rw [hdispatch, hnone]

end PenelopeOS.Cpu
