import PenelopeOS.Cpu.Descriptors
import PenelopeOS.Cpu.InterruptGates
import PenelopeOS.Cpu.Isr
import PenelopeOS.Machine.Segmentation

/-!
# The descriptor tables in memory

`initialiseGDT` and `initialiseIdt` write packed tables to memory and load the registers of the
processor from there. Read back by the processor, the tables hold what they are meant to hold: an
interrupt goes to the stub that the table of stubs has for its vector, in the code segment of the kernel,
and the vectors without a stub have no handler.
-/

namespace PenelopeOS.Cpu

open Machine

def SegmentDescriptor.bytes (descriptor : SegmentDescriptor) : List (BitVec 8) :=
  bytesOf descriptor.limit0 ++ bytesOf descriptor.base0 ++ bytesOf descriptor.base1 ++
    bytesOf descriptor.accessbyte ++ bytesOf descriptor.flags_limit ++ bytesOf descriptor.base2

def TSSDescriptor.bytes (descriptor : TSSDescriptor) : List (BitVec 8) :=
  bytesOf descriptor.limit0 ++ bytesOf descriptor.base0 ++ bytesOf descriptor.base1 ++
    bytesOf descriptor.accessbyte ++ bytesOf descriptor.flags_limit ++ bytesOf descriptor.base2 ++
    bytesOf descriptor.base3 ++ bytesOf descriptor.reserved0 ++ bytesOf descriptor.res1_zeros ++
    bytesOf descriptor.res2

structure GdtTable where
  nullseg : SegmentDescriptor
  kernel_code : SegmentDescriptor
  kernel_data : SegmentDescriptor
  user_code : SegmentDescriptor
  user_data : SegmentDescriptor
  tss : TSSDescriptor
  deriving DecidableEq, Repr

def GdtTable.bytes (table : GdtTable) : List (BitVec 8) :=
  table.nullseg.bytes ++ table.kernel_code.bytes ++ table.kernel_data.bytes ++ table.user_code.bytes ++
    table.user_data.bytes ++ table.tss.bytes

/-- `sizeof(tss)`, with the last two fields of a byte each -/
def sizeofTss : BitVec 32 := 102

/-- `setupGdt`, with the address of the task state segment -/
def setupGdt (tss : Word) : GdtTable where
  nullseg := constructSegtor 0 0 0 0
  kernel_code := constructSegtor 0 0xFFFF 0b10011010 0b10101111
  kernel_data := constructSegtor 0 0xFFFF 0b10010010 0b11001111
  user_code := constructSegtor 0 0xFFFF 0b11111010 0b10101111
  user_data := constructSegtor 0 0xFFFF 0b11110010 0b11001111
  tss := constructTsstor tss (sizeofTss - 1)

/-- Where the linker puts the global variables, and the stubs. -/
structure Globals where
  idtTable : Word
  idtor : Word
  table : Word
  descriptor : Word
  tss : Word
  location : Stub Routine → Word
  separate : [(idtTable, 4096), (idtor, 10), (table, 56), (descriptor, 10)].Pairwise
    fun range range' ↦ Separate range.1 range.2 range'.1 range'.2

theorem Globals.separate_iff (globals : Globals) :
    (Separate globals.idtTable 4096 globals.idtor 10 ∧ Separate globals.idtTable 4096 globals.table 56 ∧
        Separate globals.idtTable 4096 globals.descriptor 10) ∧
      (Separate globals.idtor 10 globals.table 56 ∧ Separate globals.idtor 10 globals.descriptor 10) ∧
      Separate globals.table 56 globals.descriptor 10 := by
  have hpairwise := globals.separate
  simpa only [List.pairwise_cons, List.forall_mem_cons, List.not_mem_nil, false_implies, implies_true,
    List.Pairwise.nil, and_true] using hpairwise

/-- A `GdtDescriptor` or an `idtDescriptor` -/
def tableDescriptor (limit : BitVec 16) (offset : Word) : List (BitVec 8) :=
  bytesOf limit ++ bytesOf offset

/-- `reload_segments` -/
def reloadSegments (system : System) : Except Exception System := do
  checkCode system 0x08
  let system ← markAccessed { system with cs := 0x08 } 0x08
  checkData system 0x10
  -- the first of the five loads marks the descriptor, and the others find it marked
  let system ← markAccessed system 0x10
  return { system with ds := 0x10, es := 0x10, fs := 0x10, gs := 0x10, ss := 0x10 }

def initialiseGDT (globals : Globals) (system : System) : Except Exception System := do
  let memory := storeBytes system.memory globals.table (setupGdt globals.tss).bytes
  let memory := storeBytes memory globals.descriptor (tableDescriptor 55 globals.table)
  let system := { system with memory := memory, gdtr := loadTableRegister memory globals.descriptor }
  let system ← ltr system 0b00101000
  reloadSegments system

/-- `setIdtEntry`, with the gate in memory -/
def storeIdtEntry (globals : Globals) (memory : Memory) (index : BitVec 8) (handler : Word) : Memory :=
  storeBytes memory (globals.idtTable + 16 * index.setWidth 64) (constructIdtGate handler).bytes

/-- `initialiseIdt`, with the table in memory -/
def storeIdt (globals : Globals) (system : System) : System :=
  let memory := storeBytes system.memory globals.idtor (tableDescriptor 4095 globals.idtTable)
  let memory := (List.finRange 34).foldl (fun memory (i : Fin 34) ↦
    storeIdtEntry globals memory (BitVec.ofNat 8 i) (globals.location (isr.get i))) memory
  { system with memory := memory, idtr := loadTableRegister memory globals.idtor, interrupts := true }

/-! ## Words -/

/-- The bytes of two fields that lie one behind the other. -/
theorem bytesOf_append {low high : ℕ} (hlow : 8 ∣ low) (hhigh : 8 ∣ high) (second : BitVec high)
    (first : BitVec low) : bytesOf (second ++ first) = bytesOf first ++ bytesOf second := by
  obtain ⟨count, rfl⟩ := hlow
  obtain ⟨count', rfl⟩ := hhigh
  have hlength : (8 * count' + 8 * count) / 8 = count + count' := by omega
  rw [bytesOf, hlength, List.range_add, List.map_append, List.map_map, bytesOf, bytesOf,
    Nat.mul_div_cancel_left _ (by decide), Nat.mul_div_cancel_left _ (by decide)]
  congr 1
  · refine List.map_congr_left fun index hindex ↦ ?_
    rw [List.mem_range] at hindex
    apply BitVec.eq_of_getLsbD_eq
    intro bit hbit
    simp [BitVec.getLsbD_append, show 8 * index + bit < 8 * count by omega]
  · refine List.map_congr_left fun index hindex ↦ ?_
    apply BitVec.eq_of_getLsbD_eq
    intro bit hbit
    have hshift : 8 * (count + index) + bit - 8 * count = 8 * index + bit := by omega
    simp [BitVec.getLsbD_append, show ¬ 8 * (count + index) + bit < 8 * count by omega, hshift]

/-- A word is read from its bytes. -/
theorem load64_of_stores {memory : Memory} {base word : Word} (h : Stores memory base (bytesOf word)) :
    load64 memory base = word := by
  apply BitVec.eq_of_getLsbD_eq
  intro index hindex
  have hbit : index % 8 < 8 := Nat.mod_lt _ (by decide)
  have hbyte := h (index / 8) ((word >>> (8 * (index / 8))).setWidth 8) (by
    rw [bytesOf, List.getElem?_map, List.getElem?_range (by omega)]
    rfl)
  conv_lhs => rw [← Nat.div_add_mod index 8]
  rw [getLsbD_load64 _ _ (by omega) hbit, hbyte, BitVec.getLsbD_setWidth, BitVec.getLsbD_ushiftRight,
    decide_eq_true hbit, Bool.true_and, Nat.div_add_mod]

/-- One of several words in a row. -/
theorem load64_of_stores_words {memory : Memory} {words : List Word} {base word : Word} {index : ℕ}
    (h : Stores memory base (words.flatMap bytesOf)) (hword : words[index]? = some word) :
    load64 memory (base + BitVec.ofNat 64 (8 * index)) = word := by
  induction words generalizing base index with
  | nil => cases hword
  | cons first words ih =>
    rw [List.flatMap_cons, stores_append_iff] at h
    cases index with
    | zero =>
      obtain rfl := Option.some.inj hword
      rw [Nat.mul_zero, BitVec.add_zero]
      exact load64_of_stores h.1
    | succ index =>
      have hlength : (bytesOf first).length = 8 := by
        simp [bytesOf]
      have hrest := ih h.2 hword
      rwa [hlength, BitVec.add_assoc, ← BitVec.ofNat_add, Nat.add_comm 8, ← Nat.mul_succ] at hrest

/-- A register is loaded from its descriptor. -/
theorem loadTableRegister_eq {memory : Memory} {address offset : Word} {limit : BitVec 16}
    (h : Stores memory address (tableDescriptor limit offset)) :
    loadTableRegister memory address = ⟨limit, offset⟩ := by
  obtain ⟨hlimit, hoffset⟩ := stores_append_iff.mp h
  have hlow : memory (address + 0#64) = limit.setWidth 8 := hlimit 0 _ rfl
  have hhigh : memory (address + 1) = (limit >>> 8).setWidth 8 := hlimit 1 _ rfl
  have hbase : load64 memory (address + 2) = offset := load64_of_stores hoffset
  have hbytes : (limit >>> 8).setWidth 8 ++ limit.setWidth 8 = limit := by
    apply BitVec.eq_of_getLsbD_eq
    intro index hindex
    rw [BitVec.getLsbD_append]
    split
    · next hfirst => simp [hfirst]
    · next hsecond =>
      have hshift : 8 + (index - 8) = index := by omega
      simp [hshift, show index - 8 < 8 by omega]
  rw [BitVec.add_zero] at hlow
  rw [loadTableRegister, hbase, hlow, hhigh, hbytes]

/-! ## Gates -/

def gateLow (gate : IdtGate) : Word :=
  gate.offset1 ++ gate.p_dpl_gatetype_ist ++ gate.segment_selector ++ gate.offset0

def gateHigh (gate : IdtGate) : Word := gate.rsv ++ gate.offset2

theorem bytes_gate (gate : IdtGate) :
    gate.bytes = bytesOf (gateLow gate) ++ bytesOf (gateHigh gate) := by
  rw [gateLow, gateHigh, bytesOf_append (by decide) (by decide), bytesOf_append (by decide) (by decide),
    bytesOf_append (by decide) (by decide), bytesOf_append (by decide) (by decide), IdtGate.bytes]
  simp only [List.append_assoc]

theorem offset_constructIdtGate (address : Word) : (constructIdtGate address).offset2 ++
    (constructIdtGate address).offset1 ++ (constructIdtGate address).offset0 = address := by
  apply BitVec.eq_of_toNat_eq
  rw [← offsetOf_constructIdtGate address, offsetOf, toNat_joined, toNat_joined]
  ring

/-- What the processor finds in the gate of a handler. -/
theorem gateAt_eq {system : System} {vector : BitVec 8} {handler : Word}
    (hlimit : system.idtr.limit = 4095)
    (h : Stores system.memory (system.idtr.base + 16 * vector.setWidth 64)
      (constructIdtGate handler).bytes) :
    gateAt system vector = .ok ⟨0x08, handler, 0⟩ := by
  rw [bytes_gate, stores_append_iff] at h
  have hlow := load64_of_stores h.1
  have hhigh : load64 system.memory (system.idtr.base + 16 * vector.setWidth 64 + 8) = _ :=
    load64_of_stores h.2
  have hvector := vector.isLt
  have hroom : ¬ (4095 : BitVec 16).toNat < 16 * vector.toNat + 15 := by
    change ¬ 4095 < 16 * vector.toNat + 15
    omega
  have htype : (gateLow (constructIdtGate handler)).extractLsb' 41 4 = 0b0111 := by
    rw [gateLow, BitVec.extractLsb'_append_eq_of_le (by decide),
      BitVec.extractLsb'_append_eq_of_le (by decide), BitVec.extractLsb'_append_eq_of_add_le (by decide)]
    change (0b1000111000000000 : BitVec 16).extractLsb' 9 4 = 0b0111
    decide
  have hpresent : (gateLow (constructIdtGate handler)).getLsbD 47 = true := by
    rw [gateLow, BitVec.getLsbD_append, BitVec.getLsbD_append, BitVec.getLsbD_append]
    change (0b1000111000000000 : BitVec 16).getLsbD 15 = true
    decide
  have hselector : (gateLow (constructIdtGate handler)).extractLsb' 16 16 = 0x08 := by
    rw [gateLow, BitVec.extractLsb'_append_eq_of_le (by decide), BitVec.extractLsb'_append_eq_right]
    rfl
  have hist : (gateLow (constructIdtGate handler)).extractLsb' 32 3 = 0 := by
    rw [gateLow, BitVec.extractLsb'_append_eq_of_le (by decide),
      BitVec.extractLsb'_append_eq_of_le (by decide), BitVec.extractLsb'_append_eq_of_add_le (by decide)]
    change (0b1000111000000000 : BitVec 16).extractLsb' 0 3 = 0
    decide
  have hoffset : (gateHigh (constructIdtGate handler)).extractLsb' 0 32 ++
      (gateLow (constructIdtGate handler)).extractLsb' 48 16 ++
      (gateLow (constructIdtGate handler)).extractLsb' 0 16 = handler := by
    rw [gateHigh, gateLow, BitVec.extractLsb'_append_eq_right, BitVec.extractLsb'_append_eq_right,
      BitVec.extractLsb'_append_eq_of_le (by decide), BitVec.extractLsb'_append_eq_of_le (by decide),
      BitVec.extractLsb'_append_eq_left]
    exact offset_constructIdtGate handler
  simp only [gateAt, hlimit, if_neg hroom, hlow, hhigh, htype, hpresent, hselector, hist, hoffset, ne_eq,
    not_true_eq_false, if_false, Bool.true_eq_false]

/-- A gate that was never written. -/
theorem gateAt_zero {system : System} {vector : BitVec 8} (hlimit : system.idtr.limit = 4095)
    (h : Stores system.memory (system.idtr.base + 16 * vector.setWidth 64) (List.replicate 16 0)) :
    gateAt system vector = .error .generalProtection := by
  have hsplit : List.replicate 16 (0 : BitVec 8) = bytesOf (0 : Word) ++ bytesOf (0 : Word) := by decide
  rw [hsplit, stores_append_iff] at h
  have hlow := load64_of_stores h.1
  have hvector := vector.isLt
  have hroom : ¬ (4095 : BitVec 16).toNat < 16 * vector.toNat + 15 := by
    change ¬ 4095 < 16 * vector.toNat + 15
    omega
  have htype : (0 : Word).extractLsb' 41 4 ≠ 0b0111 := by decide
  simp only [gateAt, hlimit, if_neg hroom, hlow, htype, ne_eq, not_false_eq_true, if_true]

/-! ## Segments -/

def SegmentDescriptor.word (descriptor : SegmentDescriptor) : Word :=
  descriptor.base2 ++ descriptor.flags_limit ++ descriptor.accessbyte ++ descriptor.base1 ++
    descriptor.base0 ++ descriptor.limit0

def TSSDescriptor.low (descriptor : TSSDescriptor) : Word :=
  descriptor.base2 ++ descriptor.flags_limit ++ descriptor.accessbyte ++ descriptor.base1 ++
    descriptor.base0 ++ descriptor.limit0

def TSSDescriptor.high (descriptor : TSSDescriptor) : Word :=
  descriptor.res2 ++ descriptor.res1_zeros ++ descriptor.reserved0 ++ descriptor.base3

theorem SegmentDescriptor.bytes_eq (descriptor : SegmentDescriptor) :
    descriptor.bytes = bytesOf descriptor.word := by
  rw [word, bytesOf_append (by decide) (by decide), bytesOf_append (by decide) (by decide),
    bytesOf_append (by decide) (by decide), bytesOf_append (by decide) (by decide),
    bytesOf_append (by decide) (by decide), bytes]
  simp only [List.append_assoc]

theorem TSSDescriptor.bytes_eq (descriptor : TSSDescriptor) :
    descriptor.bytes = bytesOf descriptor.low ++ bytesOf descriptor.high := by
  rw [low, high, bytesOf_append (by decide) (by decide), bytesOf_append (by decide) (by decide),
    bytesOf_append (by decide) (by decide), bytesOf_append (by decide) (by decide),
    bytesOf_append (by decide) (by decide), bytesOf_append (by decide) (by decide),
    bytesOf_append (by decide) (by decide), bytesOf_append (by decide) (by decide), bytes]
  simp only [List.append_assoc]

/-- The Accessed bit of a descriptor. -/
def accessedBit (accessed : Bool) : Word := if accessed then 1 <<< 40 else 0

/-- The descriptors of the segments, which all start at 0, by which of the four have been loaded. -/
def segmentWords (accessed : Fin 4 → Bool) : List Word :=
  [0, 0x00AF9A000000FFFF ||| accessedBit (accessed 0), 0x00CF92000000FFFF ||| accessedBit (accessed 1),
    0x00AFFA000000FFFF ||| accessedBit (accessed 2), 0x00CFF2000000FFFF ||| accessedBit (accessed 3)]

theorem bytes_setupGdt (tss : Word) : (setupGdt tss).bytes =
    (segmentWords fun _ ↦ false).flatMap bytesOf ++
    (bytesOf (constructTsstor tss 101).low ++ bytesOf (constructTsstor tss 101).high) := by
  have hnull : (constructSegtor 0 0 0 0).word = 0 := by decide
  have hkernelCode : (constructSegtor 0 0xFFFF 0b10011010 0b10101111).word =
      0x00AF9A000000FFFF ||| accessedBit false := by
    decide
  have hkernelData : (constructSegtor 0 0xFFFF 0b10010010 0b11001111).word =
      0x00CF92000000FFFF ||| accessedBit false := by
    decide
  have huserCode : (constructSegtor 0 0xFFFF 0b11111010 0b10101111).word =
      0x00AFFA000000FFFF ||| accessedBit false := by
    decide
  have huserData : (constructSegtor 0 0xFFFF 0b11110010 0b11001111).word =
      0x00CFF2000000FFFF ||| accessedBit false := by
    decide
  have hlimit : sizeofTss - 1 = 101 := by decide
  rw [GdtTable.bytes, setupGdt]
  simp only [SegmentDescriptor.bytes_eq, TSSDescriptor.bytes_eq, hnull, hkernelCode, hkernelData,
    huserCode, huserData, hlimit, segmentWords, List.flatMap_cons, List.flatMap_nil, List.append_nil,
    List.append_assoc]

theorem length_bytesOf (word : Word) : (bytesOf word).length = 8 := by
  simp [bytesOf]

theorem length_segmentWords (accessed : Fin 4 → Bool) :
    ((segmentWords accessed).flatMap bytesOf).length = 40 := by
  simp only [List.length_flatMap, length_bytesOf]
  rfl

/-- The base and the limit of the task state segment are put together from their parts. -/
theorem taskBase_constructTsstor (tss : Word) (limit : BitVec 32) :
    taskBase (constructTsstor tss limit).low (constructTsstor tss limit).high = tss := by
  obtain ⟨hbase0, hbase1, hbase2, hbase3, -, -⟩ := toNat_constructTsstor tss limit
  generalize constructTsstor tss limit = descriptor at *
  have hthird : descriptor.low.extractLsb' 56 8 = descriptor.base2 := by
    rw [TSSDescriptor.low, BitVec.extractLsb'_append_eq_of_le (by decide),
      BitVec.extractLsb'_append_eq_of_le (by decide), BitVec.extractLsb'_append_eq_of_le (by decide),
      BitVec.extractLsb'_append_eq_of_le (by decide), BitVec.extractLsb'_append_eq_left]
  have hsecond : descriptor.low.extractLsb' 32 8 = descriptor.base1 := by
    rw [TSSDescriptor.low, BitVec.extractLsb'_append_eq_of_le (by decide),
      BitVec.extractLsb'_append_eq_of_le (by decide), BitVec.extractLsb'_append_eq_right]
  have hfirst : descriptor.low.extractLsb' 16 16 = descriptor.base0 := by
    rw [TSSDescriptor.low, BitVec.extractLsb'_append_eq_of_le (by decide),
      BitVec.extractLsb'_append_eq_right]
  have hupper : descriptor.high.extractLsb' 0 32 = descriptor.base3 := by
    rw [TSSDescriptor.high, BitVec.extractLsb'_append_eq_right]
  have hsplit : descriptor.low.extractLsb' 16 24 = descriptor.base1 ++ descriptor.base0 := by
    rw [← hsecond, ← hfirst, BitVec.extractLsb'_append_extractLsb'_eq_extractLsb' (by decide)]
  apply BitVec.eq_of_toNat_eq
  rw [taskBase, hupper, hthird, hsplit, toNat_joined, toNat_joined, toNat_joined, hbase0, hbase1, hbase2,
    hbase3]
  have hbound := tss.isLt
  omega

theorem taskLimit_constructTsstor (tss : Word) : taskLimit (constructTsstor tss 101).low = 101 := by
  have hupper : (constructTsstor tss 101).low.extractLsb' 48 4 = 0 := by
    rw [TSSDescriptor.low, BitVec.extractLsb'_append_eq_of_le (by decide),
      BitVec.extractLsb'_append_eq_of_le (by decide), BitVec.extractLsb'_append_eq_of_le (by decide),
      BitVec.extractLsb'_append_eq_of_le (by decide), BitVec.extractLsb'_append_eq_of_add_le (by decide)]
    change (((101 &&& ((0xF : BitVec 32) <<< 0x10)) >>> 0x10).setWidth 8).extractLsb' 0 4 = 0
    decide
  have hlower : (constructTsstor tss 101).low.extractLsb' 0 16 = 101 := by
    rw [TSSDescriptor.low, BitVec.extractLsb'_append_eq_right]
    change ((101 : BitVec 32) &&& 0xFFFF).setWidth 16 = 101
    decide
  rw [taskLimit, hupper, hlower]
  decide

/-! ## The global descriptor table -/

/-- The registers and the table after `initialiseGDT`. -/
structure SegmentsLoaded (globals : Globals) (before after : System) : Prop where
  gdtr : after.gdtr = ⟨55, globals.table⟩
  words : Stores after.memory globals.table ((segmentWords fun i ↦ i.val < 2).flatMap bytesOf)
  tr : after.tr = ⟨0x28, globals.tss, 101⟩
  cs : after.cs = 0x08
  data : after.ds = 0x10 ∧ after.es = 0x10 ∧ after.fs = 0x10 ∧ after.gs = 0x10 ∧ after.ss = 0x10
  frame : ∀ location, 56 ≤ (location - globals.table).toNat →
    10 ≤ (location - globals.descriptor).toNat → after.memory location = before.memory location

section Kernel

variable {system : System} {memory : Memory} {table : Word} {accessed : Fin 4 → Bool}

theorem checkCode_kernel (hgdtr : system.gdtr = ⟨55, table⟩)
    (h : Stores system.memory table ((segmentWords accessed).flatMap bytesOf)) :
    checkCode system 0x08 = .ok () := by
  have hstored := load64_of_stores_words h (show (segmentWords accessed)[1]? = some _ from rfl)
  have hword : load64 system.memory (table + 8#64) = 0x00AF9A000000FFFF ||| accessedBit (accessed 0) :=
    hstored
  have haddress : descriptorAddress ⟨55, table⟩ 0x08 8 = .ok (table + 8#64) := rfl
  simp only [checkCode, hgdtr, haddress, bind, Except.bind, hword]
  cases accessed 0 <;> rfl

theorem checkData_kernel (hgdtr : system.gdtr = ⟨55, table⟩)
    (h : Stores system.memory table ((segmentWords accessed).flatMap bytesOf)) :
    checkData system 0x10 = .ok () := by
  have hstored := load64_of_stores_words h (show (segmentWords accessed)[2]? = some _ from rfl)
  have hword : load64 system.memory (table + 16#64) = 0x00CF92000000FFFF ||| accessedBit (accessed 1) :=
    hstored
  have haddress : descriptorAddress ⟨55, table⟩ 0x10 8 = .ok (table + 16#64) := rfl
  simp only [checkData, hgdtr, haddress, bind, Except.bind, hword]
  cases accessed 1 <;> rfl

/-- The Accessed bit of one of the segments is set in memory. -/
theorem stores_marked {after : Fin 4 → Bool} {byte : BitVec 8} (index : ℕ)
    (h : Stores memory table ((segmentWords accessed).flatMap bytesOf))
    (hbyte : ((segmentWords accessed).flatMap bytesOf)[index]? = some byte)
    (hset : ((segmentWords accessed).flatMap bytesOf).set index (byte ||| 1) =
      (segmentWords after).flatMap bytesOf) :
    Stores (storeBytes memory (table + BitVec.ofNat 64 index)
      [memory (table + BitVec.ofNat 64 index) ||| 1]) table ((segmentWords after).flatMap bytesOf) := by
  have hindex := (List.getElem?_eq_some_iff.mp hbyte).1
  rw [h index byte hbyte, ← hset]
  exact h.set (by rw [length_segmentWords]; decide) hindex (byte ||| 1)

theorem markAccessed_eq {selector : BitVec 16} {place : Word}
    (hplace : descriptorAddress system.gdtr selector 8 = .ok place) :
    markAccessed system selector = .ok { system with
      memory := storeBytes system.memory (place + 5) [system.memory (place + 5) ||| 1] } := by
  rw [markAccessed, hplace]
  rfl

/-- The segments of the kernel are loaded, and only their descriptors change. -/
theorem reloadSegments_kernel (hgdtr : system.gdtr = ⟨55, table⟩)
    (h : Stores system.memory table ((segmentWords fun _ ↦ false).flatMap bytesOf)) :
    ∃ memory', reloadSegments system = .ok { system with
        memory := memory', cs := 0x08, ds := 0x10, es := 0x10, fs := 0x10, gs := 0x10, ss := 0x10 } ∧
      Stores memory' table ((segmentWords fun i ↦ i.val < 2).flatMap bytesOf) ∧
      ∀ location, 56 ≤ (location - table).toNat → memory' location = system.memory location := by
  have hcode := checkCode_kernel hgdtr h
  set marked := storeBytes system.memory (table + 13#64) [system.memory (table + 13#64) ||| 1]
  let jumped : System := { system with cs := 0x08 }
  let returned : System := { jumped with memory := marked }
  have hfirst : markAccessed jumped 0x08 = .ok returned := by
    have hplace : descriptorAddress jumped.gdtr 0x08 8 = .ok (table + 8#64) :=
      congrArg (descriptorAddress · 0x08 8) hgdtr
    have hflags : table + 8#64 + 5 = table + 13#64 := BitVec.add_assoc table _ _
    rw [markAccessed_eq hplace, hflags]
  have hstored : Stores marked table ((segmentWords fun i ↦ i.val < 1).flatMap bytesOf) :=
    stores_marked 13 h (show _ = some 0x9A by decide +kernel) (by decide +kernel)
  have hdata : checkData returned 0x10 = .ok () := checkData_kernel hgdtr hstored
  have hsecond : markAccessed returned 0x10 = .ok { returned with
      memory := storeBytes marked (table + 21#64) [marked (table + 21#64) ||| 1] } := by
    have hplace : descriptorAddress returned.gdtr 0x10 8 = .ok (table + 16#64) :=
      congrArg (descriptorAddress · 0x10 8) hgdtr
    have hflags : table + 16#64 + 5 = table + 21#64 := BitVec.add_assoc table _ _
    rw [markAccessed_eq hplace, hflags]
  have hfinal : Stores _ table ((segmentWords fun i ↦ i.val < 2).flatMap bytesOf) :=
    stores_marked 21 hstored (show _ = some 0x92 by decide +kernel) (by decide +kernel)
  refine ⟨_, ?_, hfinal, fun location houtside ↦ ?_⟩
  · simp only [reloadSegments, hcode, bind, Except.bind]
    rw [show markAccessed { system with cs := 0x08 } 0x08 = _ from hfirst]
    simp only [hdata, hsecond]
    rfl
  · have hlater (byte : BitVec 8) : storeBytes marked (table + 21#64) [byte] location = marked location :=
      storeBytes_of_outside (by rw [List.length_singleton]; bv_omega)
    rw [hlater]
    exact storeBytes_of_outside (by rw [List.length_singleton]; bv_omega)

end Kernel

theorem ltr_setupGdt {system : System} {table tss : Word} (hgdtr : system.gdtr = ⟨55, table⟩)
    (h : Stores system.memory table (setupGdt tss).bytes) :
    ∃ busy, ltr system 0x28 = .ok { system with
      memory := storeBytes system.memory (table + 45) [busy], tr := ⟨0x28, tss, 101⟩ } := by
  have haddress : descriptorAddress ⟨55, table⟩ 0x28 16 = .ok (table + 40#64) := rfl
  rw [bytes_setupGdt, stores_append_iff, length_segmentWords, stores_append_iff, length_bytesOf] at h
  have hlow := load64_of_stores h.2.1
  have hhigh : load64 system.memory (table + 40#64 + 8) = _ := load64_of_stores h.2.2
  have htype : (constructTsstor tss 101).low.extractLsb' 40 5 = 0b01001 := by
    rw [TSSDescriptor.low, BitVec.extractLsb'_append_eq_of_le (by decide),
      BitVec.extractLsb'_append_eq_of_le (by decide), BitVec.extractLsb'_append_eq_of_le (by decide),
      BitVec.extractLsb'_append_eq_of_add_le (by decide)]
    change (0b10001001 : BitVec 8).extractLsb' 0 5 = 0b01001
    decide
  have hpresent : (constructTsstor tss 101).low.getLsbD 47 = true := by
    rw [TSSDescriptor.low, BitVec.getLsbD_append, BitVec.getLsbD_append, BitVec.getLsbD_append,
      BitVec.getLsbD_append]
    change (0b10001001 : BitVec 8).getLsbD 7 = true
    decide
  have hbusy : table + 40#64 + 5 = table + 45 := by
    rw [BitVec.add_assoc]
    rfl
  refine ⟨system.memory (table + 45) ||| 2, ?_⟩
  simp only [ltr, hgdtr, haddress, bind, Except.bind, hlow, hhigh, htype, presentSegment, hpresent,
    ne_eq, not_true_eq_false, if_false, if_true, hbusy, taskBase_constructTsstor,
    taskLimit_constructTsstor]
  rfl

theorem length_setupGdt (tss : Word) : (setupGdt tss).bytes.length = 56 := by
  rw [bytes_setupGdt, List.length_append, length_segmentWords, List.length_append, length_bytesOf,
    length_bytesOf]

theorem length_tableDescriptor (limit : BitVec 16) (offset : Word) :
    (tableDescriptor limit offset).length = 10 :=
  rfl

/-- The segments are loaded whatever was in memory before. -/
theorem initialiseGDT_loads (globals : Globals) (system : System) :
    ∃ loaded, initialiseGDT globals system = .ok loaded ∧ SegmentsLoaded globals system loaded := by
  obtain ⟨-, -, hseparate⟩ := globals.separate_iff
  have hlength := length_setupGdt globals.tss
  set written := storeBytes system.memory globals.table (setupGdt globals.tss).bytes with hwritten
  set memory := storeBytes written globals.descriptor (tableDescriptor 55 globals.table) with hmemory
  have htable : Stores memory globals.table (setupGdt globals.tss).bytes := by
    refine (stores_storeBytes _ _ ?_).storeBytes ?_
    · rw [hlength]
      decide
    · rw [hlength, length_tableDescriptor]
      exact hseparate
  have hregister : loadTableRegister memory globals.descriptor = ⟨55, globals.table⟩ :=
    loadTableRegister_eq (stores_storeBytes _ _ (by rw [length_tableDescriptor]; decide))
  let described : System := { system with memory := memory, gdtr := ⟨55, globals.table⟩ }
  obtain ⟨busy, hltr⟩ := ltr_setupGdt (show described.gdtr = _ from rfl) htable
  set busyMemory := storeBytes memory (globals.table + 45) [busy] with hbusyMemory
  -- the busy bit is behind the segments
  have hwords : Stores busyMemory globals.table ((segmentWords fun _ ↦ false).flatMap bytesOf) := by
    rw [bytes_setupGdt, stores_append_iff] at htable
    apply htable.1.storeBytes
    rw [length_segmentWords, List.length_singleton]
    constructor <;> bv_omega
  let task : System := { described with memory := busyMemory, tr := ⟨0x28, globals.tss, 101⟩ }
  obtain ⟨final, hreload, hfinal, hframe⟩ := reloadSegments_kernel (show task.gdtr = _ from rfl) hwords
  let loaded : System := { task with
    memory := final, cs := 0x08, ds := 0x10, es := 0x10, fs := 0x10, gs := 0x10, ss := 0x10 }
  refine ⟨loaded, ?_, ⟨rfl, hfinal, rfl, rfl, ⟨rfl, rfl, rfl, rfl, rfl⟩,
    fun location houtside houtside' ↦ ?_⟩⟩
  · have hsystem : initialiseGDT globals system =
        ltr { described with gdtr := loadTableRegister memory globals.descriptor } 0x28 >>=
          reloadSegments := rfl
    rw [hsystem, hregister]
    change ltr described 0x28 >>= reloadSegments = _
    rw [hltr]
    exact hreload
  · have hbehind : [busy].length ≤ (location - (globals.table + 45)).toNat := by
      rw [List.length_singleton]
      bv_omega
    change final location = _
    rw [hframe location houtside]
    change busyMemory location = _
    rw [hbusyMemory, storeBytes_of_outside hbehind, hmemory,
      storeBytes_of_outside (by rw [length_tableDescriptor]; exact houtside'), hwritten,
      storeBytes_of_outside (by rw [hlength]; exact houtside)]

/-! ## The interrupt descriptor table -/

/-- The place of the gate of a vector. -/
def gatePlace (globals : Globals) (vector : BitVec 8) : Word :=
  globals.idtTable + 16 * vector.setWidth 64

theorem gatePlace_eq (globals : Globals) (vector : BitVec 8) :
    gatePlace globals vector = globals.idtTable + BitVec.ofNat 64 (16 * vector.toNat) := by
  rw [gatePlace]
  congr 1

theorem separate_gatePlace {globals : Globals} {vector vector' : BitVec 8} (hne : vector ≠ vector') :
    Separate (gatePlace globals vector) 16 (gatePlace globals vector') 16 := by
  have hval : vector.toNat ≠ vector'.toNat := fun h ↦ hne (BitVec.eq_of_toNat_eq h)
  have hvector := vector.isLt
  have hvector' := vector'.isLt
  rw [gatePlace_eq, gatePlace_eq]
  constructor <;>
  · rw [BitVec.toNat_sub, BitVec.toNat_add, BitVec.toNat_add, BitVec.toNat_ofNat, BitVec.toNat_ofNat]
    omega

/-- What is separate from the table is separate from each of its gates. -/
theorem gatePlace_separate {globals : Globals} {base : Word} {size : ℕ}
    (h : Separate globals.idtTable 4096 base size) (hpos : 0 < size) (vector : BitVec 8) :
    Separate (gatePlace globals vector) 16 base size := by
  have hvector := vector.isLt
  rw [gatePlace_eq]
  exact h.shrink (by omega) (by decide) hpos

theorem length_gate (gate : IdtGate) : gate.bytes.length = 16 := by
  rw [bytes_gate, List.length_append, length_bytesOf, length_bytesOf]

/-- The vectors behind the table of stubs are left without one. -/
theorem initialiseIdt_of_le (table : IdtTable) {vector : BitVec 8} (hvector : 34 ≤ vector.toNat) :
    initialiseIdt table vector = table vector := by
  rw [initialiseIdt]
  generalize List.finRange 34 = indices
  induction indices generalizing table with
  | nil => rfl
  | cons first indices ih =>
    have hne : vector ≠ BitVec.ofNat 8 first := by
      intro heq
      rw [heq, BitVec.toNat_ofNat] at hvector
      omega
    rw [List.foldl_cons, ih, setIdtEntry, Function.update_of_ne hne]

/-- The gates of the table of stubs, in memory. -/
def storeGates (globals : Globals) (memory : Memory) : Memory :=
  storeAll (fun i : Fin 34 ↦ gatePlace globals (BitVec.ofNat 8 i))
    (fun i ↦ (constructIdtGate (globals.location (isr.get i))).bytes) memory (List.finRange 34)

theorem ofNat_injective {i j : Fin 34} (h : BitVec.ofNat 8 i = BitVec.ofNat 8 j) : i = j := by
  have hval := congrArg BitVec.toNat h
  rw [BitVec.toNat_ofNat, BitVec.toNat_ofNat] at hval
  omega

theorem stores_storeGates (globals : Globals) (memory : Memory) (i : Fin 34) :
    Stores (storeGates globals memory) (gatePlace globals (BitVec.ofNat 8 i))
      (constructIdtGate (globals.location (isr.get i))).bytes := by
  refine stores_storeAll (fun _ _ ↦ ?_) ?_ (List.mem_finRange i)
  · rw [length_gate]
    decide
  · refine (List.nodup_finRange 34).imp fun hne ↦ ?_
    rw [length_gate, length_gate]
    exact separate_gatePlace fun heq ↦ hne (ofNat_injective heq)

theorem stores_storeGates_of_separate {globals : Globals} {memory : Memory} {base : Word}
    {bytes : List (BitVec 8)} (h : Stores memory base bytes)
    (hseparate : ∀ i : Fin 34, Separate (gatePlace globals (BitVec.ofNat 8 i)) 16 base bytes.length) :
    Stores (storeGates globals memory) base bytes := by
  refine h.storeAll fun i _ ↦ ?_
  rw [length_gate]
  exact (hseparate i).symm

/-- What is read from a table of zeros is zero too. -/
theorem stores_zero {memory : Memory} {globals : Globals}
    (hzero : Stores memory globals.idtTable (List.replicate 4096 0)) (vector : BitVec 8) :
    Stores memory (gatePlace globals vector) (List.replicate 16 0) := by
  have hvector := vector.isLt
  have hsplit : List.replicate 4096 (0 : BitVec 8) = List.replicate (16 * vector.toNat) 0 ++
      (List.replicate 16 0 ++ List.replicate (4080 - 16 * vector.toNat) 0) := by
    rw [List.replicate_append_replicate, List.replicate_append_replicate]
    congr 1
    omega
  rw [hsplit, stores_append_iff, List.length_replicate, stores_append_iff] at hzero
  rw [gatePlace_eq]
  exact hzero.2.1

/-- What the table of stubs says about a vector. -/
def expectedHandler (globals : Globals) : Option (Stub Routine) → Except Exception Handler
  | some stub => .ok ⟨0x08, globals.location stub, 0⟩
  | none => .error .generalProtection

/-- With the segments of the kernel, an interrupt of any vector goes to the stub of the vector, or
nowhere. -/
theorem dispatch_of_loaded {globals : Globals} {system loaded : System}
    (hsegments : SegmentsLoaded globals system loaded)
    (hzero : Stores system.memory globals.idtTable (List.replicate 4096 0)) (vector : BitVec 8) :
    dispatch (storeIdt globals loaded) vector =
      expectedHandler globals (initialiseIdt (fun _ ↦ none) vector) := by
  obtain ⟨⟨hidtor, hidtTable, hidtDescriptor⟩, ⟨hidtorTable, -⟩, -⟩ := globals.separate_iff
  set described := storeBytes loaded.memory globals.idtor (tableDescriptor 4095 globals.idtTable)
  set final := storeIdt globals loaded
  have hmemory : final.memory = storeGates globals described := rfl
  have hregister : final.idtr = ⟨4095, globals.idtTable⟩ := by
    have hstored : Stores described globals.idtor (tableDescriptor 4095 globals.idtTable) :=
      stores_storeBytes _ _ (by rw [length_tableDescriptor]; decide)
    have hkept : Stores (storeGates globals described) globals.idtor
        (tableDescriptor 4095 globals.idtTable) := by
      refine stores_storeGates_of_separate hstored fun i ↦ ?_
      rw [length_tableDescriptor]
      exact gatePlace_separate hidtor (by decide) _
    exact loadTableRegister_eq hkept
  have hwords : Stores final.memory globals.table ((segmentWords fun i ↦ i.val < 2).flatMap bytesOf) := by
    rw [hmemory]
    refine stores_storeGates_of_separate (hsegments.words.storeBytes ?_) fun i ↦ ?_
    · rw [length_segmentWords, length_tableDescriptor]
      exact hidtorTable.symm.mono (by decide) le_rfl
    · rw [length_segmentWords]
      exact gatePlace_separate (hidtTable.mono le_rfl (by decide)) (by decide) _
  have hcode : checkCode final 0x08 = .ok () := checkCode_kernel hsegments.gdtr hwords
  have hlimit : final.idtr.limit = 4095 := by rw [hregister]
  have hplace : final.idtr.base + 16 * vector.setWidth 64 = gatePlace globals vector := by
    rw [hregister, gatePlace]
  by_cases hvector : vector.toNat < 34
  · have hindex : BitVec.ofNat 8 (⟨vector.toNat, hvector⟩ : Fin 34) = vector := by
      rw [BitVec.ofNat_toNat, BitVec.setWidth_eq]
    have hstored := stores_storeGates globals described ⟨vector.toNat, hvector⟩
    have hentry := initialiseIdt_apply (fun _ ↦ none) ⟨vector.toNat, hvector⟩
    rw [hindex] at hstored hentry
    have hgate := gateAt_eq hlimit (by rw [hplace, hmemory]; exact hstored)
    rw [hentry]
    exact dispatch_of_gate hgate hcode
  · have hzero' : Stores loaded.memory globals.idtTable (List.replicate 4096 0) := by
      intro index byte hbyte
      have hbound := (List.getElem?_eq_some_iff.mp hbyte).1
      rw [List.length_replicate] at hbound
      rw [← hzero index byte hbyte]
      exact hsegments.frame _ (hidtTable.outside hbound) (hidtDescriptor.outside hbound)
    have hgate : gateAt final vector = .error .generalProtection := by
      apply gateAt_zero hlimit
      rw [hplace, hmemory]
      refine stores_storeGates_of_separate ((stores_zero hzero' vector).storeBytes ?_) fun i ↦ ?_
      · rw [List.length_replicate, length_tableDescriptor]
        exact gatePlace_separate hidtor (by decide) vector
      · rw [List.length_replicate]
        refine separate_gatePlace fun heq ↦ hvector ?_
        rw [← heq, BitVec.toNat_ofNat]
        omega
    rw [initialiseIdt_of_le _ (Nat.not_lt.mp hvector)]
    exact dispatch_of_exception hgate

theorem stores_replicate_zero (address : Word) (count : ℕ) :
    Stores (fun _ ↦ 0) address (List.replicate count 0) :=
  fun _ _ hbyte ↦ (List.eq_of_mem_replicate (List.mem_of_getElem? hbyte)).symm

/-- A kernel with its variables in one page after the other, in a memory of zeros. -/
def pagedGlobals : Globals where
  idtTable := 0x10000
  idtor := 0x20000
  table := 0x30000
  descriptor := 0x40000
  tss := 0x50000
  location stub := if stub = isrCtxtsw then 0x60000 else 0x70000
  separate := by decide

end PenelopeOS.Cpu
