import PenelopeOS.Machine.BitField

/-!
# Interrupt gates

The encoders of `interrupts.cpp` and `idt.cpp`. Both scatter the address over the same three fields.
`formInterruptGate` stops there: the selector that it is given and the type word are not stored, and
the fields that it does not name are zero.
-/

namespace PenelopeOS.Cpu

open Machine

structure InterruptGate where
  offset0 : BitVec 16
  segSelector : BitVec 16
  bitfield : BitVec 16
  offset1 : BitVec 16
  offset2 : BitVec 32
  reserved : BitVec 32
  deriving DecidableEq, Repr

structure IdtGate where
  offset0 : BitVec 16
  segment_selector : BitVec 16
  p_dpl_gatetype_ist : BitVec 16
  offset1 : BitVec 16
  offset2 : BitVec 32
  rsv : BitVec 32
  deriving DecidableEq, Repr

/-- `0xFFFF << 0x10` is an `int` and negative, so it is extended with ones. -/
def formInterruptGate (address : BitVec 64) (_segSelector : BitVec 16) : InterruptGate :=
  let vaddr := address
  let offset0 := (vaddr &&& 0xFFFF).setWidth 16
  let offset1 := ((vaddr &&& ((0xFFFF : BitVec 32) <<< 0x10).signExtend 64) >>> 0x10).setWidth 16
  let offset2 := ((vaddr &&& ((0xFFFFFFFF : BitVec 64) <<< 0x20)) >>> 0x20).setWidth 32
  { offset0 := offset0, segSelector := 0, bitfield := 0, offset1 := offset1, offset2 := offset2,
    reserved := 0 }

def constructIdtGate (handler_address : BitVec 64) : IdtGate :=
  let vaddr := handler_address
  let vaddr0 := (vaddr &&& 0xFFFF).setWidth 16
  let vaddr1 := ((vaddr &&& ((0xFFFF : BitVec 64) <<< 0x10)) >>> 0x10).setWidth 16
  let vaddr2 := ((vaddr &&& ((0xFFFFFFFF : BitVec 64) <<< 0x20)) >>> 0x20).setWidth 32
  { offset0 := vaddr0, segment_selector := 0b001000, p_dpl_gatetype_ist := 0b1000111000000000,
    offset1 := vaddr1, offset2 := vaddr2, rsv := 0 }

/-- The bytes of a field in memory, the lowest first. -/
def bytesOf {width : ℕ} (field : BitVec width) : List (BitVec 8) :=
  (List.range (width / 8)).map fun index ↦ (field >>> (8 * index)).setWidth 8

/-- The fields of a packed structure lie one behind the other. -/
def InterruptGate.bytes (gate : InterruptGate) : List (BitVec 8) :=
  bytesOf gate.offset0 ++ bytesOf gate.segSelector ++ bytesOf gate.bitfield ++ bytesOf gate.offset1 ++
    bytesOf gate.offset2 ++ bytesOf gate.reserved

def IdtGate.bytes (gate : IdtGate) : List (BitVec 8) :=
  bytesOf gate.offset0 ++ bytesOf gate.segment_selector ++ bytesOf gate.p_dpl_gatetype_ist ++
    bytesOf gate.offset1 ++ bytesOf gate.offset2 ++ bytesOf gate.rsv

/-- Three fields that hold an address. -/
def offsetOf (offset0 offset1 : BitVec 16) (offset2 : BitVec 32) : ℕ :=
  offset0.toNat + 2 ^ 16 * offset1.toNat + 2 ^ 32 * offset2.toNat

/-- The type word of a present interrupt gate of ring 0 without an interrupt stack. -/
def kernelGateType : BitVec 16 := 0x8E00

/-- The encoders build the same bytes, with the whole address, the selector of the kernel code and the
type of an interrupt gate. -/
structure GatesAgree (address : BitVec 64) : Prop where
  bytes : (formInterruptGate address 0x08).bytes = (constructIdtGate address).bytes
  offset : offsetOf (formInterruptGate address 0x08).offset0 (formInterruptGate address 0x08).offset1
    (formInterruptGate address 0x08).offset2 = address.toNat
  offset' : offsetOf (constructIdtGate address).offset0 (constructIdtGate address).offset1
    (constructIdtGate address).offset2 = address.toNat
  selector : (formInterruptGate address 0x08).segSelector = 0x08
  selector' : (constructIdtGate address).segment_selector = 0x08
  type : (formInterruptGate address 0x08).bitfield = kernelGateType
  type' : (constructIdtGate address).p_dpl_gatetype_ist = kernelGateType

/-- The mask with ones above the field changes nothing, since the field is cut off at 16 bits. -/
theorem offsets_formInterruptGate (address : BitVec 64) (segSelector : BitVec 16) :
    (formInterruptGate address segSelector).offset0 = (constructIdtGate address).offset0 ∧
      (formInterruptGate address segSelector).offset1 = (constructIdtGate address).offset1 ∧
      (formInterruptGate address segSelector).offset2 = (constructIdtGate address).offset2 := by
  have hform := toNat_field address
    (show ((((0xFFFF : BitVec 32) <<< 0x10).signExtend 64) >>> 0x10).setWidth 16 = .allOnes 16 by decide)
  have hconstruct := toNat_field address
    (show (((0xFFFF : BitVec 64) <<< 0x10) >>> 0x10).setWidth 16 = .allOnes 16 by decide)
  exact ⟨rfl, BitVec.eq_of_toNat_eq (hform.trans hconstruct.symm), rfl⟩

/-- The fields of the address are its digits. -/
theorem offsetOf_constructIdtGate (address : BitVec 64) :
    offsetOf (constructIdtGate address).offset0 (constructIdtGate address).offset1
      (constructIdtGate address).offset2 = address.toNat := by
  have hoffset0 := toNat_lowField address (show (0xFFFF : BitVec 64).setWidth 16 = .allOnes 16 by decide)
  have hoffset1 := toNat_field address
    (show (((0xFFFF : BitVec 64) <<< 0x10) >>> 0x10).setWidth 16 = .allOnes 16 by decide)
  have hoffset2 := toNat_field address
    (show (((0xFFFFFFFF : BitVec 64) <<< 0x20) >>> 0x20).setWidth 32 = .allOnes 32 by decide)
  rw [offsetOf, constructIdtGate, hoffset0, hoffset1, hoffset2, mod_add_field, mod_add_field,
    Nat.mod_eq_of_lt address.isLt]

/-- The third byte of a gate is the lower one of the selector. -/
theorem bytes_ne (address : BitVec 64) (segSelector : BitVec 16) :
    (formInterruptGate address segSelector).bytes ≠ (constructIdtGate address).bytes := by
  intro hbytes
  have hthird : some (0 : BitVec 8) = some 8 := congrArg (fun bytes ↦ bytes[2]?) hbytes
  cases hthird

/-- Whatever the address, both gates carry it, and they differ all the same. -/
theorem not_gatesAgree (address : BitVec 64) :
    offsetOf (formInterruptGate address 0x08).offset0 (formInterruptGate address 0x08).offset1
        (formInterruptGate address 0x08).offset2 = address.toNat ∧
      offsetOf (constructIdtGate address).offset0 (constructIdtGate address).offset1
        (constructIdtGate address).offset2 = address.toNat ∧
      (formInterruptGate address 0x08).bytes ≠ (constructIdtGate address).bytes ∧
      ¬ GatesAgree address := by
  obtain ⟨hoffset0, hoffset1, hoffset2⟩ := offsets_formInterruptGate address 0x08
  have hoffset := offsetOf_constructIdtGate address
  have hne := bytes_ne address 0x08
  refine ⟨?_, hoffset, hne, fun hagree ↦ hne hagree.bytes⟩
  rw [hoffset0, hoffset1, hoffset2, hoffset]

/-- The gates of a handler at the address 0. -/
theorem not_gatesAgree_zero :
    (formInterruptGate 0 0x08).bytes = List.replicate 16 0 ∧
      (constructIdtGate 0).bytes = [0, 0, 8, 0, 0, 0x8E] ++ List.replicate 10 0 ∧
      ¬ GatesAgree 0 := by
  refine ⟨by decide, by decide, fun hagree ↦ ?_⟩
  cases hagree.selector

end PenelopeOS.Cpu
