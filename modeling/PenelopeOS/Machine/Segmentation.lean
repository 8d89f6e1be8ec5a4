import PenelopeOS.Machine.PackedBytes

/-!
# Descriptor tables of a 64-bit processor

What the processor reads from the descriptor tables in memory when it runs in ring 0: the segment that
a selector names, the task state segment that `ltr` loads, and the handler that a gate of the interrupt
descriptor table leads to.
-/

namespace PenelopeOS.Machine

inductive Exception where
  | generalProtection
  | segmentNotPresent
  deriving DecidableEq, Repr

/-- `gdtr` or `idtr` -/
structure TableRegister where
  limit : BitVec 16
  base : Word
  deriving DecidableEq, Repr

structure TaskRegister where
  selector : BitVec 16
  base : Word
  limit : BitVec 20
  deriving DecidableEq, Repr

/-- The registers that name descriptors, with memory and the interrupt flag. -/
structure System where
  memory : Memory
  gdtr : TableRegister
  idtr : TableRegister
  tr : TaskRegister
  cs : BitVec 16
  ss : BitVec 16
  ds : BitVec 16
  es : BitVec 16
  fs : BitVec 16
  gs : BitVec 16
  interrupts : Bool

/-- The operand of `lgdt` and of `lidt`. -/
def loadTableRegister (memory : Memory) (address : Word) : TableRegister where
  limit := memory (address + 1) ++ memory address
  base := load64 memory (address + 2)

/-- The address of the descriptor of a selector, of the given size, in the global descriptor table. -/
def descriptorAddress (gdtr : TableRegister) (selector : BitVec 16) (size : ℕ) : Except Exception Word :=
  let offset := selector &&& 0xfff8
  if offset = 0 ∨ selector.getLsbD 2 = true ∨ gdtr.limit.toNat + 1 < offset.toNat + size then
    .error .generalProtection
  else .ok (gdtr.base + offset.setWidth 64)

def presentSegment (descriptor : Word) : Except Exception Unit :=
  if descriptor.getLsbD 47 then .ok () else .error .segmentNotPresent

/-- A segment of 64-bit code of ring 0. -/
def checkCode (system : System) (selector : BitVec 16) : Except Exception Unit := do
  let descriptor := load64 system.memory (← descriptorAddress system.gdtr selector 8)
  if descriptor.extractLsb' 43 2 ≠ 0b11 ∨ descriptor.extractLsb' 45 2 ≠ 0 ∨
      descriptor.extractLsb' 53 2 ≠ 0b01 then
    .error .generalProtection
  else presentSegment descriptor

/-- A writable data segment of ring 0. -/
def checkData (system : System) (selector : BitVec 16) : Except Exception Unit := do
  let descriptor := load64 system.memory (← descriptorAddress system.gdtr selector 8)
  if descriptor.extractLsb' 43 2 ≠ 0b10 ∨ descriptor.getLsbD 41 = false ∨
      descriptor.extractLsb' 45 2 ≠ 0 then
    .error .generalProtection
  else presentSegment descriptor

/-- The processor sets the Accessed bit in the descriptor of a segment that it loads. -/
def markAccessed (system : System) (selector : BitVec 16) : Except Exception System := do
  let place := (← descriptorAddress system.gdtr selector 8) + 5
  return { system with memory := storeBytes system.memory place [system.memory place ||| 1] }

/-- A code segment that ring 0 can return to, of this ring or of an outer one. -/
def checkReturn (memory : Memory) (gdtr : TableRegister) (selector : BitVec 16) :
    Except Exception Unit := do
  let descriptor := load64 memory (← descriptorAddress gdtr selector 8)
  let dpl := descriptor.extractLsb' 45 2
  let rpl := selector.extractLsb' 0 2
  let conforming := descriptor.getLsbD 42
  if descriptor.extractLsb' 43 2 ≠ 0b11 ∨ (conforming = false ∧ dpl ≠ rpl) ∨
      (conforming = true ∧ rpl < dpl) ∨ descriptor.extractLsb' 53 2 = 0b11 then
    .error .generalProtection
  else presentSegment descriptor

/-- The base of the 16 bytes of a task state segment descriptor. -/
def taskBase (low high : Word) : Word :=
  high.extractLsb' 0 32 ++ low.extractLsb' 56 8 ++ low.extractLsb' 16 24

def taskLimit (low : Word) : BitVec 20 := low.extractLsb' 48 4 ++ low.extractLsb' 0 16

/-- `ltr` marks the task state segment as busy. -/
def ltr (system : System) (selector : BitVec 16) : Except Exception System := do
  let address ← descriptorAddress system.gdtr selector 16
  let low := load64 system.memory address
  let high := load64 system.memory (address + 8)
  if low.extractLsb' 40 5 ≠ 0b01001 then .error .generalProtection
  else
    presentSegment low
    let memory := storeBytes system.memory (address + 5) [system.memory (address + 5) ||| 2]
    return { system with memory := memory, tr := ⟨selector, taskBase low high, taskLimit low⟩ }

/-! ## Interrupts -/

/-- Where an interrupt goes: the code segment, the instruction pointer and the interrupt stack. -/
structure Handler where
  selector : BitVec 16
  offset : Word
  ist : BitVec 3
  deriving DecidableEq, Repr

/-- The gate of a vector, in ring 0. -/
def gateAt (system : System) (vector : BitVec 8) : Except Exception Handler :=
  let address := system.idtr.base + 16 * vector.setWidth 64
  let low := load64 system.memory address
  let high := load64 system.memory (address + 8)
  if system.idtr.limit.toNat < 16 * vector.toNat + 15 then .error .generalProtection
  else if low.extractLsb' 41 4 ≠ 0b0111 then .error .generalProtection
  else if low.getLsbD 47 = false then .error .segmentNotPresent
  else .ok ⟨low.extractLsb' 16 16,
    high.extractLsb' 0 32 ++ low.extractLsb' 48 16 ++ low.extractLsb' 0 16, low.extractLsb' 32 3⟩

/-- The handler that an interrupt is delivered to. -/
def dispatch (system : System) (vector : BitVec 8) : Except Exception Handler := do
  let handler ← gateAt system vector
  checkCode system handler.selector
  return handler

theorem dispatch_of_gate {system : System} {vector : BitVec 8} {handler : Handler}
    (hgate : gateAt system vector = .ok handler) (hcode : checkCode system handler.selector = .ok ()) :
    dispatch system vector = .ok handler := by
  simp only [dispatch, hgate, bind, Except.bind, hcode]
  rfl

theorem dispatch_of_exception {system : System} {vector : BitVec 8} {exception : Exception}
    (hgate : gateAt system vector = .error exception) : dispatch system vector = .error exception := by
  simp only [dispatch, hgate, bind, Except.bind]

end PenelopeOS.Machine
