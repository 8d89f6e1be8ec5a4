import PenelopeOS.Machine.ByteMemory

/-!
# Straight-line code and interrupts on a 64-bit processor

The instructions that move words between the integer registers and the stack, how the processor
enters an interrupt handler and how `iretq` leaves it. An interrupt pushes the stack segment, the
stack pointer, the flags, the code segment and the instruction pointer, and for some exceptions an
error code. The address it pushes to is given, since it depends on alignment and on privilege.
-/

namespace PenelopeOS.Machine

inductive Register where
  | rax | rcx | rdx | rbx | rsp | rbp | rsi | rdi
  | r8 | r9 | r10 | r11 | r12 | r13 | r14 | r15
  deriving DecidableEq, Repr

/-- What straight-line code works on. -/
structure Core where
  registers : Register → Word
  rflags : Word
  memory : Memory

/-- A core with the place at which it executes. -/
structure Processor extends Core where
  rip : Word
  cs : BitVec 16
  ss : BitVec 16

namespace Core

def rsp (core : Core) : Word := core.registers .rsp

def set (core : Core) (register : Register) (value : Word) : Core :=
  { core with registers := Function.update core.registers register value }

def push (core : Core) (value : Word) : Core where
  registers := Function.update core.registers .rsp (core.rsp - 8)
  rflags := core.rflags
  memory := store64 core.memory (core.rsp - 8) value

/-- The word that the stack pointer is at. -/
def top (core : Core) : Word := load64 core.memory core.rsp

/-- Moves the stack pointer up. -/
def drop (core : Core) (bytes : Word) : Core := core.set .rsp (core.rsp + bytes)

@[simp]
theorem registers_set_self (core : Core) (register : Register) (value : Word) :
    (core.set register value).registers register = value := by
  simp [set]

theorem registers_set_of_ne (core : Core) {register target : Register} (h : register ≠ target)
    (value : Word) : (core.set target value).registers register = core.registers register := by
  simp [set, h]

end Core

/-! ## Instructions -/

/-- The operands stand in the order of the assembler, with the target last. -/
inductive Instruction where
  | cli
  | cld
  | movImmediate (value : Word) (target : Register)
  | mov (source target : Register)
  | push (source : Register)
  | pop (target : Register)
  | pushfq
  | popfq
  | addImmediate (value : Word) (target : Register)
  deriving DecidableEq, Repr

def flagAt (bit : ℕ) (value : Bool) : Word := if value then 1 <<< bit else 0

/-- The carry, parity, adjust, zero, sign and overflow flags of a sum. -/
def sumFlags (first second rflags : Word) : Word :=
  let sum := first + second
  rflags &&& ~~~0x8d5 ||| flagAt 0 (sum < first) |||
    flagAt 2 ((List.range 8).countP (sum.getLsbD ·) % 2 = 0) |||
    flagAt 4 ((first ^^^ second ^^^ sum).getLsbD 4) ||| flagAt 6 (sum = 0) ||| flagAt 7 sum.msb |||
    flagAt 11 (first.msb = second.msb ∧ sum.msb ≠ first.msb)

/-- The flags that `popfq` can write in ring zero, and those that it clears. -/
def popfqWrites : Word := 0x247fd5
def popfqClears : Word := 0x190000

def Instruction.exec (core : Core) : Instruction → Core
  | .cli => { core with rflags := core.rflags &&& ~~~0x200 }
  | .cld => { core with rflags := core.rflags &&& ~~~0x400 }
  | .movImmediate value target => core.set target value
  | .mov source target => core.set target (core.registers source)
  | .push source => core.push (core.registers source)
  | .pop target => (core.drop 8).set target core.top
  | .pushfq => core.push (core.rflags &&& 0xfcffff)
  | .popfq =>
    { core.drop 8 with
      rflags := core.top &&& popfqWrites ||| core.rflags &&& ~~~(popfqWrites ||| popfqClears) }
  | .addImmediate value target =>
    { core.set target (core.registers target + value) with
      rflags := sumFlags (core.registers target) value core.rflags }

def execute (code : List Instruction) (core : Core) : Core := code.foldl Instruction.exec core

/-- A call of a routine that ends in `ret`. `routine` takes the core at its first instruction, with
the return address on the stack, to the core at its `ret`. -/
def Core.call (core : Core) (routine : Core → Core) (returnAddress : Word) : Core :=
  (routine (core.push returnAddress)).drop 8

/-! ## Interrupts -/

/-- The entry through an interrupt gate, with pushes from `stack` down. The trap, interrupt, nested
task, resume and virtual-8086 flags are cleared. -/
def Processor.deliver (processor : Processor) (stack : Word) (pushesCode : Bool) (errorCode : Word) :
    Core :=
  let entered : Core :=
    { processor.toCore.set .rsp stack with rflags := processor.rflags &&& ~~~0x34300 }
  let framed := ((((entered.push (processor.ss.setWidth 64)).push processor.rsp).push
    processor.rflags).push (processor.cs.setWidth 64)).push processor.rip
  if pushesCode then framed.push errorCode else framed

/-- What `iretq` resumes. -/
def Core.iretq (core : Core) : Processor where
  toCore :=
    { core.set .rsp (load64 core.memory (core.rsp + 24)) with
      rflags := load64 core.memory (core.rsp + 16) }
  rip := load64 core.memory core.rsp
  cs := (load64 core.memory (core.rsp + 8)).setWidth 16
  ss := (load64 core.memory (core.rsp + 32)).setWidth 16

end PenelopeOS.Machine
