import Mathlib.Data.List.FinRange
import PenelopeOS.Machine.InterruptFrame

/-!
# The interrupt stubs

The stubs of `idt.S` that its table names, and the table of `idt.cpp` that holds their gates. A gate
is represented by the stub that it leads to. Only `isr13` takes an error code off the stack.
-/

namespace PenelopeOS.Cpu

open Machine

/-- The routines that stubs call. -/
inductive Routine where
  | generalIRQ
  | contextSwitchISR
  | pageFaultISR
  deriving DecidableEq, Repr

/-- A stub that passes its vector to `generalIRQ`. -/
def generalStub (vector : Word) : Stub Routine where
  prologue := [.movImmediate vector .rdi]
  routine := .generalIRQ
  epilogue := []

/-- A stub that saves some of the registers around the call. -/
def savingStub (routine : Routine) : Stub Routine where
  prologue := [.cli, .push .rdi, .mov .rsp .rdi, .push .rax, .push .rcx, .push .rdx, .push .rbx,
    .push .rbp, .push .rsi, .pushfq]
  routine := routine
  epilogue := [.popfq, .pop .rsi, .pop .rbp, .pop .rbx, .pop .rdx, .pop .rcx, .pop .rax, .pop .rdi]

def isr0 : Stub Routine := generalStub 0
def isr1 : Stub Routine := generalStub 1
def isr2 : Stub Routine := generalStub 2
def isr3 : Stub Routine := generalStub 3
def isr4 : Stub Routine := generalStub 4
def isr6 : Stub Routine := generalStub 6
def isr7 : Stub Routine := generalStub 7
def isr8 : Stub Routine := generalStub 8
def isr9 : Stub Routine := generalStub 9
def isr10 : Stub Routine := generalStub 10
def isr11 : Stub Routine := generalStub 11
def isr12 : Stub Routine := generalStub 12

/-- Takes 16 bytes off the stack on its way out. -/
def isr13 : Stub Routine where
  prologue := [.cld, .movImmediate 13 .rdi]
  routine := .generalIRQ
  epilogue := [.addImmediate 16 .rsp]

def isr15 : Stub Routine := generalStub 15
def isr16 : Stub Routine := generalStub 16
def isr17 : Stub Routine := generalStub 17
def isr18 : Stub Routine := generalStub 18
def isr19 : Stub Routine := generalStub 19
def isr20 : Stub Routine := generalStub 20
def isr21 : Stub Routine := generalStub 21
def isr22 : Stub Routine := generalStub 22
def isr23 : Stub Routine := generalStub 23
def isr24 : Stub Routine := generalStub 24
def isr25 : Stub Routine := generalStub 25
def isr26 : Stub Routine := generalStub 26
def isr27 : Stub Routine := generalStub 27
def isr28 : Stub Routine := generalStub 28
def isr29 : Stub Routine := generalStub 29
def isr30 : Stub Routine := generalStub 30
def isr31 : Stub Routine := generalStub 31
def isr32 : Stub Routine := generalStub 32
def isrCtxtsw : Stub Routine := savingStub .contextSwitchISR
def isrPf : Stub Routine := savingStub .pageFaultISR

/-- The table of stubs, in which `isr_5`, `isr_14` and `isr_33` do not occur. -/
def isr : Vector (Stub Routine) 34 :=
  #v[isr0, isr1, isr2, isr3, isr4, isrCtxtsw, isr6, isr7, isr8,
    isr9, isr10, isr11, isr12, isr13, isrPf, isr15, isr16, isr17,
    isr18, isr19, isr20, isr21, isr22, isr23, isr24, isr25, isr26,
    isr27, isr28, isr29, isr30, isr31, isr32, isrCtxtsw]

theorem length_isr (vector : Fin 34) :
    (isr.get vector).prologue.length + (isr.get vector).epilogue.length < 0x1000 := by
  revert vector
  decide

/-! ## The interrupt descriptor table -/

abbrev IdtTable := BitVec 8 → Option (Stub Routine)

def setIdtEntry (table : IdtTable) (index : BitVec 8) (handler : Stub Routine) : IdtTable :=
  Function.update table index (some handler)

def initialiseIdt (table : IdtTable) : IdtTable :=
  (List.finRange 34).foldl
    (fun table (i : Fin 34) ↦ setIdtEntry table (BitVec.ofNat 8 i) (isr.get i)) table

/-- The exceptions for which the processor pushes an error code. -/
def pushesErrorCode (vector : ℕ) : Bool := vector ∈ [8, 10, 11, 12, 13, 14, 17, 21]

/-- Each entry is written with its own stub only, so the order does not matter. -/
theorem foldl_setIdtEntry_apply (table : IdtTable) (indices : List (Fin 34)) {vector : Fin 34}
    (hvector : vector ∈ indices) :
    indices.foldl (fun table (i : Fin 34) ↦ setIdtEntry table (BitVec.ofNat 8 i) (isr.get i)) table
      (BitVec.ofNat 8 vector) = some (isr.get vector) := by
  induction indices using List.reverseRecOn with
  | nil => exact absurd hvector List.not_mem_nil
  | append_singleton indices last ih =>
    rw [List.foldl_append, List.foldl_cons, List.foldl_nil, setIdtEntry]
    by_cases hlast : vector = last
    · rw [hlast, Function.update_self]
    · have hindex : BitVec.ofNat 8 vector ≠ BitVec.ofNat 8 last := by
        intro heq
        have hval := congrArg BitVec.toNat heq
        rw [BitVec.toNat_ofNat, BitVec.toNat_ofNat] at hval
        omega
      rw [Function.update_of_ne hindex]
      exact ih ((List.mem_append.mp hvector).resolve_right fun hmem ↦
        hlast (List.mem_singleton.mp hmem))

theorem initialiseIdt_apply (table : IdtTable) (vector : Fin 34) :
    initialiseIdt table (BitVec.ofNat 8 vector) = some (isr.get vector) :=
  foldl_setIdtEntry_apply table _ (List.mem_finRange vector)

end PenelopeOS.Cpu
