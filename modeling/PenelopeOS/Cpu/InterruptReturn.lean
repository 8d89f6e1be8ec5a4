import PenelopeOS.Cpu.Isr

/-!
# What the interrupt stubs return to

At `iretq` the stack pointer has to be at the instruction pointer that the processor pushed, five words
below where it started. The stubs leave it there exactly when the processor pushed no error code: one
stub takes the error code off together with a word of the context, and the others leave it on.
-/

namespace PenelopeOS.Cpu

open Machine

/-- The stub returns to the interrupted context, given where the processor started to push. -/
structure Resumes (stack : Word) (processor : Processor) (core : Core) : Prop where
  pointer : core.rsp = stack - 40
  context : SameContext core.iretq processor

/-- What is left on the stack at `iretq`. -/
def leftover (vector : Fin 34) : List (Option Origin) :=
  if vector.val = 13 then contextStack.tail
  else if pushesErrorCode vector then some .errorCode :: contextStack
  else contextStack

theorem stack_outline (vector : Fin 34) :
    ((isr.get vector).outline [] (pushesErrorCode vector)).map Shape.stack = some (leftover vector) := by
  revert vector
  decide

theorem length_ne {vector : Fin 34} (hcode : pushesErrorCode vector = true) :
    BitVec.ofNat 64 (8 * (leftover vector).length) ≠ 40 := by
  revert vector
  decide

theorem leftover_eq {vector : Fin 34} (hcode : pushesErrorCode vector = false) :
    leftover vector = contextStack := by
  revert vector
  decide

variable {processor : Processor} {stack errorCode returnAddress : Word}

theorem resumes_isr_iff (vector : Fin 34) (routine : Core → Core) :
    let core := processor.deliver stack (pushesErrorCode vector) errorCode
    let entry := (isr.get vector).entry returnAddress core
    ReturnsClean stack entry (routine entry) →
      (Resumes stack processor ((isr.get vector).run routine returnAddress core) ↔
        pushesErrorCode vector = false) := by
  intro core entry hreturns
  obtain ⟨shape, houtline, hstack⟩ := Option.map_eq_some_iff.mp (stack_outline vector)
  have hfinal : Describes (Origin.value processor errorCode (routine entry)) stack shape
      ((isr.get vector).run routine returnAddress core) :=
    Stub.describes houtline (length_isr vector) routine returnAddress hreturns
      fun register hmem ↦ absurd hmem List.not_mem_nil
  constructor
  · intro hresumes
    apply Bool.eq_false_of_not_eq_true
    intro hcode
    have hrsp := hfinal.rsp.symm.trans hresumes.pointer
    have hdepth : BitVec.ofNat 64 (8 * (leftover vector).length) = 40 := by
      rw [← hstack]
      exact sub_right_injective hrsp
    exact length_ne hcode hdepth
  · intro hcode
    rw [leftover_eq hcode] at hstack
    constructor
    · rw [hfinal.rsp, hstack]
      rfl
    · exact hfinal.iretq hstack

/-- A stub of the table returns to the interrupted context exactly for the vectors that come without an
error code. -/
theorem resumes_iff (table : IdtTable) (vector : Fin 34) (stub : Stub Routine)
    (hinstalled : initialiseIdt table (BitVec.ofNat 8 vector) = some stub) (processor : Processor)
    (stack errorCode returnAddress : Word) (routines : Routine → Core → Core) :
    let core := processor.deliver stack (pushesErrorCode vector) errorCode
    let entry := stub.entry returnAddress core
    ReturnsClean stack entry (routines stub.routine entry) →
      (Resumes stack processor (stub.run (routines stub.routine) returnAddress core) ↔
        pushesErrorCode vector = false) := by
  rw [initialiseIdt_apply] at hinstalled
  obtain rfl := Option.some.inj hinstalled
  exact resumes_isr_iff vector (routines (isr.get vector).routine)

/-- A processor that runs kernel code with its stack at 0x9000. -/
def idleProcessor : Processor where
  registers register := if register = .rsp then 0x9000 else 0
  rflags := 0x202
  memory _ := 0
  rip := 0x1000
  cs := 0x28
  ss := 0x30

theorem resumes_breakpoint :
    Resumes 0x9000 idleProcessor
      (isr3.run id 0x2000 (idleProcessor.deliver 0x9000 (pushesErrorCode 3) 0)) :=
  (resumes_iff (fun _ ↦ none) 3 isr3 (initialiseIdt_apply _ 3) idleProcessor 0x9000 0 0x2000
    (fun _ ↦ id) ⟨rfl, fun _ _ ↦ rfl⟩).mpr rfl

/-- The page fault comes with an error code, which its stub leaves on the stack. -/
theorem not_resumes_pageFault :
    initialiseIdt (fun _ ↦ none) 14 = some isrPf ∧
      ReturnsClean 0x9000 (isrPf.entry 0x2000 (idleProcessor.deliver 0x9000 (pushesErrorCode 14) 0))
        (isrPf.entry 0x2000 (idleProcessor.deliver 0x9000 (pushesErrorCode 14) 0)) ∧
      ¬ Resumes 0x9000 idleProcessor
        (isrPf.run id 0x2000 (idleProcessor.deliver 0x9000 (pushesErrorCode 14) 0)) := by
  refine ⟨initialiseIdt_apply _ 14, ⟨rfl, fun _ _ ↦ rfl⟩, fun hresumes ↦ ?_⟩
  have hcode := (resumes_isr_iff 14 id ⟨rfl, fun _ _ ↦ rfl⟩).mp hresumes
  exact absurd hcode (by decide)

end PenelopeOS.Cpu
