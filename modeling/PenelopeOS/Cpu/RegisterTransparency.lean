import PenelopeOS.Cpu.InterruptReturn

/-!
# Which registers an interrupt preserves

The calling convention lets a routine destroy nine registers. The general stubs save none of them and
two stubs save five, so an interrupt is transparent exactly when the routine happens to return the
remaining ones as they were. For every vector some routine that obeys the convention does not.
-/

namespace PenelopeOS.Cpu

open Machine

/-- The registers that a routine keeps, next to the stack pointer. -/
def calleeSaved : List Register := [.rbx, .rbp, .r12, .r13, .r14, .r15]

/-- The registers that it may destroy. -/
def callerSaved : List Register := [.rax, .rcx, .rdx, .rsi, .rdi, .r8, .r9, .r10, .r11]

/-- A routine obeys the System V calling convention. -/
structure ObeysConvention (stack : Word) (entry exit : Core) : Prop
    extends ReturnsClean stack entry exit where
  preserved : ∀ register ∈ calleeSaved, exit.registers register = entry.registers register

/-- All registers but the stack pointer have the values that they had at the interrupt. -/
def Transparent (processor : Processor) (core : Core) : Prop :=
  ∀ register ≠ .rsp, core.registers register = processor.registers register

/-- The caller-saved registers that the stub does not take off the stack. -/
def unsaved (vector : Fin 34) : List Register :=
  if vector.val ∈ [5, 14, 33] then [.r8, .r9, .r10, .r11] else callerSaved

theorem registers_outline (vector : Fin 34) (register : Register) :
    ((isr.get vector).outline calleeSaved (pushesErrorCode vector)).map (·.registers register) =
      some (if register = .rsp then none
        else if register ∈ unsaved vector then some (.returned register)
        else some (.interrupted register)) := by
  revert vector
  cases register <;> decide

variable {processor : Processor} {stack errorCode returnAddress : Word}

/-- At `iretq` an unsaved register has what the routine returned in it, and any other register what it
had at the interrupt. -/
theorem registers_isr (vector : Fin 34) (routine : Core → Core) {register : Register}
    (hregister : register ≠ .rsp) :
    let core := processor.deliver stack (pushesErrorCode vector) errorCode
    let entry := (isr.get vector).entry returnAddress core
    ObeysConvention stack entry (routine entry) →
      ((isr.get vector).run routine returnAddress core).registers register =
        if register ∈ unsaved vector then (routine entry).registers register
        else processor.registers register := by
  intro core entry hobeys
  obtain ⟨shape, houtline, hregisters⟩ :=
    Option.map_eq_some_iff.mp (registers_outline vector register)
  have hfinal : Describes (Origin.value processor errorCode (routine entry)) stack shape
      ((isr.get vector).run routine returnAddress core) :=
    Stub.describes houtline (length_isr vector) routine returnAddress hobeys.toReturnsClean
      hobeys.preserved
  have hnamed := hfinal.registers register
  rw [hregisters, if_neg hregister] at hnamed
  by_cases hunsaved : register ∈ unsaved vector
  · rw [if_pos hunsaved] at hnamed ⊢
    exact hnamed (.returned register) rfl
  · rw [if_neg hunsaved] at hnamed ⊢
    exact hnamed (.interrupted register) rfl

theorem ne_rsp_of_mem_unsaved {vector : Fin 34} {register : Register}
    (hunsaved : register ∈ unsaved vector) : register ≠ .rsp := by
  rintro rfl
  revert vector
  decide

theorem transparent_isr_iff (vector : Fin 34) (routine : Core → Core) :
    let core := processor.deliver stack (pushesErrorCode vector) errorCode
    let entry := (isr.get vector).entry returnAddress core
    ObeysConvention stack entry (routine entry) →
      (Transparent processor ((isr.get vector).run routine returnAddress core) ↔
        ∀ register ∈ unsaved vector,
          (routine entry).registers register = processor.registers register) := by
  intro core entry hobeys
  constructor
  · intro htransparent register hunsaved
    have hregister := ne_rsp_of_mem_unsaved hunsaved
    have hfinal := registers_isr vector routine hregister hobeys
    rw [if_pos hunsaved] at hfinal
    exact hfinal.symm.trans (htransparent register hregister)
  · intro hreturned register hregister
    have hfinal := registers_isr vector routine hregister hobeys
    by_cases hunsaved : register ∈ unsaved vector
    · rw [if_pos hunsaved] at hfinal
      exact hfinal.trans (hreturned register hunsaved)
    · rw [if_neg hunsaved] at hfinal
      exact hfinal

/-- A routine that obeys the convention and still changes one of the unsaved registers. -/
def scribble (value : Word) (core : Core) : Core := core.set .r8 value

theorem scribble_obeys (stack value : Word) (entry : Core) :
    ObeysConvention stack entry (scribble value entry) where
  rsp := entry.registers_set_of_ne (by decide) value
  frame _ _ := rfl
  preserved register hmem := by
    have hne : register ≠ .r8 := by
      rintro rfl
      exact absurd hmem (by decide)
    exact entry.registers_set_of_ne hne value

theorem r8_mem_unsaved (vector : Fin 34) : .r8 ∈ unsaved vector := by
  revert vector
  decide

/-- No vector is transparent for every routine. -/
theorem exists_not_transparent (vector : Fin 34) (processor : Processor)
    (stack errorCode returnAddress : Word) :
    let core := processor.deliver stack (pushesErrorCode vector) errorCode
    let entry := (isr.get vector).entry returnAddress core
    ∃ routine : Core → Core, ObeysConvention stack entry (routine entry) ∧
      ¬ Transparent processor ((isr.get vector).run routine returnAddress core) := by
  intro core entry
  have hobeys := scribble_obeys stack (processor.registers .r8 + 1) entry
  refine ⟨scribble (processor.registers .r8 + 1), hobeys, fun htransparent ↦ ?_⟩
  have hreturned :=
    (transparent_isr_iff vector _ hobeys).mp htransparent .r8 (r8_mem_unsaved vector)
  have hchanged : (scribble (processor.registers .r8 + 1) entry).registers .r8 =
      processor.registers .r8 + 1 := entry.registers_set_self .r8 _
  exact absurd (hchanged.symm.trans hreturned) (by simp)

/-- An interrupt is transparent exactly when the routine returns the registers that the stub does not
save as they were. -/
theorem transparent_iff (table : IdtTable) (vector : Fin 34) (stub : Stub Routine)
    (hinstalled : initialiseIdt table (BitVec.ofNat 8 vector) = some stub) (processor : Processor)
    (stack errorCode returnAddress : Word) (routines : Routine → Core → Core) :
    let core := processor.deliver stack (pushesErrorCode vector) errorCode
    let entry := stub.entry returnAddress core
    ObeysConvention stack entry (routines stub.routine entry) →
      (Transparent processor (stub.run (routines stub.routine) returnAddress core) ↔
        ∀ register ∈ unsaved vector,
          (routines stub.routine entry).registers register = processor.registers register) := by
  rw [initialiseIdt_apply] at hinstalled
  obtain rfl := Option.some.inj hinstalled
  exact transparent_isr_iff vector (routines (isr.get vector).routine)

theorem transparent_contextSwitch :
    Transparent idleProcessor
      (isrCtxtsw.run id 0x2000 (idleProcessor.deliver 0x9000 (pushesErrorCode 5) 0)) :=
  (transparent_iff (fun _ ↦ none) 5 isrCtxtsw (initialiseIdt_apply _ 5) idleProcessor 0x9000 0 0x2000
    (fun _ ↦ id) ⟨⟨rfl, fun _ _ ↦ rfl⟩, fun _ _ ↦ rfl⟩).mpr (by decide)

/-- The stub of the breakpoint leaves its vector in `rdi`, even when the routine changes nothing. -/
theorem not_transparent_breakpoint :
    initialiseIdt (fun _ ↦ none) 3 = some isr3 ∧
      ObeysConvention 0x9000
        (isr3.entry 0x2000 (idleProcessor.deliver 0x9000 (pushesErrorCode 3) 0))
        (isr3.entry 0x2000 (idleProcessor.deliver 0x9000 (pushesErrorCode 3) 0)) ∧
      ¬ Transparent idleProcessor
        (isr3.run id 0x2000 (idleProcessor.deliver 0x9000 (pushesErrorCode 3) 0)) := by
  refine ⟨initialiseIdt_apply _ 3, ⟨⟨rfl, fun _ _ ↦ rfl⟩, fun _ _ ↦ rfl⟩, fun htransparent ↦ ?_⟩
  exact absurd (htransparent .rdi (by decide)) (by decide)

end PenelopeOS.Cpu
