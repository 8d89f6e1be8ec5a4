import PenelopeOS.Cpu.RegisterTransparency
import PenelopeOS.Foundation.Interference
import PenelopeOS.Machine.StackWrites
import PenelopeOS.Machine.Threads

/-!
# A thread under interrupts

Between any two steps of a thread the processor may go through a stub of the table and come back. The stubs
save part of the registers, and the routines write below the stack pointer of the thread and to memory of
their own. A thread whose steps depend on neither does the same with interrupts as without them, wherever
they arrive. Which registers it may count on is a matter of the stubs: only those stubs take part that lose
none of them.
-/

namespace PenelopeOS.Cpu

open Foundation Machine

inductive Turn where
  | program
  | interrupt (vector : Fin 34)
  deriving DecidableEq, Repr

def Turn.isProgram : Turn → Bool
  | .program => true
  | .interrupt _ => false

/-- Without a change of the stack, the processor pushes from the next lower multiple of 16. -/
def interruptStack (processor : Processor) : Word := processor.rsp &&& ~~~0xF

/-- The core at the entry of a stub. -/
def delivered (processor : Processor) (vector : Fin 34) (errorCode : Word) : Core :=
  processor.deliver (interruptStack processor) (pushesErrorCode vector) errorCode

variable {territory : Territory} {lost : List Register}

/-- One step of the thread, or one interrupt without an error code from its entry to its return, through a
stub that loses no other registers than the thread does without. -/
inductive Moves (thread : Thread territory lost) : Processor → Turn → Processor → Prop
  | program {processor processor' : Processor} (hstep : thread.Step processor processor') :
      Moves thread processor .program processor'
  | interrupt {processor : Processor} {vector : Fin 34} {errorCode returnAddress : Word}
      {routine : Core → Core} {entry : Core}
      (hentry : (isr.get vector).entry returnAddress (delivered processor vector errorCode) = entry)
      (hcode : pushesErrorCode vector = false) (hlost : unsaved vector ⊆ lost)
      (hroom : territory.limit + 8 * (6 + (isr.get vector).prologue.length) ≤
        (interruptStack processor).toNat)
      (hobeys : ObeysConvention (interruptStack processor) entry (routine entry))
      (hwrites : ∀ address, ¬ territory.Hidden (interruptStack processor) address →
        (routine entry).memory address = entry.memory address) :
      Moves thread processor (.interrupt vector)
        ((isr.get vector).run routine returnAddress (delivered processor vector errorCode)).iretq

theorem toNat_interruptStack_le (processor : Processor) :
    (interruptStack processor).toNat ≤ processor.rsp.toNat := by
  rw [interruptStack, BitVec.toNat_and]
  exact Nat.and_le_left

theorem writes_epilogue (vector : Fin 34) : (isr.get vector).epilogue.all fun i ↦ !i.Writes := by
  revert vector
  decide

variable {thread : Thread territory lost} {processor processor' : Processor} {vector : Fin 34}

/-- The thread cannot tell that there was an interrupt. -/
theorem alikeAt_of_interrupt (h : Moves thread processor (.interrupt vector) processor') :
    AlikeAt territory lost processor' processor := by
  cases h with
  | @interrupt _ errorCode returnAddress routine entry hentry hcode hlost hroom hobeys hwrites =>
    subst hentry
    have hcontext := ((resumes_isr_iff vector routine hobeys.toReturnsClean).mpr hcode).context
    have hregisters (register : Register) (hregister : register ∉ lost) :
        ((isr.get vector).run routine returnAddress
          (delivered processor vector errorCode)).iretq.registers register =
            processor.registers register := by
      by_cases hpointer : register = .rsp
      · rw [hpointer]
        exact hcontext.rsp
      · have hfinal := registers_isr vector routine hpointer hobeys
        rw [if_neg fun hunsaved ↦ hregister (hlost hunsaved)] at hfinal
        rw [← hfinal]
        exact Core.registers_set_of_ne _ hpointer _
    have hrsp : ((isr.get vector).run routine returnAddress
        (delivered processor vector errorCode)).iretq.rsp = processor.rsp := hcontext.rsp
    obtain ⟨shape, houtline, -⟩ := Option.map_eq_some_iff.mp (stack_outline vector)
    have hstack := toNat_interruptStack_le processor
    refine ⟨⟨hcontext.rflags, hcontext.rsp, hregisters, fun address haddress ↦ ?_⟩, hcontext.rip,
      hcontext.cs, hcontext.ss⟩
    rw [hrsp] at haddress
    have houtside : ¬ (territory.limit ≤ address.toNat ∧
        address.toNat < (interruptStack processor).toNat) :=
      fun hinside ↦ haddress (.inr ⟨hinside.1, hinside.2.trans_le hstack⟩)
    have hhidden : ¬ territory.Hidden (interruptStack processor) address :=
      fun hhidden ↦ hhidden.elim (fun hdevice ↦ haddress (.inl hdevice)) houtside
    refine Stub.run_memory houtline (writes_epilogue vector) ?_ houtside (hwrites address hhidden)
    rw [hcode]
    change _ + 8 * (5 + _ + 1) ≤ _
    omega

theorem undisturbed (thread : Thread territory lost) :
    Undisturbed (Moves thread) (AlikeAt territory lost) Turn.isProgram where
  program := by
    rintro first event next second howner halike hmove
    cases hmove with
    | program hstep =>
      obtain ⟨next', hstep', hnext⟩ := thread.exists_step halike hstep
      exact ⟨next', .program hstep', hnext⟩
    | interrupt => cases howner
  surroundings := by
    rintro first event next second howner halike hmove
    cases event with
    | program => cases howner
    | interrupt vector => exact (alikeAt_of_interrupt hmove).trans halike

/-- Wherever the interrupts arrive, the thread does what it does without them: its steps alone lead to the
same place, with the same stack and the same registers, as far as these are not lost. -/
theorem uninterrupted_of_run (thread : Thread territory lost) {start final : Processor}
    {moves : List (Processor × Turn)} (run : Run (Moves thread) start moves final) :
    ∃ moves' final', Run (Moves thread) start moves' final' ∧
      moves'.map Prod.snd = (moves.map Prod.snd).filter Turn.isProgram ∧
      AlikeAt territory lost final final' :=
  (undisturbed thread).exists_run run ⟨.refl territory lost start.toCore, rfl, rfl, rfl⟩

/-- A stack below 0xa000. -/
def idleTerritory : Territory where
  limit := 0x8000
  top := 0xa000
  devices := ∅
  wrap := by decide
  apart _ hdevice := absurd hdevice (Set.notMem_empty _)

/-- `push %rax`, then `pop %rcx` -/
def idleCode (rip : Word) : Option (Instruction × Word) :=
  if rip = 0x1000 then some (.push .rax, 1) else if rip = 0x1001 then some (.pop .rcx, 1) else none

theorem avoids_idleCode (rip : Word) (instruction : Instruction) (length : Word)
    (hfetch : idleCode rip = some (instruction, length)) : instruction.avoids (unsaved 33) = true := by
  rw [idleCode] at hfetch
  split_ifs at hfetch
  · cases hfetch
    decide
  · cases hfetch
    decide

def idleThread : Thread idleTerritory (unsaved 33) := .straightLine idleTerritory idleCode avoids_idleCode

theorem moves_push : Moves idleThread idleProcessor .program (idleProcessor.advance (.push .rax) 1) :=
  .program ⟨_, _, rfl, by decide, by decide, rfl⟩

/-- A routine that destroys `r8` runs between the two instructions. -/
theorem uninterrupted_of_run_idle :
    ∃ (final : Processor) (moves' : List (Processor × Turn)) (final' : Processor),
      Run (Moves idleThread) idleProcessor moves' final' ∧
      moves'.map Prod.snd = [.program, .program] ∧ AlikeAt idleTerritory (unsaved 33) final final' := by
  have hinterrupt : Moves idleThread (idleProcessor.advance (.push .rax) 1)
      (.interrupt 33) (isrCtxtsw.run (scribble 7) 0x2000
        (delivered (idleProcessor.advance (.push .rax) 1) 33 0)).iretq :=
    .interrupt rfl rfl (List.Subset.refl _) (by decide) (scribble_obeys _ 7 _) (fun _ _ ↦ rfl)
  obtain ⟨moves', final', hrun, hmoves, halike⟩ := uninterrupted_of_run idleThread
    (.snoc (.snoc (.snoc .nil moves_push) hinterrupt)
      (.program ⟨_, _, rfl, by decide, by decide, rfl⟩))
  exact ⟨_, moves', final', hrun, hmoves, halike⟩

end PenelopeOS.Cpu
