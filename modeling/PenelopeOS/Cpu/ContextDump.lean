import PenelopeOS.Console.Reports
import PenelopeOS.Cpu.Interleaving

/-!
# What an interrupt prints of a thread

`contextSwitchISR` gets the address at which its stub has pushed `rdi`, and prints the words around it.
Its text shows the registers that the thread would have at that point without any interrupts.
-/

namespace PenelopeOS.Cpu

open Console Foundation Machine

/-- What `contextSwitchISR` inserts into `kout`. -/
def contextItems (memory : Memory) (saddr : Word) : List Item :=
  let prdi := load64 memory saddr
  let prax := load64 memory (saddr - 8)
  let prcx := load64 memory (saddr - 16)
  let prdx := load64 memory (saddr - 24)
  let prbx := load64 memory (saddr - 32)
  let prbp := load64 memory (saddr - 40)
  let prsi := load64 memory (saddr - 48)
  let prflags := load64 memory (saddr - 56)
  [.text (ascii "AN INTERRUPT HAS OCCURED"), .char 10, .word saddr, .char 10,
    .text (ascii "rax = "), .word prax, .char 10, .text (ascii "rbx = "), .word prbx, .char 10,
    .text (ascii "rcx = "), .word prcx, .char 10, .text (ascii "rdx = "), .word prdx, .char 10,
    .text (ascii "rsi = "), .word prsi, .char 10, .text (ascii "rdi = "), .word prdi, .char 10,
    .text (ascii "rbp = "), .word prbp, .char 10, .text (ascii "rflags = "), .word prflags, .char 10,
    .text (ascii "we tryna to ctxt sw"), .char 10] ++
  [.text (ascii "END OF HANDLING"), .char 10]

def contextSwitchISR (memory : Memory) (stackaddr : Word) (out : Kostream) :
    Except Fault (List (BitVec 8) × Kostream) :=
  out.write (contextItems memory stackaddr)

/-- What `generalIRQ` inserts. -/
def generalItems (x : BitVec 32) : List Item :=
  [.text (ascii "AN INTERRUPT HAS OCCURED"), .char 10, .text (ascii "interrupt code: "), .int x, .char 10,
    .text (ascii "END OF HANDLING"), .char 10]

/-- What `PageFaultISR` inserts. It does not look at its argument. -/
def pageFaultItems (cr2 : Word) : List Item :=
  [.text (ascii "PAGEFAULTING"), .char 10] ++ [.text (ascii "faulting address: "), .word cr2, .char 10]

/-! ## The words on the stack -/

/-- The labels in front of the numbers. -/
def contextLabels : List (List (BitVec 8)) :=
  [ascii "AN INTERRUPT HAS OCCURED" ++ [13, 10], [13, 10] ++ ascii "rax = ", [13, 10] ++ ascii "rbx = ",
    [13, 10] ++ ascii "rcx = ", [13, 10] ++ ascii "rdx = ", [13, 10] ++ ascii "rsi = ",
    [13, 10] ++ ascii "rdi = ", [13, 10] ++ ascii "rbp = ", [13, 10] ++ ascii "rflags = "]

def contextMark : List (BitVec 8) :=
  [13, 10] ++ ascii "we tryna to ctxt sw" ++ [13, 10] ++ ascii "END OF HANDLING" ++ [13, 10]

/-- The flags that the stub pushes: those of the thread, without the ones that the entry clears. -/
def pushedFlags (processor : Processor) : Word :=
  processor.rflags &&& ~~~0x34300 &&& ~~~0x200 &&& 0xfcffff

/-- The address of `rdi` on the stack, and the registers of the thread. -/
def contextValues (processor : Processor) : List ℕ :=
  [(interruptStack processor - 48).toNat, (processor.registers .rax).toNat,
    (processor.registers .rbx).toNat, (processor.registers .rcx).toNat, (processor.registers .rdx).toNat,
    (processor.registers .rsi).toNat, (processor.registers .rdi).toNat, (processor.registers .rbp).toNat,
    (pushedFlags processor).toNat]

variable {processor : Processor} {out : Kostream}

/-- The row of the items reads as the words. -/
theorem contextSwitchISR_writes (hmode : out.mode ≠ .bin) (memory : Memory) (saddr : Word) :
    ∃ text, contextSwitchISR memory saddr out = .ok (text, out) ∧
      readRow (digitOf out.mode.base) out.mode.base contextMark contextLabels text =
        some ([saddr.toNat, (load64 memory (saddr - 8)).toNat, (load64 memory (saddr - 32)).toNat,
          (load64 memory (saddr - 16)).toNat, (load64 memory (saddr - 24)).toNat,
          (load64 memory (saddr - 48)).toNat, (load64 memory saddr).toNat,
          (load64 memory (saddr - 40)).toNat, (load64 memory (saddr - 56)).toNat], []) := by
  have hfirst : Field.Shows out out.mode.base
      ⟨[.text (ascii "AN INTERRUPT HAS OCCURED"), .char 10], .word saddr⟩
      (ascii "AN INTERRUPT HAS OCCURED" ++ [13, 10], saddr.toNat) := ⟨rfl, printsAs_word hmode saddr⟩
  have hnext (label : List (BitVec 8)) (hlabel : 10 ∉ label) (value : Word) :
      Field.Shows out out.mode.base ⟨[.char 10, .text label], .word value⟩
        ([13, 10] ++ label, value.toNat) := by
    refine ⟨?_, printsAs_word hmode value⟩
    change Except.ok ([13, 10] ++ (logText label ++ []), out) = _
    rw [List.append_nil, logText_eq_self hlabel]
  have hlast : out.write [.char 10, .text (ascii "we tryna to ctxt sw"), .char 10,
      .text (ascii "END OF HANDLING"), .char 10] = .ok (contextMark, out) := by
    rfl
  obtain ⟨text, hwrite, hrow⟩ := exists_write_row
    (.cons hfirst <| .cons (hnext (ascii "rax = ") (by decide) (load64 memory (saddr - 8))) <|
      .cons (hnext (ascii "rbx = ") (by decide) (load64 memory (saddr - 32))) <|
      .cons (hnext (ascii "rcx = ") (by decide) (load64 memory (saddr - 16))) <|
      .cons (hnext (ascii "rdx = ") (by decide) (load64 memory (saddr - 24))) <|
      .cons (hnext (ascii "rsi = ") (by decide) (load64 memory (saddr - 48))) <|
      .cons (hnext (ascii "rdi = ") (by decide) (load64 memory saddr)) <|
      .cons (hnext (ascii "rbp = ") (by decide) (load64 memory (saddr - 40))) <|
      .cons (hnext (ascii "rflags = ") (by decide) (load64 memory (saddr - 56))) .nil) hlast
  refine ⟨text, hwrite, ?_⟩
  have hread := readRow_append hrow (fun label hlabel ↦ ?_) []
  · rwa [List.append_nil] at hread
  · have hreturn : ∃ rest, label = 13 :: rest := by
      simp only [List.map_cons, List.map_nil, List.tail_cons, List.cons_append, List.nil_append,
        List.mem_cons, List.not_mem_nil, or_false] at hlabel
      rcases hlabel with rfl | rfl | rfl | rfl | rfl | rfl | rfl | rfl | rfl <;> exact ⟨_, rfl⟩
    obtain ⟨rest, rfl⟩ := hreturn
    exact ⟨13, rest, rfl, digitOf_return out⟩

/-- The names of the words from the return address of the routine up. -/
def contextNames : List (Option Origin) :=
  [none, none, some (.interrupted .rsi), some (.interrupted .rbp), some (.interrupted .rbx),
    some (.interrupted .rdx), some (.interrupted .rcx), some (.interrupted .rax),
    some (.interrupted .rdi)] ++ contextStack

theorem holds_entry (processor : Processor) (stack errorCode returnAddress : Word) :
    Holds (Origin.value processor errorCode processor.toCore)
      (isrCtxtsw.entry returnAddress (processor.deliver stack false errorCode)).memory stack
      contextNames := by
  have hdelivered := describes_deliver processor stack false errorCode processor.toCore
  obtain ⟨shape, hrun, hstack⟩ : ∃ shape,
      (Shape.delivered false).run isrCtxtsw.prologue = some shape ∧
        none :: shape.stack = contextNames := ⟨_, rfl, rfl⟩
  have hprologue := hdelivered.execute (by decide) hrun
  have hlength : shape.stack.length = 13 := by
    have hnames := congrArg List.length hstack
    exact Nat.succ.inj hnames
  have hentry := hprologue.push (by rw [hlength]; decide) (named_none _ returnAddress)
  rw [← hstack]
  exact hentry.stack

/-- `rdi` points to where it was pushed, and the flags are the last word of the stub. -/
theorem registers_entry (processor : Processor) (stack errorCode returnAddress : Word) :
    let entry := isrCtxtsw.entry returnAddress (processor.deliver stack false errorCode)
    entry.registers .rdi = stack - 48 ∧
      load64 entry.memory (stack - 48 - 56) = pushedFlags processor := by
  intro entry
  have hdelivered := describes_deliver processor stack false errorCode processor.toCore
  have hpointer : (processor.deliver stack false errorCode).rsp = stack - 40 := hdelivered.rsp
  constructor
  · have hrdi : entry.registers .rdi = (processor.deliver stack false errorCode).rsp - 8 := rfl
    rw [hrdi, hpointer]
    ring
  · let core := execute [.cli, .push .rdi, .mov .rsp .rdi, .push .rax, .push .rcx, .push .rdx, .push .rbx,
      .push .rbp, .push .rsi] (processor.deliver stack false errorCode)
    have hflags : core.rflags &&& 0xfcffff = pushedFlags processor := rfl
    have hrsp : core.rsp - 8 = stack - 48 - 56 := by
      have hcore : core.rsp = (processor.deliver stack false errorCode).rsp - 8 - 8 - 8 - 8 - 8 - 8 - 8 :=
        rfl
      rw [hcore, hpointer]
      ring
    have hword := load64_push_push core (core.rflags &&& 0xfcffff) returnAddress
    rwa [hrsp, hflags] at hword

/-- The text shows the thread that was interrupted. -/
theorem contextSwitchISR_shows (processor : Processor) (errorCode returnAddress : Word) {vector : Fin 34}
    (hcode : pushesErrorCode vector = false) (hmode : out.mode ≠ .bin) :
    let entry := isrCtxtsw.entry returnAddress (delivered processor vector errorCode)
    ∃ text, contextSwitchISR entry.memory (entry.registers .rdi) out = .ok (text, out) ∧
      readRow (digitOf out.mode.base) out.mode.base contextMark contextLabels text =
        some (contextValues processor, []) := by
  intro entry
  have hentry : entry = isrCtxtsw.entry returnAddress
      (processor.deliver (interruptStack processor) false errorCode) := by
    rw [← hcode]
    rfl
  obtain ⟨hrdi, hflags⟩ := registers_entry processor (interruptStack processor) errorCode returnAddress
  have hholds := holds_entry processor (interruptStack processor) errorCode returnAddress
  rw [← hentry] at hrdi hflags hholds
  obtain ⟨text, hwrite, hread⟩ := contextSwitchISR_writes hmode entry.memory (entry.registers .rdi)
  refine ⟨text, hwrite, hread.trans ?_⟩
  have hlength : contextNames.length = 14 := rfl
  have hword (index : ℕ) (register : Register) (offset : Word)
      (hname : contextNames[index]? = some (some (.interrupted register)))
      (hoffset : BitVec.ofNat 64 (8 * (14 - index)) = 48 + offset) :
      load64 entry.memory (interruptStack processor - 48 - offset) = processor.registers register := by
    have hload := hholds.word hname
    rw [hlength, hoffset] at hload
    rwa [show interruptStack processor - 48 - offset = interruptStack processor - (48 + offset) by ring]
  have hrsi := hword 2 .rsi 48 rfl (by decide)
  have hrbp := hword 3 .rbp 40 rfl (by decide)
  have hrbx := hword 4 .rbx 32 rfl (by decide)
  have hrdx := hword 5 .rdx 24 rfl (by decide)
  have hrcx := hword 6 .rcx 16 rfl (by decide)
  have hrax := hword 7 .rax 8 rfl (by decide)
  have hpushed : load64 entry.memory (interruptStack processor - 48 - 0) = processor.registers .rdi :=
    hword 8 .rdi 0 rfl (by decide)
  rw [show interruptStack processor - 48 - 0 = interruptStack processor - 48 by ring] at hpushed
  rw [hrdi, hrsi, hrbp, hrbx, hrdx, hrcx, hrax, hpushed, hflags, contextValues]

/-! ## Along a run -/

variable {territory : Territory} {lost : List Register} {processor' : Processor}

/-- The stub of the context switch loses none of the registers that are printed. -/
theorem contextValues_congr (halike : AlikeAt territory lost processor processor')
    (hlost : lost ⊆ unsaved 33) : contextValues processor = contextValues processor' := by
  have hregister (register : Register) (hsaved : register ∉ unsaved 33) :
      processor.registers register = processor'.registers register :=
    halike.registers register fun hmem ↦ hsaved (hlost hmem)
  rw [contextValues, contextValues, interruptStack, interruptStack, pushedFlags, pushedFlags, halike.rsp,
    halike.rflags, hregister .rax (by decide), hregister .rbx (by decide), hregister .rcx (by decide),
    hregister .rdx (by decide), hregister .rsi (by decide), hregister .rdi (by decide),
    hregister .rbp (by decide)]

/-- However often a thread is interrupted through stubs that save what is printed, what the next interrupt
prints are the registers that the thread has when it gets there without any. -/
theorem contextSwitchISR_of_run {thread : Thread territory lost} {start final : Processor}
    {moves : List (Processor × Turn)} (hlost : lost ⊆ unsaved 33)
    (run : Run (Moves thread) start moves final)
    {vector : Fin 34} (hvector : isr.get vector = isrCtxtsw) (errorCode returnAddress : Word)
    (hmode : out.mode ≠ .bin) :
    ∃ moves' final', Run (Moves thread) start moves' final' ∧
      moves'.map Prod.snd = (moves.map Prod.snd).filter Turn.isProgram ∧
      let entry := (isr.get vector).entry returnAddress (delivered final vector errorCode)
      ∃ text, contextSwitchISR entry.memory (entry.registers .rdi) out = .ok (text, out) ∧
        readRow (digitOf out.mode.base) out.mode.base contextMark contextLabels text =
          some (contextValues final', []) := by
  have hnone : pushesErrorCode vector = false := by
    revert vector
    decide
  obtain ⟨moves', final', hrun, hmoves, halike⟩ := (undisturbed thread).exists_run run
    ⟨.refl territory lost start.toCore, rfl, rfl, rfl⟩
  obtain ⟨text, hwrite, hread⟩ := contextSwitchISR_shows final errorCode returnAddress hnone hmode
  rw [contextValues_congr halike hlost] at hread
  rw [hvector]
  exact ⟨moves', final', hrun, hmoves, text, hwrite, hread⟩

/-- An interrupt after the first instruction. -/
theorem contextSwitchISR_of_run_idle :
    ∃ (moves' : List (Processor × Turn)) (final' : Processor),
      moves'.map Prod.snd = [.program] ∧
      let entry := isrCtxtsw.entry 0x2000 (delivered (idleProcessor.advance (.push .rax) 1) 5 0)
      ∃ text, contextSwitchISR entry.memory (entry.registers .rdi) ⟨.hex⟩ = .ok (text, ⟨.hex⟩) ∧
        readRow (digitOf 16) 16 contextMark contextLabels text = some (contextValues final', []) := by
  have hmode : (⟨.hex⟩ : Kostream).mode ≠ .bin := by
    decide
  obtain ⟨moves', final', -, hmoves, hshows⟩ := contextSwitchISR_of_run
    (List.Subset.refl _) (.snoc .nil moves_push) (show isr.get 5 = isrCtxtsw from rfl) 0 0x2000 hmode
  exact ⟨moves', final', hmoves, hshows⟩

end PenelopeOS.Cpu
