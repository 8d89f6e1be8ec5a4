import PenelopeOS.Machine.StackShape

/-!
# Interrupt stubs

A stub runs some code, calls a routine, runs some more code and leaves by `iretq`. The words on its
stack and in its registers are named after where they come from. Running the stub on those names tells
what it resumes and which registers it restores.
-/

namespace PenelopeOS.Machine

/-- Where a word in a handler comes from: a register at the interrupt, a register on the return of the
routine that the handler calls, or the rest of what the processor pushes. -/
inductive Origin where
  | interrupted (register : Register)
  | returned (register : Register)
  | rip
  | cs
  | rflags
  | ss
  | errorCode
  deriving DecidableEq, Repr

def Origin.value (processor : Processor) (errorCode : Word) (returned : Core) : Origin → Word
  | .interrupted register => processor.registers register
  | .returned register => returned.registers register
  | .rip => processor.rip
  | .cs => processor.cs.setWidth 64
  | .rflags => processor.rflags
  | .ss => processor.ss.setWidth 64
  | .errorCode => errorCode

/-- The interrupted context, as `iretq` takes it from the stack. -/
def contextStack : List (Option Origin) :=
  [some .rip, some .cs, some .rflags, some (.interrupted .rsp), some .ss]

def Shape.delivered (pushesCode : Bool) : Shape Origin where
  registers register := if register = .rsp then none else some (.interrupted register)
  stack := if pushesCode then some .errorCode :: contextStack else contextStack

/-- The same place of execution, with the same flags and stack. -/
structure SameContext (first second : Processor) : Prop where
  rip : first.rip = second.rip
  cs : first.cs = second.cs
  rflags : first.rflags = second.rflags
  rsp : first.rsp = second.rsp
  ss : first.ss = second.ss

variable {processor : Processor} {stack errorCode : Word} {returned : Core} {shape : Shape Origin}
  {core : Core}

/-- The pushes at the entry are described by the frame. -/
theorem describes_deliver (processor : Processor) (stack : Word) (pushesCode : Bool)
    (errorCode : Word) (returned : Core) :
    Describes (Origin.value processor errorCode returned) stack (Shape.delivered pushesCode)
      (processor.deliver stack pushesCode errorCode) := by
  have hnamed (origin : Origin) : Named (Origin.value processor errorCode returned) (some origin)
      (origin.value processor errorCode returned) :=
    fun known hknown ↦ congrArg _ (Option.mem_some_iff.mp hknown)
  have hentered : Describes (Origin.value processor errorCode returned) stack
      ⟨(Shape.delivered pushesCode).registers, []⟩
      { processor.toCore.set .rsp stack with rflags := processor.rflags &&& ~~~0x34300 } := by
    refine ⟨?_, rfl, fun register ↦ ?_, trivial⟩
    · change Function.update processor.registers .rsp stack .rsp = stack - BitVec.ofNat 64 0
      rw [Function.update_self]
      exact (BitVec.sub_zero stack).symm
    · by_cases hpointer : register = .rsp
      · rw [hpointer]
        exact named_none _ _
      · simp only [Shape.delivered, if_neg hpointer, Core.set, Function.update_of_ne hpointer]
        exact hnamed (.interrupted register)
  have hss := hentered.push (by simp) (hnamed .ss)
  have hrsp := hss.push (by simp) (hnamed (.interrupted .rsp))
  have hrflags := hrsp.push (by simp) (hnamed .rflags)
  have hcs := hrflags.push (by simp) (hnamed .cs)
  have hrip := hcs.push (by simp) (hnamed .rip)
  cases pushesCode with
  | false => exact hrip
  | true => exact hrip.push (by simp) (hnamed .errorCode)

/-- `iretq` resumes the interrupted context when its words are all that is left on the stack. -/
theorem Describes.iretq (h : Describes (Origin.value processor errorCode returned) stack shape core)
    (hstack : shape.stack = contextStack) : SameContext core.iretq processor := by
  obtain ⟨hrsp, _, _, hwords⟩ := h
  rw [hstack] at hrsp hwords
  obtain ⟨hrip, hcs, hrflags, hold, hss, _⟩ := hwords
  have hslot (above below : Word) (hsum : above + below = 40) :
      core.rsp + above = stack - below := by
    rw [hrsp]
    change stack - 40 + above = stack - below
    rw [← hsum]
    ring
  have hselector (selector : BitVec 16) : (selector.setWidth 64).setWidth 16 = selector :=
    (BitVec.setWidth_setWidth_of_le selector (by decide)).trans (BitVec.setWidth_eq selector)
  constructor
  · rw [Core.iretq, hrsp]
    exact hrip .rip rfl
  · rw [Core.iretq, hslot 8 32 rfl]
    exact (congrArg (BitVec.setWidth 16) (hcs .cs rfl)).trans (hselector processor.cs)
  · rw [Core.iretq, hslot 16 24 rfl]
    exact hrflags .rflags rfl
  · change Function.update core.registers .rsp (load64 core.memory (core.rsp + 24)) .rsp = _
    rw [Function.update_self, hslot 24 16 rfl]
    exact hold (.interrupted .rsp) rfl
  · rw [Core.iretq, hslot 32 8 rfl]
    exact (congrArg (BitVec.setWidth 16) (hss .ss rfl)).trans (hselector processor.ss)

/-! ## Stubs -/

/-- A stub that ends in `iretq`. -/
structure Stub (ρ : Type*) where
  prologue : List Instruction
  routine : ρ
  epilogue : List Instruction
  deriving DecidableEq, Repr

namespace Stub

variable {ρ : Type*}

/-- The core at the first instruction of the routine. -/
def entry (stub : Stub ρ) (returnAddress : Word) (core : Core) : Core :=
  (execute stub.prologue core).push returnAddress

/-- The core at `iretq`. -/
def run (stub : Stub ρ) (routine : Core → Core) (returnAddress : Word) (core : Core) : Core :=
  execute stub.epilogue ((execute stub.prologue core).call routine returnAddress)

/-- What is known at `iretq`, when the routine keeps the given registers. -/
def outline (stub : Stub ρ) (kept : List Register) (pushesCode : Bool) : Option (Shape Origin) :=
  ((Shape.delivered pushesCode).run stub.prologue).bind fun shape ↦
    (shape.call kept .returned).run stub.epilogue

/-- The outline describes the core at `iretq`. -/
theorem describes {stub : Stub ρ} {kept : List Register} {pushesCode : Bool}
    (houtline : stub.outline kept pushesCode = some shape)
    (hsize : stub.prologue.length + stub.epilogue.length < 0x1000)
    (routine : Core → Core) (returnAddress : Word) :
    let core := processor.deliver stack pushesCode errorCode
    let entry := stub.entry returnAddress core
    ReturnsClean stack entry (routine entry) →
    (∀ register ∈ kept, (routine entry).registers register = entry.registers register) →
    Describes (Origin.value processor errorCode (routine entry)) stack shape
      (stub.run routine returnAddress core) := by
  intro core entry hreturns hkept
  obtain ⟨before, hbefore, hafter⟩ := Option.bind_eq_some_iff.mp houtline
  have hdelivered : (Shape.delivered pushesCode).stack.length ≤ 6 := by
    cases pushesCode <;> decide
  have hlength := Shape.length_run hbefore
  have hdeliver := describes_deliver processor stack pushesCode errorCode (routine entry)
  have hprologue := hdeliver.execute (by omega) hbefore
  have hcalled : Describes _ stack (before.call kept .returned) _ :=
    hprologue.call (by omega) hreturns hkept fun _ ↦ rfl
  have hroom :
      8 * ((before.call kept Origin.returned).stack.length + stub.epilogue.length) < 2 ^ 64 := by
    change 8 * (before.stack.length + stub.epilogue.length) < 2 ^ 64
    omega
  exact hcalled.execute hroom hafter

end Stub

end PenelopeOS.Machine
