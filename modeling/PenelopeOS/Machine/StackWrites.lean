import PenelopeOS.Machine.InterruptFrame

/-!
# Where a handler writes

The pushes of a handler stay below the place where the processor starts to push, as far down as there
are words. Above that place, and below the stack, memory changes only where the routine changes it.
-/

namespace PenelopeOS.Machine

/-- The memories agree outside of a range of addresses. -/
def SameBut (low high : ℕ) (memory memory' : Memory) : Prop :=
  ∀ address : Word, ¬ (low ≤ address.toNat ∧ address.toNat < high) → memory' address = memory address

variable {α : Type*} {values : α → Word} {base stack : Word} {shape shape' : Shape α} {core : Core}
  {low high : ℕ} {memory memory' memory'' : Memory}

theorem SameBut.refl (low high : ℕ) (memory : Memory) : SameBut low high memory memory :=
  fun _ _ ↦ rfl

theorem SameBut.trans (h : SameBut low high memory memory') (h' : SameBut low high memory' memory'') :
    SameBut low high memory memory'' :=
  fun address haddress ↦ (h' address haddress).trans (h address haddress)

theorem store64_sameBut {address : Word} (hlow : low ≤ address.toNat) (hhigh : address.toNat + 8 ≤ high)
    (hwrap : high ≤ 2 ^ 64) (memory : Memory) (value : Word) :
    SameBut low high memory (store64 memory address value) := by
  intro location hlocation
  apply store64_of_outside
  have hlt := location.isLt
  rw [BitVec.toNat_sub]
  omega

/-- A push writes the next word down. -/
theorem push_sameBut {length : ℕ} (hrsp : core.rsp = base - BitVec.ofNat 64 (8 * length))
    (hroom : low + 8 * (length + 1) ≤ base.toNat) (value : Word) :
    SameBut low base.toNat core.memory (core.push value).memory ∧
      (core.push value).rsp = base - BitVec.ofNat 64 (8 * (length + 1)) := by
  have hlt := base.isLt
  have hnext : core.rsp - 8 = base - BitVec.ofNat 64 (8 * (length + 1)) := by
    rw [hrsp, ofNat_mul_succ]
    ring
  have hvalue : (core.rsp - 8).toNat = base.toNat - 8 * (length + 1) := by
    rw [hnext, BitVec.toNat_sub, BitVec.toNat_ofNat]
    omega
  exact ⟨store64_sameBut (by omega) (by omega) (by omega) core.memory value, hnext⟩

theorem deliver_sameBut (processor : Processor) (pushesCode : Bool) (errorCode : Word)
    (hroom : low + 48 ≤ stack.toNat) :
    SameBut low stack.toNat processor.memory (processor.deliver stack pushesCode errorCode).memory := by
  have hentered : (processor.toCore.set .rsp stack).rsp = stack - BitVec.ofNat 64 (8 * 0) := by
    rw [Core.rsp, Core.registers_set_self]
    exact (BitVec.sub_zero stack).symm
  let entered : Core :=
    { processor.toCore.set .rsp stack with rflags := processor.rflags &&& ~~~0x34300 }
  have hword (count : ℕ) (hcount : count ≤ 6) : low + 8 * count ≤ stack.toNat := by omega
  obtain ⟨hss, hrsp⟩ := push_sameBut (show entered.rsp = _ from hentered) (hword _ (by decide))
    (processor.ss.setWidth 64)
  obtain ⟨hpointer, hrsp⟩ := push_sameBut hrsp (hword _ (by decide)) processor.rsp
  obtain ⟨hrflags, hrsp⟩ := push_sameBut hrsp (hword _ (by decide)) processor.rflags
  obtain ⟨hcs, hrsp⟩ := push_sameBut hrsp (hword _ (by decide)) (processor.cs.setWidth 64)
  obtain ⟨hrip, hrsp⟩ := push_sameBut hrsp (hword _ (by decide)) processor.rip
  have hframed := (((hss.trans hpointer).trans hrflags).trans hcs).trans hrip
  cases pushesCode with
  | false => exact hframed
  | true => exact hframed.trans (push_sameBut hrsp (hword _ (by decide)) errorCode).1

namespace Describes

theorem step_sameBut (h : Describes values base shape core)
    (hroom : low + 8 * (shape.stack.length + 1) ≤ base.toNat) (instruction : Instruction) :
    SameBut low base.toNat core.memory (instruction.exec core).memory := by
  cases instruction with
  | push source => exact (push_sameBut h.rsp hroom _).1
  | pushfq => exact (push_sameBut h.rsp hroom _).1
  | _ => exact .refl low base.toNat core.memory

theorem execute_sameBut {code : List Instruction} (h : Describes values base shape core)
    (hroom : low + 8 * (shape.stack.length + code.length) ≤ base.toNat)
    (hrun : shape.run code = some shape') :
    SameBut low base.toNat core.memory (Machine.execute code core).memory := by
  induction code generalizing shape core with
  | nil => exact .refl low base.toNat core.memory
  | cons instruction code ih =>
    obtain ⟨next, hstep, hrun⟩ := Option.bind_eq_some_iff.mp hrun
    rw [List.length_cons] at hroom
    have hlength := Shape.length_step hstep
    have hbase := base.isLt
    have hfirst := h.step_sameBut (show low + 8 * (shape.stack.length + 1) ≤ base.toNat by omega)
      instruction
    exact hfirst.trans (ih (h.step (by omega) hstep) (by omega) hrun)

end Describes

/-- A named word is found at its place. -/
theorem Holds.word {names : List (Option α)} {index : ℕ} {known : α} (h : Holds values memory base names)
    (hknown : names[index]? = some (some known)) :
    load64 memory (base - BitVec.ofNat 64 (8 * (names.length - index))) = values known := by
  induction names generalizing index with
  | nil => cases hknown
  | cons name names ih =>
    obtain ⟨hword, hrest⟩ := h
    cases index with
    | zero => exact hword known (Option.some.inj hknown)
    | succ index =>
      rw [List.length_cons, Nat.add_sub_add_right]
      exact ih hrest hknown

/-- A word is still there after the next push. -/
theorem load64_push_push (core : Core) (first second : Word) :
    load64 ((core.push first).push second).memory (core.rsp - 8) = first := by
  have hrsp : (core.push first).rsp = core.rsp - 8 := by
    change Function.update core.registers .rsp (core.rsp - 8) .rsp = core.rsp - 8
    rw [Function.update_self]
  change load64 (store64 (store64 core.memory (core.rsp - 8) first) ((core.push first).rsp - 8) second)
    (core.rsp - 8) = first
  rw [hrsp, load64_store64_apart, load64_store64_same]
  constructor <;> bv_omega

/-- Code that only takes words off the stack writes nothing. -/
def Instruction.Writes : Instruction → Bool
  | .push _ | .pushfq => true
  | _ => false

theorem execute_memory {code : List Instruction} (hcode : code.all fun i ↦ !i.Writes) (core : Core) :
    (execute code core).memory = core.memory := by
  induction code generalizing core with
  | nil => rfl
  | cons instruction code ih =>
    rw [List.all_cons, Bool.and_eq_true] at hcode
    rw [execute, List.foldl_cons, ← execute, ih hcode.2]
    cases instruction with
    | push source => cases hcode.1
    | pushfq => cases hcode.1
    | _ => rfl

/-- A byte that is not on the stack of the handler, and that the routine leaves alone. -/
theorem Stub.run_memory {ρ : Type*} {stub : Stub ρ} {kept : List Register} {pushesCode : Bool}
    {processor : Processor} {errorCode returnAddress : Word} {final : Shape Origin}
    (houtline : stub.outline kept pushesCode = some final)
    (hepilogue : stub.epilogue.all fun i ↦ !i.Writes)
    (hroom : low + 8 * ((Shape.delivered pushesCode).stack.length + stub.prologue.length + 1) ≤
      stack.toNat) {routine : Core → Core} {address : Word}
    (haddress : ¬ (low ≤ address.toNat ∧ address.toNat < stack.toNat)) :
    let core := processor.deliver stack pushesCode errorCode
    let entry := stub.entry returnAddress core
    (routine entry).memory address = entry.memory address →
      (stub.run routine returnAddress core).memory address = processor.memory address := by
  intro core entry hroutine
  obtain ⟨before, hbefore, hafter⟩ := Option.bind_eq_some_iff.mp houtline
  have hlength := Shape.length_run hbefore
  have hstack := stack.isLt
  have hframe : 5 ≤ (Shape.delivered pushesCode).stack.length := by
    cases pushesCode <;> decide
  have hdelivered := describes_deliver processor stack pushesCode errorCode core
  have hcalled := hdelivered.execute (by omega) hbefore
  have hdeliver := deliver_sameBut processor pushesCode errorCode
    (show low + 48 ≤ stack.toNat by omega) address haddress
  have hprologue := hdelivered.execute_sameBut
    (show low + 8 * ((Shape.delivered pushesCode).stack.length + stub.prologue.length) ≤ stack.toNat
      by omega) hbefore address haddress
  have hentry := (push_sameBut hcalled.rsp (show low + 8 * (before.stack.length + 1) ≤ stack.toNat
    by omega) returnAddress).1 address haddress
  calc
    (stub.run routine returnAddress core).memory address = (routine entry).memory address :=
      congrFun (execute_memory hepilogue _) address
    _ = entry.memory address := hroutine
    _ = (execute stub.prologue core).memory address := hentry
    _ = core.memory address := hprologue
    _ = processor.memory address := hdeliver

end PenelopeOS.Machine
