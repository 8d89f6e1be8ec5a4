import PenelopeOS.Machine.InterruptFrame
import Mathlib.Data.Set.Basic

/-!
# What a thread can tell

A thread works on its registers and on its stack. It does not count on what is below its stack pointer,
nor on memory that belongs to devices, nor on some of the registers. Cores that differ in these only are
alike for it. A thread is any step relation that keeps them alike, whatever its instructions are; code in a
straight line is the case for which this follows from the instructions one by one.
-/

namespace PenelopeOS.Machine

/-- The stack of a thread, and the memory that it has no part in. -/
structure Territory where
  limit : ℕ
  top : ℕ
  devices : Set Word
  wrap : top < 2 ^ 64
  apart : ∀ address ∈ devices, ¬ (limit ≤ address.toNat ∧ address.toNat < top)

/-- The memory that the thread does not count on, given its stack pointer. -/
def Territory.Hidden (territory : Territory) (rsp address : Word) : Prop :=
  address ∈ territory.devices ∨ (territory.limit ≤ address.toNat ∧ address.toNat < rsp.toNat)

/-- The thread cannot tell the cores apart. -/
structure Alike (territory : Territory) (lost : List Register) (first second : Core) : Prop where
  rflags : first.rflags = second.rflags
  rsp : first.rsp = second.rsp
  registers : ∀ register ∉ lost, first.registers register = second.registers register
  memory : ∀ address, ¬ territory.Hidden first.rsp address →
    first.memory address = second.memory address

/-- And it is at the same place in both. -/
structure AlikeAt (territory : Territory) (lost : List Register) (first second : Processor) : Prop
    extends Alike territory lost first.toCore second.toCore where
  rip : first.rip = second.rip
  cs : first.cs = second.cs
  ss : first.ss = second.ss

/-- A step depends on what the thread can tell only, and does the same to processors that it cannot tell
apart. -/
structure Thread (territory : Territory) (lost : List Register) where
  Step : Processor → Processor → Prop
  exists_step : ∀ {first second next : Processor}, AlikeAt territory lost first second →
    Step first next → ∃ next', Step second next' ∧ AlikeAt territory lost next next'

/-- The instruction reads none of the lost registers, and moves the stack pointer by pushes and pops
only. -/
def Instruction.avoids (lost : List Register) : Instruction → Bool
  | .cli | .cld | .pushfq | .popfq => true
  | .movImmediate _ target => target ≠ .rsp
  | .mov source target => source ∉ lost ∧ target ≠ .rsp
  | .push source => source ∉ lost
  | .pop target => target ≠ .rsp
  | .addImmediate _ target => target ∉ lost ∧ target ≠ .rsp

/-- The instruction at the instruction pointer is executed. -/
def Processor.advance (processor : Processor) (instruction : Instruction) (length : Word) :
    Processor where
  toCore := instruction.exec processor.toCore
  rip := processor.rip + length
  cs := processor.cs
  ss := processor.ss

variable {territory : Territory} {lost : List Register} {core core' core'' : Core}
  {first second third : Processor} {instruction : Instruction} {value value' : Word}

theorem Alike.refl (territory : Territory) (lost : List Register) (core : Core) :
    Alike territory lost core core :=
  ⟨rfl, rfl, fun _ _ ↦ rfl, fun _ _ ↦ rfl⟩

theorem Alike.trans (h : Alike territory lost core core') (h' : Alike territory lost core' core'') :
    Alike territory lost core core'' where
  rflags := h.rflags.trans h'.rflags
  rsp := h.rsp.trans h'.rsp
  registers register hregister := (h.registers register hregister).trans (h'.registers register hregister)
  memory address haddress := (h.memory address haddress).trans (h'.memory address (h.rsp ▸ haddress))

theorem AlikeAt.trans (h : AlikeAt territory lost first second)
    (h' : AlikeAt territory lost second third) : AlikeAt territory lost first third :=
  ⟨h.toAlike.trans h'.toAlike, h.rip.trans h'.rip, h.cs.trans h'.cs, h.ss.trans h'.ss⟩

/-! ## Instructions -/

namespace Alike

theorem set (h : Alike territory lost core core') {target : Register} (htarget : target ≠ .rsp)
    (hvalue : value = value') :
    Alike territory lost (core.set target value) (core'.set target value') := by
  have hrsp (core : Core) (value : Word) : (core.set target value).rsp = core.rsp :=
    core.registers_set_of_ne htarget.symm value
  refine ⟨h.rflags, by rw [hrsp, hrsp, h.rsp], fun register hregister ↦ ?_, fun address haddress ↦ ?_⟩
  · by_cases hsame : register = target
    · rw [hsame, Core.registers_set_self, Core.registers_set_self, hvalue]
    · rw [Core.registers_set_of_ne _ hsame, Core.registers_set_of_ne _ hsame,
        h.registers register hregister]
  · rw [hrsp] at haddress
    exact h.memory address haddress

theorem flags (h : Alike territory lost core core') {rflags rflags' : Word} (hflags : rflags = rflags') :
    Alike territory lost { core with rflags := rflags } { core' with rflags := rflags' } :=
  ⟨hflags, h.rsp, h.registers, h.memory⟩

/-- The stack pointer is moved, and what is then above it is in both memories. -/
theorem pointer (h : Alike territory lost core core') {rsp : Word} {memory memory' : Memory}
    (hmemory : ∀ address, ¬ territory.Hidden rsp address → memory address = memory' address) :
    Alike territory lost ⟨Function.update core.registers .rsp rsp, core.rflags, memory⟩
      ⟨Function.update core'.registers .rsp rsp, core'.rflags, memory'⟩ := by
  refine ⟨h.rflags, rfl, fun register hregister ↦ ?_, fun address haddress ↦ hmemory address ?_⟩
  · by_cases hpointer : register = .rsp
    · rw [hpointer]
      change Function.update core.registers .rsp rsp .rsp = Function.update core'.registers .rsp rsp .rsp
      rw [Function.update_self, Function.update_self]
    · change Function.update core.registers .rsp rsp register =
        Function.update core'.registers .rsp rsp register
      rw [Function.update_of_ne hpointer, Function.update_of_ne hpointer, h.registers register hregister]
  · change ¬ territory.Hidden (Function.update core.registers .rsp rsp .rsp) address at haddress
    rwa [Function.update_self] at haddress

/-- A push makes the next word down a part of the stack. -/
theorem push (h : Alike territory lost core core') (hvalue : value = value') :
    Alike territory lost (core.push value) (core'.push value') := by
  rw [Core.push, Core.push, ← h.rsp, ← hvalue]
  refine h.pointer fun address haddress ↦ ?_
  rw [store64, store64]
  split
  · rfl
  · next houtside =>
    apply h.memory
    rintro (hdevice | ⟨hlimit, hbelow⟩)
    · exact haddress (.inl hdevice)
    · refine haddress (.inr ⟨hlimit, ?_⟩)
      have hlt := core.rsp.isLt
      bv_omega

/-- The thread reads its own stack. -/
theorem top (h : Alike territory lost core core') (hlimit : territory.limit ≤ core.rsp.toNat)
    (htop : core.rsp.toNat + 8 ≤ territory.top) : core.top = core'.top := by
  have hwrap := territory.wrap
  rw [Core.top, Core.top, ← h.rsp]
  apply load64_congr
  intro offset hoffset
  apply h.memory
  have haddress : (core.rsp + offset).toNat = core.rsp.toNat + offset.toNat := by
    rw [BitVec.toNat_add]
    omega
  rintro (hdevice | ⟨-, hbelow⟩)
  · exact territory.apart _ hdevice (by omega)
  · omega

/-- A pop leaves more of the stack out of account. -/
theorem drop (h : Alike territory lost core core') (htop : core.rsp.toNat + 8 ≤ territory.top) :
    Alike territory lost (core.drop 8) (core'.drop 8) := by
  have hwrap := territory.wrap
  rw [Core.drop, Core.drop, Core.set, Core.set, ← h.rsp]
  refine h.pointer fun address haddress ↦ h.memory address ?_
  rintro (hdevice | ⟨hlow, hbelow⟩)
  · exact haddress (.inl hdevice)
  · have hup : (core.rsp + 8).toNat = core.rsp.toNat + 8 := by
      rw [BitVec.toNat_add]
      exact Nat.mod_eq_of_lt (htop.trans_lt hwrap)
    exact haddress (.inr ⟨hlow, by omega⟩)

/-- An instruction within the stack keeps what the thread can tell the same. -/
theorem exec (h : Alike territory lost core core') (hlimit : territory.limit ≤ core.rsp.toNat)
    (htop : core.rsp.toNat + 8 ≤ territory.top) (havoids : instruction.avoids lost = true) :
    Alike territory lost (instruction.exec core) (instruction.exec core') := by
  have hword := h.top hlimit htop
  have hdrop := h.drop htop
  cases instruction with
  | cli => exact h.flags (by rw [h.rflags])
  | cld => exact h.flags (by rw [h.rflags])
  | movImmediate value target => exact h.set (of_decide_eq_true havoids) rfl
  | mov source target =>
    obtain ⟨hsource, htarget⟩ := of_decide_eq_true havoids
    exact h.set htarget (h.registers source hsource)
  | push source => exact h.push (h.registers source (of_decide_eq_true havoids))
  | pop target => exact hdrop.set (of_decide_eq_true havoids) hword
  | pushfq => exact h.push (by rw [h.rflags])
  | popfq => exact hdrop.flags (by rw [hword, h.rflags])
  | addImmediate value target =>
    obtain ⟨hsource, htarget⟩ := of_decide_eq_true havoids
    have hvalue := h.registers target hsource
    exact (h.set htarget (by rw [hvalue])).flags (by rw [hvalue, h.rflags])

end Alike

theorem AlikeAt.advance (h : AlikeAt territory lost first second)
    (hlimit : territory.limit ≤ first.rsp.toNat) (htop : first.rsp.toNat + 8 ≤ territory.top)
    (havoids : instruction.avoids lost = true) (length : Word) :
    AlikeAt territory lost (first.advance instruction length) (second.advance instruction length) :=
  ⟨h.toAlike.exec hlimit htop havoids, by rw [Processor.advance, Processor.advance, h.rip], h.cs, h.ss⟩

/-- Code without jumps, each instruction of which is executed within the stack. -/
def Thread.straightLine (territory : Territory) {lost : List Register}
    (fetch : Word → Option (Instruction × Word))
    (havoids : ∀ rip instruction length, fetch rip = some (instruction, length) →
      instruction.avoids lost = true) : Thread territory lost where
  Step first next := ∃ instruction length, fetch first.rip = some (instruction, length) ∧
    territory.limit ≤ first.rsp.toNat ∧ first.rsp.toNat + 8 ≤ territory.top ∧
    next = first.advance instruction length
  exists_step := by
    rintro first second _ halike ⟨instruction, length, hfetch, hlimit, htop, rfl⟩
    have hnext := halike.advance hlimit htop (havoids _ _ _ hfetch) length
    rw [halike.rip] at hfetch
    rw [halike.rsp] at hlimit htop
    exact ⟨second.advance instruction length, ⟨instruction, length, hfetch, hlimit, htop, rfl⟩, hnext⟩

end PenelopeOS.Machine
