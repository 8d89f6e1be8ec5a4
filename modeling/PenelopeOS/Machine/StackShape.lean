import PenelopeOS.Machine.Processor

/-!
# The shape of the stack under straight-line code

A shape records, for each register and each word pushed below a fixed address, the name of the word
that it holds, as far as that is known. Code is run on shapes without knowing the words, and what
comes out describes what the code does on every core that the first shape describes.
-/

namespace PenelopeOS.Machine

variable {α : Type*}

/-- What is known of the registers and of the stack, whose last pushed word comes first. -/
structure Shape (α : Type*) where
  registers : Register → Option α
  stack : List (Option α)

namespace Shape

/-- The code fails on a shape where it would pop from an empty stack or lose the stack pointer. -/
def step (shape : Shape α) : Instruction → Option (Shape α)
  | .cli | .cld => some shape
  | .movImmediate _ target =>
    if target = .rsp then none
    else some { shape with registers := Function.update shape.registers target none }
  | .mov source target =>
    if target = .rsp then none
    else some
      { shape with registers := Function.update shape.registers target (shape.registers source) }
  | .push source => some { shape with stack := shape.registers source :: shape.stack }
  | .pop target =>
    match shape.stack with
    | known :: stack =>
      if target = .rsp then none
      else some ⟨Function.update shape.registers target known, stack⟩
    | [] => none
  | .pushfq => some { shape with stack := none :: shape.stack }
  | .popfq =>
    match shape.stack with
    | _ :: stack => some { shape with stack := stack }
    | [] => none
  | .addImmediate value target =>
    if target = .rsp then
      if 8 ∣ value.toNat ∧ value.toNat / 8 ≤ shape.stack.length then
        some { shape with stack := shape.stack.drop (value.toNat / 8) }
      else none
    else some { shape with registers := Function.update shape.registers target none }

def run (shape : Shape α) : List Instruction → Option (Shape α)
  | [] => some shape
  | instruction :: code => (shape.step instruction).bind fun next ↦ next.run code

/-- After a call that keeps the stack and some of the registers, and gives each other register the
word that is named for it. -/
def call (kept : List Register) (returned : Register → α) (shape : Shape α) : Shape α where
  registers register :=
    if register = .rsp then none
    else if register ∈ kept then shape.registers register
    else some (returned register)
  stack := shape.stack

theorem length_step {shape shape' : Shape α} {instruction : Instruction}
    (hstep : shape.step instruction = some shape') :
    shape'.stack.length ≤ shape.stack.length + 1 := by
  cases instruction <;> grind [Shape.step]

theorem length_run {shape shape' : Shape α} {code : List Instruction}
    (hrun : shape.run code = some shape') :
    shape'.stack.length ≤ shape.stack.length + code.length := by
  induction code generalizing shape with
  | nil =>
    obtain rfl := Option.some.inj hrun
    exact le_rfl
  | cons instruction code ih =>
    obtain ⟨next, hstep, hrun⟩ := Option.bind_eq_some_iff.mp hrun
    calc
      shape'.stack.length ≤ next.stack.length + code.length := ih hrun
      _ ≤ shape.stack.length + 1 + code.length := Nat.add_le_add_right (length_step hstep) _
      _ = shape.stack.length + (instruction :: code).length := by
        rw [List.length_cons, Nat.add_assoc, Nat.add_comm 1]

end Shape

/-! ## Descriptions -/

/-- A word is the one that is named, if one is. -/
def Named (values : α → Word) (name : Option α) (word : Word) : Prop :=
  ∀ known ∈ name, word = values known

/-- The words below an address are the named ones. -/
def Holds (values : α → Word) (memory : Memory) (base : Word) : List (Option α) → Prop
  | [] => True
  | name :: stack =>
    Named values name (load64 memory (base - BitVec.ofNat 64 (8 * (stack.length + 1)))) ∧
      Holds values memory base stack

structure Describes (values : α → Word) (base : Word) (shape : Shape α) (core : Core) : Prop where
  rsp : core.rsp = base - BitVec.ofNat 64 (8 * shape.stack.length)
  pointer : shape.registers .rsp = none
  registers : ∀ register, Named values (shape.registers register) (core.registers register)
  stack : Holds values core.memory base shape.stack

/-- A routine returns with the stack pointer that it found, and did not write to what was pushed from
`stack` down. -/
structure ReturnsClean (stack : Word) (entry exit : Core) : Prop where
  rsp : exit.rsp = entry.rsp
  frame : ∀ address, (address - entry.rsp).toNat < (stack - entry.rsp).toNat →
    exit.memory address = entry.memory address

variable {values : α → Word} {base : Word} {shape shape' : Shape α} {core : Core}
  {memory memory' : Memory} {stack : List (Option α)} {name : Option α}

theorem named_none (values : α → Word) (word : Word) : Named values none word :=
  fun _ hknown ↦ nomatch hknown

theorem ofNat_mul_succ (length : ℕ) :
    BitVec.ofNat 64 (8 * (length + 1)) = BitVec.ofNat 64 (8 * length) + 8 :=
  BitVec.ofNat_add (8 * length) 8

/-- The top of the stack is a word lower after a push. -/
theorem toNat_sub_push (address base : Word) (length : ℕ) :
    (address - (base - BitVec.ofNat 64 (8 * (length + 1)))).toNat =
      ((address - (base - BitVec.ofNat 64 (8 * length))).toNat + 8) % 2 ^ 64 := by
  have hshift : address - (base - (BitVec.ofNat 64 (8 * length) + 8)) =
      address - (base - BitVec.ofNat 64 (8 * length)) + 8 := by ring
  rw [ofNat_mul_succ, hshift, BitVec.toNat_add]
  rfl

theorem Named.update {names : Register → Option α} {words : Register → Word}
    (hregisters : ∀ register, Named values (names register) (words register)) {word : Word}
    (hword : Named values name word) (target register : Register) :
    Named values (Function.update names target name register)
      (Function.update words target word register) := by
  by_cases htarget : register = target
  · subst htarget
    rwa [Function.update_self, Function.update_self]
  · rw [Function.update_of_ne htarget, Function.update_of_ne htarget]
    exact hregisters register

/-- Only the bytes of the words count. -/
theorem Holds.frame (h : Holds values memory base stack) (hsize : 8 * stack.length < 2 ^ 64)
    (hbytes : ∀ address, (address - (base - BitVec.ofNat 64 (8 * stack.length))).toNat <
      8 * stack.length → memory' address = memory address) : Holds values memory' base stack := by
  induction stack with
  | nil => trivial
  | cons name stack ih =>
    obtain ⟨hword, hrest⟩ := h
    rw [List.length_cons] at hsize hbytes
    constructor
    · rwa [load64_congr]
      intro offset hoffset
      apply hbytes
      rw [BitVec.add_comm, BitVec.add_sub_cancel]
      omega
    · apply ih hrest (by omega)
      intro address haddress
      apply hbytes
      rw [toNat_sub_push]
      omega

/-- A push adds its word. -/
theorem Holds.push (h : Holds values memory base stack) (hsize : 8 * (stack.length + 1) < 2 ^ 64)
    {word : Word} (hword : Named values name word) :
    Holds values (store64 memory (base - BitVec.ofNat 64 (8 * (stack.length + 1))) word) base
      (name :: stack) := by
  constructor
  · rwa [load64_store64_same]
  · apply h.frame (by omega)
    intro address haddress
    apply store64_of_outside
    rw [toNat_sub_push]
    omega

theorem Holds.drop (h : Holds values memory base stack) (count : ℕ) :
    Holds values memory base (stack.drop count) := by
  induction count generalizing stack with
  | zero => exact h
  | succ count ih =>
    cases stack with
    | nil => trivial
    | cons name stack => exact ih h.2

namespace Describes

/-- The stack pointer is never named, so moving it keeps what is known of the registers. -/
theorem named_update_rsp (h : Describes values base shape core) (word : Word) (register : Register) :
    Named values (shape.registers register)
      (Function.update core.registers .rsp word register) := by
  by_cases hpointer : register = .rsp
  · rw [hpointer, h.pointer]
    exact named_none values _
  · rw [Function.update_of_ne hpointer]
    exact h.registers register

theorem push (h : Describes values base shape core) (hsize : 8 * (shape.stack.length + 1) < 2 ^ 64)
    {word : Word} (hword : Named values name word) :
    Describes values base { shape with stack := name :: shape.stack } (core.push word) := by
  have hrsp : core.rsp - 8 = base - BitVec.ofNat 64 (8 * (shape.stack.length + 1)) := by
    rw [h.rsp, ofNat_mul_succ]
    ring
  refine ⟨hrsp, h.pointer, h.named_update_rsp _, ?_⟩
  change Holds values (store64 core.memory (core.rsp - 8) word) base (name :: shape.stack)
  rw [hrsp]
  exact h.stack.push hsize hword

/-- Moving the stack pointer up forgets the words that it passes. -/
theorem drop (h : Describes values base shape core) {count : ℕ}
    (hcount : count ≤ shape.stack.length) :
    Describes values base { shape with stack := shape.stack.drop count }
      (core.drop (BitVec.ofNat 64 (8 * count))) := by
  refine ⟨?_, h.pointer, h.named_update_rsp _, h.stack.drop count⟩
  have hlength : 8 * shape.stack.length = 8 * (shape.stack.length - count) + 8 * count := by omega
  rw [List.length_drop]
  change Function.update core.registers .rsp (core.rsp + BitVec.ofNat 64 (8 * count)) .rsp = _
  rw [Function.update_self, h.rsp, hlength, BitVec.ofNat_add]
  ring

theorem set (h : Describes values base shape core) {target : Register} (htarget : target ≠ .rsp)
    {word : Word} (hword : Named values name word) :
    Describes values base
      { shape with registers := Function.update shape.registers target name }
      (core.set target word) := by
  refine ⟨?_, ?_, Named.update h.registers hword target, h.stack⟩
  · exact (Function.update_of_ne htarget.symm word core.registers).trans h.rsp
  · exact (Function.update_of_ne htarget.symm name shape.registers).trans h.pointer

/-- The flags are not recorded. -/
theorem flags (h : Describes values base shape core) (rflags : Word) :
    Describes values base shape { core with rflags := rflags } :=
  ⟨h.rsp, h.pointer, h.registers, h.stack⟩

theorem top {registers : Register → Option α}
    (h : Describes values base ⟨registers, name :: stack⟩ core) :
    Named values name core.top := by
  rw [Core.top, h.rsp]
  exact h.stack.1

/-- An instruction does on the core what it does on the shape. -/
theorem step (h : Describes values base shape core) (hsize : 8 * (shape.stack.length + 1) < 2 ^ 64)
    {instruction : Instruction} (hstep : shape.step instruction = some shape') :
    Describes values base shape' (instruction.exec core) := by
  obtain ⟨registers, stack⟩ := shape
  cases instruction with
  | cli =>
    obtain rfl := Option.some.inj hstep
    exact h.flags _
  | cld =>
    obtain rfl := Option.some.inj hstep
    exact h.flags _
  | movImmediate value target =>
    simp only [Shape.step, Option.ite_none_left_eq_some, Option.some.injEq] at hstep
    obtain ⟨htarget, rfl⟩ := hstep
    exact h.set htarget (named_none values value)
  | mov source target =>
    simp only [Shape.step, Option.ite_none_left_eq_some, Option.some.injEq] at hstep
    obtain ⟨htarget, rfl⟩ := hstep
    exact h.set htarget (h.registers source)
  | push source =>
    obtain rfl := Option.some.inj hstep
    exact h.push hsize (h.registers source)
  | pop target =>
    cases stack with
    | nil => contradiction
    | cons name stack =>
      simp only [Shape.step, Option.ite_none_left_eq_some, Option.some.injEq] at hstep
      obtain ⟨htarget, rfl⟩ := hstep
      have hdrop := h.drop (Nat.succ_le_succ (Nat.zero_le stack.length))
      exact hdrop.set htarget h.top
  | pushfq =>
    obtain rfl := Option.some.inj hstep
    exact h.push hsize (named_none values _)
  | popfq =>
    cases stack with
    | nil => contradiction
    | cons name stack =>
      obtain rfl := Option.some.inj hstep
      have hdrop := h.drop (Nat.succ_le_succ (Nat.zero_le stack.length))
      exact hdrop.flags _
  | addImmediate value target =>
    by_cases htarget : target = .rsp
    · subst htarget
      simp only [Shape.step, if_true, Option.ite_none_right_eq_some, Option.some.injEq] at hstep
      obtain ⟨⟨hdvd, hcount⟩, rfl⟩ := hstep
      have hvalue : BitVec.ofNat 64 (8 * (value.toNat / 8)) = value := by
        rw [Nat.mul_div_cancel' hdvd, BitVec.ofNat_toNat, BitVec.setWidth_eq]
      have hdrop := h.drop hcount
      rw [hvalue] at hdrop
      exact hdrop.flags _
    · rw [Shape.step, if_neg htarget] at hstep
      obtain rfl := Option.some.inj hstep
      exact (h.set htarget (named_none values _)).flags _

/-- Code does on the core what it does on the shape. -/
theorem execute {code : List Instruction} (h : Describes values base shape core)
    (hsize : 8 * (shape.stack.length + code.length) < 2 ^ 64)
    (hrun : shape.run code = some shape') :
    Describes values base shape' (execute code core) := by
  induction code generalizing shape core with
  | nil =>
    obtain rfl := Option.some.inj hrun
    exact h
  | cons instruction code ih =>
    obtain ⟨next, hstep, hrun⟩ := Option.bind_eq_some_iff.mp hrun
    rw [List.length_cons] at hsize
    have hlength := Shape.length_step hstep
    exact ih (h.step (by omega) hstep) (by omega) hrun

/-- A routine that returns clean keeps what is known of the stack, and of the registers it keeps. -/
theorem call (h : Describes values base shape core)
    (hsize : 8 * (shape.stack.length + 1) < 2 ^ 64) {routine : Core → Core} {returnAddress : Word}
    {kept : List Register} {returned : Register → α}
    (hreturns : ReturnsClean base (core.push returnAddress) (routine (core.push returnAddress)))
    (hkept : ∀ register ∈ kept, (routine (core.push returnAddress)).registers register =
      (core.push returnAddress).registers register)
    (hreturned : ∀ register,
      (routine (core.push returnAddress)).registers register = values (returned register)) :
    Describes values base (shape.call kept returned) (core.call routine returnAddress) := by
  have hentry := h.push hsize (named_none values returnAddress)
  rw [Core.call]
  generalize core.push returnAddress = entry at *
  generalize routine entry = exit at *
  have hdepth : (base - entry.rsp).toNat = 8 * (shape.stack.length + 1) := by
    have hvalue : base - entry.rsp = BitVec.ofNat 64 (8 * (shape.stack.length + 1)) := by
      rw [hentry.rsp, List.length_cons]
      ring
    rw [hvalue, BitVec.toNat_ofNat, Nat.mod_eq_of_lt hsize]
  have hstack : Holds values exit.memory base (none :: shape.stack) := by
    apply hentry.stack.frame hsize
    intro address haddress
    rw [← hentry.rsp] at haddress
    exact hreturns.frame address (hdepth ▸ haddress)
  have hexit : Describes values base
      ⟨(shape.call kept returned).registers, none :: shape.stack⟩ exit := by
    refine ⟨hreturns.rsp.trans hentry.rsp, rfl, fun register ↦ ?_, hstack⟩
    rw [Shape.call]
    dsimp only
    split
    · exact named_none values _
    · split
      case isTrue hkeeps =>
        rw [hkept register hkeeps]
        exact hentry.registers register
      case isFalse =>
        intro known hknown
        rw [hreturned register, Option.mem_some_iff.mp hknown]
  exact hexit.drop (Nat.succ_le_succ (Nat.zero_le shape.stack.length))

end Describes

end PenelopeOS.Machine
