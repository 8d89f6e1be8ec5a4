import PenelopeOS.Machine.Segmentation
import PenelopeOS.Machine.StackWrites

/-!
# Returns that the processor refuses

Before `iretq` takes anything off the stack, the processor looks at the nested task flag and at the code
segment that it finds there. What it finds is told by the outline of the stack. Two bits of the flags are
reserved and stay clear whatever a stub does.
-/

namespace PenelopeOS.Machine

/-- The exception that `iretq` raises for the flags or for the code segment, which are checked first. -/
def returnException (gdtr : TableRegister) (core : Core) : Option Exception :=
  if core.rflags.getLsbD 14 then some .generalProtection
  else
    match checkReturn core.memory gdtr ((load64 core.memory (core.rsp + 8)).setWidth 16) with
    | .ok () => none
    | .error exception => some exception

/-- The reserved flags between the carry, the parity, the adjust and the zero flag. -/
structure ReservedClear (rflags : Word) : Prop where
  third : rflags.getLsbD 3 = false
  fifth : rflags.getLsbD 5 = false

variable {gdtr : TableRegister} {core : Core} {rflags : Word}

theorem returnException_of_check
    (h : checkReturn core.memory gdtr ((load64 core.memory (core.rsp + 8)).setWidth 16) =
      .error .generalProtection) : returnException gdtr core = some .generalProtection := by
  rw [returnException, h]
  split <;> rfl

/-! ## The words at the return -/

/-- The words of the outline are found from the stack pointer up. -/
theorem Describes.slot {α : Type*} {values : α → Word} {base : Word} {shape : Shape α} {index : ℕ}
    {known : α} (h : Describes values base shape core)
    (hknown : shape.stack[index]? = some (some known)) :
    load64 core.memory (core.rsp + BitVec.ofNat 64 (8 * index)) = values known := by
  have hindex := (List.getElem?_eq_some_iff.mp hknown).1
  have hplace : core.rsp + BitVec.ofNat 64 (8 * index) =
      base - BitVec.ofNat 64 (8 * (shape.stack.length - index)) := by
    have hsplit : 8 * shape.stack.length = 8 * (shape.stack.length - index) + 8 * index := by omega
    rw [h.rsp, hsplit, BitVec.ofNat_add]
    ring
  rw [hplace]
  exact h.stack.word hknown

/-! ## Reserved flags -/

namespace ReservedClear

theorem and (h : ReservedClear rflags) (mask : Word) : ReservedClear (rflags &&& mask) := by
  constructor
  · rw [BitVec.getLsbD_and, h.third, Bool.false_and]
  · rw [BitVec.getLsbD_and, h.fifth, Bool.false_and]

theorem or {first second : Word} (h : ReservedClear first) (h' : ReservedClear second) :
    ReservedClear (first ||| second) := by
  constructor
  · rw [BitVec.getLsbD_or, h.third, h'.third]
    rfl
  · rw [BitVec.getLsbD_or, h.fifth, h'.fifth]
    rfl

theorem flagAt {bit : ℕ} (hbit : bit = 0 ∨ bit = 2 ∨ bit = 4 ∨ bit = 6 ∨ bit = 7 ∨ bit = 11)
    (value : Bool) : ReservedClear (flagAt bit value) := by
  rcases hbit with rfl | rfl | rfl | rfl | rfl | rfl <;> cases value <;> exact ⟨by decide, by decide⟩

theorem sumFlags (h : ReservedClear rflags) (first second : Word) :
    ReservedClear (sumFlags first second rflags) :=
  (((((((h.and _).or (flagAt (by decide) _)).or (flagAt (by decide) _)).or (flagAt (by decide) _)).or
    (flagAt (by decide) _)).or (flagAt (by decide) _)).or (flagAt (by decide) _))

theorem exec (h : ReservedClear core.rflags) (instruction : Instruction) :
    ReservedClear (instruction.exec core).rflags := by
  cases instruction with
  | cli => exact h.and _
  | cld => exact h.and _
  | addImmediate value target => exact h.sumFlags _ _
  | popfq =>
    refine or ?_ (h.and _)
    rw [BitVec.and_comm]
    exact (show ReservedClear popfqWrites from ⟨by decide, by decide⟩).and _
  | _ => exact h

theorem execute (h : ReservedClear core.rflags) (code : List Instruction) :
    ReservedClear (execute code core).rflags := by
  induction code generalizing core with
  | nil => exact h
  | cons instruction code ih => exact ih (h.exec instruction)

/-- The flags at the end of a stub are clear when the routine leaves them clear. -/
theorem run {ρ : Type*} {stub : Stub ρ} {routine : Core → Core} {returnAddress : Word}
    (h : ReservedClear (routine (stub.entry returnAddress core)).rflags) :
    ReservedClear (stub.run routine returnAddress core).rflags :=
  execute (show ReservedClear ((Machine.execute stub.prologue core).call routine returnAddress).rflags
    from h) stub.epilogue

end ReservedClear

end PenelopeOS.Machine
