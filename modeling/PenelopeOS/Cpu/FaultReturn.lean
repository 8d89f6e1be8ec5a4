import PenelopeOS.Cpu.Interleaving
import PenelopeOS.Cpu.SystemTables
import PenelopeOS.Foundation.Run
import PenelopeOS.Machine.Returns

/-!
# What follows an exception with an error code

A stub that leaves the error code on the stack returns with every word one place off, and the stub of
vector 13, which takes off too much, with every word one place off the other way. What `iretq` finds in
the place of the code segment is no code segment of the table, so it raises a general protection
exception, whose own stub fares no better.
-/

namespace PenelopeOS.Cpu

open Foundation Machine

/-- The core at the `iretq` of the stub. -/
def handled (processor : Processor) (vector : Fin 34) (errorCode returnAddress : Word)
    (routine : Core → Core) : Core :=
  (isr.get vector).run routine returnAddress (delivered processor vector errorCode)

/-- The routine of the stub returns, and neither it nor the stub, whose stack has room for 17 words,
writes to the descriptor table. -/
structure Handles (table : Word) (processor : Processor) (vector : Fin 34)
    (errorCode returnAddress : Word) (routine : Core → Core) (entry : Core) : Prop where
  entered : (isr.get vector).entry returnAddress (delivered processor vector errorCode) = entry
  returns : ReturnsClean (interruptStack processor) entry (routine entry)
  reserved : ReservedClear (routine entry).rflags
  room : 8 * 17 ≤ (interruptStack processor).toNat
  apart : ∀ address, (address - table).toNat < 40 →
    ¬ ((interruptStack processor).toNat - 8 * 17 ≤ address.toNat ∧
      address.toNat < (interruptStack processor).toNat)
  keeps : ∀ address, (address - table).toNat < 40 →
    (routine entry).memory address = entry.memory address

/-- An `iretq` raises a general protection exception, and its stub gets to its own `iretq`. -/
inductive Protects (table : Word) : Core → Word → Core → Prop
  | exception {core entry : Core} {rip errorCode returnAddress : Word} {ss : BitVec 16}
      {routine : Core → Core}
      (hraises : returnException ⟨55, table⟩ core = some .generalProtection)
      (hhandles : Handles table ⟨core, rip, 0x08, ss⟩ 13 errorCode returnAddress routine entry) :
      Protects table core errorCode (handled ⟨core, rip, 0x08, ss⟩ 13 errorCode returnAddress routine)

/-- The `iretq` raises a general protection exception, in the segments of the kernel, whichever of them the
processor has marked as accessed. -/
structure Stuck (table : Word) (core : Core) : Prop where
  segments : ∃ accessed, Stores core.memory table ((segmentWords accessed).flatMap bytesOf)
  reserved : ReservedClear core.rflags
  raises : returnException ⟨55, table⟩ core = some .generalProtection

/-! ## Selectors -/

variable {table : Word} {memory : Memory} {selector : BitVec 16} {accessed : Fin 4 → Bool}

theorem checkReturn_of_error (h : descriptorAddress ⟨55, table⟩ selector 8 = .error .generalProtection) :
    checkReturn memory ⟨55, table⟩ selector = .error .generalProtection := by
  simp only [checkReturn, h, bind, Except.bind]

theorem toNat_offset (selector : BitVec 16) :
    (selector &&& 0xfff8).toNat = 8 * (selector.toNat / 8) := by
  have hdvd := dvd_toNat_and selector (show 2 ^ 3 ∣ (0xfff8 : BitVec 16).toNat by decide)
  have hfield := toNat_exactField selector
    (show ((0xfff8 : BitVec 16) >>> 3).toNat = 2 ^ 13 - 1 by decide)
  rw [BitVec.toNat_ushiftRight, Nat.shiftRight_eq_div_pow] at hfield
  have hlt := selector.isLt
  omega

/-- The table ends before the descriptor. -/
theorem checkReturn_beyond (h : 56 ≤ selector.toNat) :
    checkReturn memory ⟨55, table⟩ selector = .error .generalProtection := by
  apply checkReturn_of_error
  have hoffset := toNat_offset selector
  rw [descriptorAddress, if_pos (Or.inr (Or.inr ?_))]
  change 55 + 1 < (selector &&& 0xfff8).toNat + 8
  omega

/-- With their reserved bits clear, the flags select nothing, the data of the kernel, or something behind
the table. -/
theorem checkReturn_flags {rflags : Word} (hreserved : ReservedClear rflags)
    (hsegments : Stores memory table ((segmentWords accessed).flatMap bytesOf)) :
    checkReturn memory ⟨55, table⟩ (rflags.setWidth 16) = .error .generalProtection := by
  obtain ⟨hthird, hfifth⟩ := hreserved
  rw [BitVec.getLsbD, Nat.testBit_eq_decide_div_mod_eq, decide_eq_false_iff_not] at hthird hfifth
  have hselector : (rflags.setWidth 16).toNat = rflags.toNat % 2 ^ 16 := BitVec.toNat_setWidth 16 rflags
  have hoffset := toNat_offset (rflags.setWidth 16)
  by_cases hbeyond : 56 ≤ (rflags.setWidth 16).toNat
  · exact checkReturn_beyond hbeyond
  · by_cases hnull : rflags.setWidth 16 &&& 0xfff8 = 0
    · apply checkReturn_of_error
      rw [descriptorAddress, if_pos (Or.inl hnull)]
    · have hdata : rflags.setWidth 16 &&& 0xfff8 = 0x10 := by
        have hne : (rflags.setWidth 16 &&& 0xfff8).toNat ≠ 0 := fun h ↦ hnull (BitVec.eq_of_toNat_eq h)
        apply BitVec.eq_of_toNat_eq
        change (rflags.setWidth 16 &&& 0xfff8).toNat = 16
        omega
      by_cases hlocal : (rflags.setWidth 16).getLsbD 2 = true
      · apply checkReturn_of_error
        rw [descriptorAddress, if_pos (Or.inr (Or.inl hlocal))]
      · have haddress : descriptorAddress ⟨55, table⟩ (rflags.setWidth 16) 8 = .ok (table + 16#64) := by
          have hroom : ¬ (55 : BitVec 16).toNat + 1 < (0x10 : BitVec 16).toNat + 8 := by decide
          rw [descriptorAddress, hdata, if_neg (not_or.mpr ⟨by decide, not_or.mpr ⟨hlocal, hroom⟩⟩)]
          rfl
        have hstored := load64_of_stores_words hsegments
          (show (segmentWords accessed)[2]? = some _ from rfl)
        have hword : load64 memory (table + 16#64) = 0x00CF92000000FFFF ||| accessedBit (accessed 1) :=
          hstored
        have htype : (0x00CF92000000FFFF ||| accessedBit (accessed 1)).extractLsb' 43 2 ≠ 0b11 := by
          cases accessed 1 <;> decide
        simp only [checkReturn, haddress, bind, Except.bind, hword]
        rw [if_pos (Or.inl htype)]

/-! ## Stubs -/

variable {processor : Processor} {vector : Fin 34} {errorCode returnAddress : Word}
  {routine : Core → Core} {entry : Core}

theorem depth_isr (vector : Fin 34) : (Shape.delivered (pushesErrorCode vector)).stack.length +
    (isr.get vector).prologue.length + 1 ≤ 17 := by
  revert vector
  decide

/-- The descriptor table is still there at the `iretq`, and the stack is described. -/
theorem handled_spec (hhandles : Handles table processor vector errorCode returnAddress routine entry)
    (hsegments : Stores processor.memory table ((segmentWords accessed).flatMap bytesOf)) :
    Stores (handled processor vector errorCode returnAddress routine).memory table
        ((segmentWords accessed).flatMap bytesOf) ∧
      ReservedClear (handled processor vector errorCode returnAddress routine).rflags ∧
      ∃ shape : Shape Origin, shape.stack = leftover vector ∧
        Describes (Origin.value processor errorCode (routine entry)) (interruptStack processor) shape
          (handled processor vector errorCode returnAddress routine) := by
  obtain ⟨rfl, hreturns, hreserved, hroom, hapart, hkeeps⟩ := hhandles
  obtain ⟨shape, houtline, hstack⟩ := Option.map_eq_some_iff.mp (stack_outline vector)
  have hdepth := depth_isr vector
  refine ⟨fun index byte hbyte ↦ ?_, .run hreserved, shape, hstack, ?_⟩
  · have hindex := (List.getElem?_eq_some_iff.mp hbyte).1
    rw [length_segmentWords] at hindex
    have hplace : (table + BitVec.ofNat 64 index - table).toNat < 40 := by
      bv_omega
    rw [← hsegments index byte hbyte]
    exact Stub.run_memory houtline (writes_epilogue vector) (by omega) (hapart _ hplace)
      (hkeeps _ hplace)
  · exact Stub.describes houtline (length_isr vector) routine returnAddress hreturns
      fun register hmem ↦ absurd hmem List.not_mem_nil

/-- What is found in the place of the code segment. -/
theorem returnException_handled (known : Origin) {shape : Shape Origin} {core : Core}
    {values : Origin → Word} {stack : Word} (h : Describes values stack shape core)
    (hknown : shape.stack[1]? = some (some known))
    (hcheck : checkReturn core.memory ⟨55, table⟩ ((values known).setWidth 16) =
      .error .generalProtection) :
    returnException ⟨55, table⟩ core = some .generalProtection := by
  apply returnException_of_check
  have hplace : BitVec.ofNat 64 (8 * 1) = 8 := by decide
  have hslot := h.slot hknown
  rw [hplace] at hslot
  rw [hslot]
  exact hcheck

/-- After a general protection exception the flags are in the place of the code segment. -/
theorem stuck_of_protection
    (hhandles : Handles table processor 13 errorCode returnAddress routine entry)
    (hsegments : Stores processor.memory table ((segmentWords accessed).flatMap bytesOf))
    (hreserved : ReservedClear processor.rflags) :
    Stuck table (handled processor 13 errorCode returnAddress routine) ∧
      (handled processor 13 errorCode returnAddress routine).rsp = interruptStack processor - 32 := by
  obtain ⟨hstored, hflags, shape, hstack, hdescribes⟩ := handled_spec hhandles hsegments
  have hleft : shape.stack = contextStack.tail := hstack
  refine ⟨⟨⟨accessed, hstored⟩, hflags, ?_⟩, ?_⟩
  · refine returnException_handled .rflags hdescribes (by rw [hleft]; rfl) ?_
    exact checkReturn_flags hreserved hstored
  · rw [hdescribes.rsp, hleft]
    rfl

/-- After any other exception with an error code, the instruction pointer is. -/
theorem stuck_of_errorCode (hcode : pushesErrorCode vector = true) (hvector : vector.val ≠ 13)
    (hhandles : Handles table processor vector errorCode returnAddress routine entry)
    (hsegments : Stores processor.memory table ((segmentWords accessed).flatMap bytesOf))
    (hrip : 56 ≤ (processor.rip.setWidth 16).toNat) :
    Stuck table (handled processor vector errorCode returnAddress routine) := by
  obtain ⟨hstored, hflags, shape, hstack, hdescribes⟩ := handled_spec hhandles hsegments
  have hleft : shape.stack = some .errorCode :: contextStack := by
    rw [hstack, leftover, if_neg hvector, if_pos hcode]
  refine ⟨⟨accessed, hstored⟩, hflags, ?_⟩
  exact returnException_handled .rip hdescribes (by rw [hleft]; rfl) (checkReturn_beyond hrip)

/-! ## Runs -/

/-- Each exception is stuck again, two words further down. -/
theorem Stuck.protects {core core' : Core} (h : Stuck table core)
    (hstep : Protects table core errorCode core') :
    Stuck table core' ∧ core'.rsp = (core.rsp &&& ~~~0xF) - 32 := by
  obtain ⟨accessed, hsegments⟩ := h.segments
  cases hstep with
  | exception hraises hhandles => exact stuck_of_protection hhandles hsegments h.reserved

/-- Multiples of 16 are aligned. -/
theorem and_aligned {rsp : Word} (h : 16 ∣ rsp.toNat) : rsp &&& ~~~0xF = rsp := by
  have hdvd := dvd_toNat_and rsp (show 2 ^ 4 ∣ (~~~0xF : Word).toNat by decide)
  have hfield := toNat_exactField rsp (show ((~~~0xF : Word) >>> 4).toNat = 2 ^ 60 - 1 by decide)
  rw [BitVec.toNat_ushiftRight, Nat.shiftRight_eq_div_pow] at hfield
  have hlt := rsp.isLt
  apply BitVec.eq_of_toNat_eq
  omega

/-- They stay so 32 bytes further down. -/
theorem aligned_sub (rsp : Word) (count : ℕ) :
    ((rsp &&& ~~~0xF) - BitVec.ofNat 64 (32 * count)) &&& ~~~0xF =
      (rsp &&& ~~~0xF) - BitVec.ofNat 64 (32 * count) := by
  have hdvd := dvd_toNat_and rsp (show 2 ^ 4 ∣ (~~~0xF : Word).toNat by decide)
  apply and_aligned
  rw [BitVec.toNat_sub, BitVec.toNat_ofNat]
  omega

theorem Stuck.run {core core' : Core} {moves : List (Core × Word)} (h : Stuck table core)
    (run : Run (Protects table) core moves core') :
    Stuck table core' ∧ (core'.rsp &&& ~~~0xF) =
      (core.rsp &&& ~~~0xF) - BitVec.ofNat 64 (32 * moves.length) := by
  induction run with
  | nil => exact ⟨h, (BitVec.sub_zero _).symm⟩
  | @snoc moves state state' event run hstep ih =>
    obtain ⟨hstuck, hrsp⟩ := ih
    obtain ⟨hnext, hrsp'⟩ := hstuck.protects hstep
    have hdown : state'.rsp = (core.rsp &&& ~~~0xF) - BitVec.ofNat 64 (32 * (moves.length + 1)) := by
      have hnext : BitVec.ofNat 64 (32 * (moves.length + 1)) =
          BitVec.ofNat 64 (32 * moves.length) + 32 := BitVec.ofNat_add (32 * moves.length) 32
      rw [hrsp', hrsp, hnext]
      ring
    refine ⟨hnext, ?_⟩
    rw [hdown, aligned_sub, List.length_append, List.length_singleton]

/-- A kernel thread that an exception with an error code interrupts is never resumed. The `iretq` of the
stub raises a general protection exception, and so does that of every stub from there on, each of which
starts 32 bytes further down the stack, as long as the stack has not grown into the descriptor table. For
the vectors other than 13 this is so unless the low 16 bits of the instruction pointer are a selector of
the table. -/
theorem never_resumes {processor : Processor} {vector : Fin 34} {errorCode returnAddress : Word}
    {routine : Core → Core} {entry final : Core} {moves : List (Core × Word)}
    (hcode : pushesErrorCode vector = true)
    (hrip : vector.val = 13 ∨ 56 ≤ (processor.rip.setWidth 16).toNat)
    (hreserved : ReservedClear processor.rflags)
    (hsegments : Stores processor.memory table ((segmentWords accessed).flatMap bytesOf))
    (hhandles : Handles table processor vector errorCode returnAddress routine entry)
    (run : Run (Protects table) (handled processor vector errorCode returnAddress routine) moves final) :
    returnException ⟨55, table⟩ final = some .generalProtection ∧
      (final.rsp &&& ~~~0xF) =
        ((handled processor vector errorCode returnAddress routine).rsp &&& ~~~0xF) -
          BitVec.ofNat 64 (32 * moves.length) := by
  have hstuck : Stuck table (handled processor vector errorCode returnAddress routine) := by
    by_cases hvector : vector.val = 13
    · obtain rfl : vector = 13 := Fin.ext hvector
      exact (stuck_of_protection hhandles hsegments hreserved).1
    · exact stuck_of_errorCode hcode hvector hhandles hsegments (hrip.resolve_left hvector)
  obtain ⟨hfinal, hrsp⟩ := hstuck.run run
  exact ⟨hfinal.raises, hrsp⟩

/-- A processor in the segments of the kernel, with their descriptors at 0x30000. -/
def segmentedProcessor : Processor := { idleProcessor with
  memory := storeBytes (fun _ ↦ 0) 0x30000 ((segmentWords fun i ↦ i.val < 2).flatMap bytesOf)
  cs := 0x08
  ss := 0x10 }

/-- A routine that does nothing, on a stack that ends in front of the segments. -/
theorem handles_id {processor : Processor} (hreserved : ReservedClear processor.rflags)
    (hroom : 8 * 17 ≤ (interruptStack processor).toNat)
    (hbelow : (interruptStack processor).toNat ≤ 0x9000)
    (vector : Fin 34) (errorCode returnAddress : Word) :
    Handles 0x30000 processor vector errorCode returnAddress id
      ((isr.get vector).entry returnAddress (delivered processor vector errorCode)) where
  entered := rfl
  returns := ⟨rfl, fun _ _ ↦ rfl⟩
  reserved := by
    have hdelivered : ReservedClear (delivered processor vector errorCode).rflags := by
      rw [delivered, Processor.deliver]
      split <;> exact hreserved.and _
    exact hdelivered.execute _
  room := hroom
  apart address haddress := by
    bv_omega
  keeps _ _ := rfl

theorem never_resumes_pageFault : ∃ core : Core,
    returnException ⟨55, 0x30000⟩ core = some .generalProtection ∧ core.rsp &&& ~~~0xF = 0x8FB0 := by
  have hreserved : ReservedClear segmentedProcessor.rflags := ⟨by decide, by decide⟩
  have hsegments : Stores segmentedProcessor.memory 0x30000
      ((segmentWords fun i ↦ i.val < 2).flatMap bytesOf) :=
    stores_storeBytes _ _ (by rw [length_segmentWords]; decide)
  have hrip : 56 ≤ (segmentedProcessor.rip.setWidth 16).toNat := by decide
  have hroom : 8 * 17 ≤ (interruptStack segmentedProcessor).toNat := by decide
  have hhandles := handles_id hreserved hroom (by decide) 14 2 0x2000
  have hstuck := stuck_of_errorCode (by decide) (by decide) hhandles hsegments hrip
  have hrsp : (handled segmentedProcessor 14 2 0x2000 id).rsp = 0x8FD0 := by decide
  have hprotects : Protects 0x30000 (handled segmentedProcessor 14 2 0x2000 id) 0
      (handled ⟨handled segmentedProcessor 14 2 0x2000 id, 0x3000, 0x08, 0x10⟩ 13 0 0x2000 id) :=
    .exception hstuck.raises (handles_id hstuck.reserved (by decide) (by decide) 13 0 0x2000)
  obtain ⟨hraises, hdown⟩ := never_resumes (by decide) (.inr hrip) hreserved hsegments hhandles
    (.snoc .nil hprotects)
  refine ⟨_, hraises, hdown.trans ?_⟩
  rw [hrsp]
  decide

end PenelopeOS.Cpu
