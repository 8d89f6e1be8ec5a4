import PenelopeOS.Limine.MemoryMap
import PenelopeOS.Memory.FaultSearch

/-!
# The probes for the limits of memory

`upperLimitProbe` and `lowerLimitProbe` write to one address after the other in loops that have no
condition. A refused access ends them, at the latest at the first address that is not canonical. They
write byte by byte, so an entry of a table that they run into can stay present and refer to another page.
-/

namespace PenelopeOS.Memory

open Console Foundation Limine Machine

section Loop

variable (hhdm cr3 : Word) (protect : Bool)

/-- What is printed up to the byte that is read back. -/
def limitLine (paddr : Word) : List Item :=
  [.text (ascii "paddr = "), .word paddr, .text (ascii " :: vaddr = "),
    .word (paddrToVaddr hhdm paddr), .text (ascii " :: *pch = ")]

/-- One round of the loops -/
def limitStep (paddr : Word) (memory : Memory) : Search :=
  let vaddr := paddrToVaddr hhdm paddr
  match access memory cr3 protect true vaddr with
  | .error fault => ⟨[], memory, some (vaddr, fault)⟩
  | .ok written =>
    let memory := Function.update memory written 67
    match access memory cr3 protect false vaddr with
    | .error fault => ⟨limitLine hhdm paddr, memory, some (vaddr, fault)⟩
    | .ok location => ⟨limitLine hhdm paddr ++ [.char (memory location), .char 10], memory, none⟩

/-- The first rounds of a loop that goes on by the given distance -/
def limitLoop (advance : Word) : ℕ → Word → Memory → Search
  | 0, _, memory => ⟨[], memory, none⟩
  | rounds + 1, paddr, memory =>
    let first := limitStep hhdm cr3 protect paddr memory
    match first.fault with
    | some fault => ⟨first.items, first.memory, some fault⟩
    | none =>
      let others := limitLoop advance rounds (paddr + advance) first.memory
      ⟨first.items ++ others.items, others.memory, others.fault⟩

/-- The probe of one entry of the memory map, as far as the first rounds. -/
def limitProbe (mode : Intmode) (advance : Word) (start : MemmapEntry → Word) (rounds : ℕ)
    (entry : MemmapEntry) (memory : Memory) : Search :=
  let search := limitLoop hhdm cr3 protect advance rounds (start entry) memory
  ⟨[.mode mode, .text (ascii "base: "), .word entry.base, .text (ascii ", length = "),
    .word entry.length, .char 10] ++ search.items, search.memory, search.fault⟩

/-- The first address that `upperLimitProbe` tries -/
def upperStart (entry : MemmapEntry) : Word := entry.base + entry.length - 50

/-- `upperLimitProbe`, for a memory map with an entry -/
def upperLimitProbe (rounds : ℕ) (entries : List MemmapEntry) (memory : Memory) : Option Search :=
  entries.getLast?.map fun entry ↦ limitProbe hhdm cr3 protect .dec 1 upperStart rounds entry memory

/-- The first address that `lowerLimitProbe` tries -/
def lowerStart (entry : MemmapEntry) : Word := entry.base + 50

/-- `lowerLimitProbe`, for a memory map with an entry -/
def lowerLimitProbe (rounds : ℕ) (entries : List MemmapEntry) (memory : Memory) : Option Search :=
  entries.head?.map fun entry ↦ limitProbe hhdm cr3 protect .hex (-1) lowerStart rounds entry memory

end Loop

/-- The physical address of a round. -/
def roundAddress (start advance : Word) (round : ℕ) : Word := start + BitVec.ofNat 64 round * advance

/-- Its virtual address -/
def roundVaddr (hhdm start advance : Word) (round : ℕ) : Word :=
  paddrToVaddr hhdm (roundAddress start advance round)

/-- The loop ends after the given number of rounds, in the next one. -/
inductive LoopEnds (hhdm cr3 : Word) (protect : Bool) (advance : Word) :
    ℕ → Word → Memory → Search → Prop where
  | here {paddr : Word} {memory : Memory} {last : Search} {fault : Word × AccessFault} :
    limitStep hhdm cr3 protect paddr memory = last → last.fault = some fault →
    LoopEnds hhdm cr3 protect advance 0 paddr memory last
  | later {paddr : Word} {memory : Memory} {rounds : ℕ} {first others : Search} :
    limitStep hhdm cr3 protect paddr memory = first → first.fault = none →
    LoopEnds hhdm cr3 protect advance rounds (paddr + advance) first.memory others →
    LoopEnds hhdm cr3 protect advance (rounds + 1) paddr memory
      ⟨first.items ++ others.items, others.memory, others.fault⟩

variable {hhdm cr3 advance start paddr : Word} {protect : Bool} {memory : Memory} {rounds : ℕ}
  {search : Search} {out : Kostream}

theorem roundAddress_zero (start advance : Word) : roundAddress start advance 0 = start := by
  rw [roundAddress, BitVec.zero_mul, BitVec.add_zero]

theorem roundAddress_succ (start advance : Word) (round : ℕ) :
    roundAddress start advance (round + 1) = roundAddress (start + advance) advance round := by
  calc
    start + BitVec.ofNat 64 (round + 1) * advance
        = start + (BitVec.ofNat 64 round * advance + advance) := by
      rw [BitVec.ofNat_add, add_mul, BitVec.one_mul]
    _ = start + advance + BitVec.ofNat 64 round * advance := by ring

theorem roundVaddr_zero (hhdm start advance : Word) :
    roundVaddr hhdm start advance 0 = paddrToVaddr hhdm start := by
  rw [roundVaddr, roundAddress_zero]

theorem roundVaddr_succ (hhdm start advance : Word) (round : ℕ) :
    roundVaddr hhdm start advance (round + 1) = roundVaddr hhdm (start + advance) advance round := by
  rw [roundVaddr, roundVaddr, roundAddress_succ]

/-! ## The end of the loops -/

/-- What one round does. -/
theorem limitStep_cases (hhdm cr3 : Word) (protect : Bool) (paddr : Word) (memory : Memory) :
    let vaddr := paddrToVaddr hhdm paddr
    let last := limitStep hhdm cr3 protect paddr memory
    (∃ fault, access memory cr3 protect true vaddr = .error fault ∧
      last = ⟨[], memory, some (vaddr, fault)⟩) ∨
    ∃ written, access memory cr3 protect true vaddr = .ok written ∧
      ((∃ fault, access (Function.update memory written 67) cr3 protect false vaddr = .error fault ∧
        last = ⟨limitLine hhdm paddr, Function.update memory written 67, some (vaddr, fault)⟩) ∨
      ∃ location, access (Function.update memory written 67) cr3 protect false vaddr = .ok location ∧
        last = ⟨limitLine hhdm paddr ++
          [.char (Function.update memory written 67 location), .char 10],
          Function.update memory written 67, none⟩) := by
  intro vaddr last
  cases hwrite : access memory cr3 protect true vaddr with
  | error fault =>
    refine .inl ⟨fault, rfl, ?_⟩
    simp only [last, limitStep, vaddr, hwrite]
  | ok written =>
    refine .inr ⟨written, rfl, ?_⟩
    cases hread : access (Function.update memory written 67) cr3 protect false vaddr with
    | error fault =>
      refine .inl ⟨fault, rfl, ?_⟩
      simp only [last, limitStep, vaddr, hwrite, hread]
    | ok location =>
      refine .inr ⟨location, rfl, ?_⟩
      simp only [last, limitStep, vaddr, hwrite, hread]

/-- More rounds change nothing. -/
theorem LoopEnds.limitLoop_eq (h : LoopEnds hhdm cr3 protect advance rounds paddr memory search)
    {more : ℕ} (hmore : rounds < more) :
    limitLoop hhdm cr3 protect advance more paddr memory = search := by
  induction h generalizing more with
  | here hstep hfault =>
    obtain ⟨more, rfl⟩ := Nat.exists_eq_add_of_lt hmore
    rw [limitLoop, hstep, hfault]
    simp only [← hfault]
  | later hstep hnone hothers ih =>
    obtain ⟨more, rfl⟩ : ∃ less, more = less + 1 := ⟨more - 1, by omega⟩
    rw [limitLoop, hstep, hnone]
    simp only [ih (Nat.lt_of_succ_lt_succ hmore)]

theorem limitStep_of_not_canonical (memory : Memory) (cr3 : Word) (protect : Bool)
    (h : ¬ Canonical (paddrToVaddr hhdm paddr)) :
    limitStep hhdm cr3 protect paddr memory =
      ⟨[], memory, some (paddrToVaddr hhdm paddr, .notCanonical)⟩ := by
  have hrefused : access memory cr3 protect true (paddrToVaddr hhdm paddr) = .error .notCanonical := by
    rw [access, if_neg h]
  simp only [limitStep, hrefused]

/-- A round whose address is not canonical is the last one, if there is no end before it. -/
theorem exists_loopEnds (memory : Memory) (cr3 : Word) (protect : Bool) {limit : ℕ}
    (hlimit : ¬ Canonical (paddrToVaddr hhdm (roundAddress start advance limit))) :
    ∃ rounds ≤ limit, ∃ search, LoopEnds hhdm cr3 protect advance rounds start memory search := by
  induction limit generalizing start memory with
  | zero =>
    rw [roundAddress_zero] at hlimit
    exact ⟨0, le_rfl, _, .here (limitStep_of_not_canonical memory cr3 protect hlimit) rfl⟩
  | succ limit ih =>
    rw [roundAddress_succ] at hlimit
    cases hfault : (limitStep hhdm cr3 protect start memory).fault with
    | some fault => exact ⟨0, Nat.zero_le _, _, .here rfl hfault⟩
    | none =>
      obtain ⟨rounds, hrounds, others, hothers⟩ :=
        ih (limitStep hhdm cr3 protect start memory).memory hlimit
      exact ⟨rounds + 1, Nat.succ_le_succ hrounds, _, .later rfl hfault hothers⟩

/-- An address that is not canonical is reached, whatever the offset. -/
theorem exists_not_canonical (hhdm start : Word) (hadvance : advance * advance = 1) :
    ∃ limit < 2 ^ 64, ¬ Canonical (paddrToVaddr hhdm (roundAddress start advance limit)) := by
  set distance : Word := (0x800000000000 - hhdm - start) * advance
  refine ⟨distance.toNat, distance.isLt, ?_⟩
  have hreached : paddrToVaddr hhdm (roundAddress start advance distance.toNat) = 0x800000000000 := by
    have hback : distance * advance = 0x800000000000 - hhdm - start := by
      change (0x800000000000 - hhdm - start) * advance * advance = _
      rw [mul_assoc, hadvance, mul_one]
    calc
      paddrToVaddr hhdm (roundAddress start advance distance.toNat)
          = start + distance * advance + hhdm := by
        rw [paddrToVaddr, roundAddress, BitVec.ofNat_toNat, BitVec.setWidth_eq]
      _ = start + (0x800000000000 - hhdm - start) + hhdm := by rw [hback]
      _ = 0x800000000000 := by ring
  rw [hreached]
  decide

/-- The loop ends at the address of its last round. -/
theorem LoopEnds.fault (h : LoopEnds hhdm cr3 protect advance rounds start memory search) :
    ∃ fault, search.fault = some (paddrToVaddr hhdm (roundAddress start advance rounds), fault) := by
  induction h with
  | @here paddr memory last fault hstep hfault =>
    rw [roundAddress_zero]
    rcases limitStep_cases hhdm cr3 protect paddr memory with
      ⟨fault, -, hlast⟩ | ⟨written, -, ⟨fault, -, hlast⟩ | ⟨location, -, hlast⟩⟩
    · exact ⟨fault, by rw [← hstep, hlast]⟩
    · exact ⟨fault, by rw [← hstep, hlast]⟩
    · rw [← hstep, hlast] at hfault
      cases hfault
  | later hstep hnone hothers ih =>
    rw [roundAddress_succ]
    exact ih

/-- Nothing is written but the letter. -/
theorem LoopEnds.memory_or (h : LoopEnds hhdm cr3 protect advance rounds start memory search)
    (location : Word) : search.memory location = memory location ∨ search.memory location = 67 := by
  have hupdate (memory : Memory) (written : Word) :
      Function.update memory written 67 location = memory location ∨
        Function.update memory written 67 location = 67 := by
    by_cases hsame : location = written
    · right
      rw [hsame, Function.update_self]
    · left
      rw [Function.update_of_ne hsame]
  have hround (paddr : Word) (memory : Memory) :
      (limitStep hhdm cr3 protect paddr memory).memory location = memory location ∨
        (limitStep hhdm cr3 protect paddr memory).memory location = 67 := by
    rcases limitStep_cases hhdm cr3 protect paddr memory with
      ⟨fault, -, hlast⟩ | ⟨written, -, ⟨fault, -, hlast⟩ | ⟨other, -, hlast⟩⟩
    · rw [hlast]
      exact .inl rfl
    · rw [hlast]
      exact hupdate memory written
    · rw [hlast]
      exact hupdate memory written
  induction h with
  | here hstep hfault => exact hstep ▸ hround _ _
  | later hstep hnone hothers ih =>
    rcases ih with hsame | hletter
    · rcases hstep ▸ hround _ _ with hkept | hwritten
      · exact .inl (hsame.trans hkept)
      · exact .inr (hsame.trans hwritten)
    · exact .inr hletter

/-! ## The text -/

/-- The lines with the physical addresses that were tried. -/
def paddrFront : List (BitVec 8) := ascii "paddr = "

/-- The line of an address, with whatever stands for the byte that is read back. -/
theorem tells_limitLine (hmode : out.mode ≠ .bin) (hhdm paddr : Word) {last : List Item}
    {tail : List (BitVec 8)} (hlast : out.write last = .ok (tail ++ [10], out)) (htail : 10 ∉ tail) :
    Tells out paddrFront (limitLine hhdm paddr ++ last) [paddr.toNat] := by
  obtain ⟨bytes, hput, hnumeral⟩ := printsAs_word hmode (paddrToVaddr hhdm paddr)
  have hvaddr : out.put (.text (ascii " :: vaddr = ")) = .ok (ascii " :: vaddr = ", out) := rfl
  have hpch : out.put (.text (ascii " :: *pch = ")) = .ok (ascii " :: *pch = ", out) := rfl
  have hwrite := Kostream.write_cons hvaddr (Kostream.write_cons hput (Kostream.write_cons hpch hlast))
  rw [← List.append_assoc, ← List.append_assoc, ← List.append_assoc] at hwrite
  refine tells_report_rest (by decide) (printsAs_word hmode paddr) hwrite ?_
    ⟨32, _, rfl, digitOf_space out⟩
  rw [List.mem_append, List.mem_append, List.mem_append]
  rintro (((hmem | hmem) | hmem) | hmem)
  · exact absurd hmem (by decide)
  · exact not_mem_numeral hnumeral hmem
  · exact absurd hmem (by decide)
  · exact htail hmem

/-- A byte that is a line break itself ends the line, and an empty line follows. -/
theorem tells_round (hmode : out.mode ≠ .bin) (hhdm paddr : Word) (byte : BitVec 8) :
    Tells out paddrFront (limitLine hhdm paddr ++ [.char byte, .char 10]) [paddr.toNat] := by
  by_cases hbyte : byte = 10
  · have hempty : Tells out paddrFront [.char 10] [] :=
      tells_line (show out.write [.char 10] = .ok ([13] ++ [10], out) from rfl) (by decide) _
    have hline : Tells out paddrFront (limitLine hhdm paddr ++ [.char 10]) [paddr.toNat] :=
      tells_limitLine hmode hhdm paddr (show out.write [.char 10] = .ok ([13] ++ [10], out) from rfl)
        (by decide)
    rw [hbyte]
    exact hline.append hempty
  · have hput : out.put (.char byte) = .ok ([byte], out) := by
      rw [Kostream.put, if_neg hbyte]
      rfl
    have hboth : out.write [.char byte, .char 10] = .ok ([byte] ++ [13, 10], out) :=
      Kostream.write_cons hput (show out.write [.char 10] = .ok ([13, 10], out) from rfl)
    have hlast : out.write [.char byte, .char 10] = .ok ([byte, 13] ++ [10], out) := hboth
    refine tells_limitLine hmode hhdm paddr hlast ?_
    rw [List.mem_cons, List.mem_singleton, not_or]
    exact ⟨Ne.symm hbyte, by decide⟩

/-- The handlers report no physical address. -/
theorem tells_generalItems (out : Kostream) : Tells out paddrFront (Cpu.generalItems 13) [] := by
  obtain ⟨bytes, hput, hnumeral⟩ :=
    printsAs_int out (show (13 : BitVec 32).toInt = (13 : ℕ) by decide)
  have hcode : Tells out paddrFront [.text (ascii "interrupt code: "), .int 13, .char 10] [] := by
    have htext : out.put (.text (ascii "interrupt code: ")) = .ok (ascii "interrupt code: ", out) := rfl
    have hwrite := Kostream.write_cons htext
      (Kostream.write_cons hput (show out.write [.char 10] = .ok ([13] ++ [10], out) from rfl))
    rw [← List.append_assoc, ← List.append_assoc] at hwrite
    have hnewline : 10 ∉ ascii "interrupt code: " ++ bytes ++ [13] := by
      rw [List.mem_append, List.mem_append]
      rintro ((hmem | hmem) | hmem)
      · exact absurd hmem (by decide)
      · obtain ⟨digit, -, hdigit⟩ := hnumeral.isDigit 10 hmem
        cases (show digitOf 10 10 = none from rfl).symm.trans hdigit
      · exact absurd hmem (by decide)
    have hother : ¬ paddrFront <+: ascii "interrupt code: " ++ bytes ++ [13] :=
      not_prefix_of_head (show paddrFront.head? = some 112 from rfl)
        (show (ascii "interrupt code: ").head? = some 105 from rfl) (by decide)
        ((List.prefix_append _ _).trans (List.prefix_append _ _))
    have hline := tells_line hwrite hnewline paddrFront
    rwa [reportOf_eq_none hother] at hline
  have hfirst : Tells out paddrFront [.text (ascii "AN INTERRUPT HAS OCCURED"), .char 10] [] :=
    tells_text (by decide) (by decide)
  have hlast : Tells out paddrFront [.text (ascii "END OF HANDLING"), .char 10] [] :=
    tells_text (by decide) (by decide)
  exact (hfirst.append hcode).append hlast

theorem tells_faultLine (hmode : out.mode ≠ .bin) (cr2 : Word) :
    Tells out paddrFront [.text (ascii "faulting address: "), .word cr2, .char 10] [] :=
  tells_otherLine hmode (by decide) (show paddrFront.head? = some 112 from rfl)
    (show (ascii "faulting address: ").head? = some 102 from rfl) (by decide) cr2

theorem tells_pageFaultItems (hmode : out.mode ≠ .bin) (cr2 : Word) :
    Tells out paddrFront (Cpu.pageFaultItems cr2) [] := by
  have hbanner : Tells out paddrFront [.text (ascii "PAGEFAULTING"), .char 10] [] :=
    tells_text (by decide) (by decide)
  exact hbanner.append (tells_faultLine hmode cr2)

/-- What an end tells, with the handler: the address if the write was done. -/
theorem tells_end (hmode : out.mode ≠ .bin) {last : Search} {fault : Word × AccessFault}
    (hstep : limitStep hhdm cr3 protect paddr memory = last) (hfault : last.fault = some fault) :
    Tells out paddrFront last.printed [] ∨ Tells out paddrFront last.printed [paddr.toNat] := by
  rcases limitStep_cases hhdm cr3 protect paddr memory with
    ⟨fault, -, hlast⟩ | ⟨written, hwritten, ⟨fault, hrefused, hlast⟩ | ⟨location, -, hlast⟩⟩
  · left
    rw [← hstep, hlast]
    cases fault with
    | notCanonical => exact tells_generalItems out
    | notPresent => exact tells_pageFaultItems hmode _
    | protection => exact tells_pageFaultItems hmode _
  · right
    have hcanonical : Canonical (paddrToVaddr hhdm paddr) := by
      by_contra hnot
      rw [access, if_neg hnot] at hwritten
      cases hwritten
    have hprinted : last.printed =
        limitLine hhdm paddr ++ Cpu.pageFaultItems (paddrToVaddr hhdm paddr) := by
      rw [← hstep, hlast]
      cases fault with
      | notCanonical => exact absurd rfl (ne_notCanonical hcanonical hrefused)
      | notPresent => rfl
      | protection => rfl
    have hline : Tells out paddrFront
        (limitLine hhdm paddr ++ [.text (ascii "PAGEFAULTING"), .char 10]) [paddr.toNat] :=
      tells_limitLine hmode hhdm paddr
        (show out.write [.text (ascii "PAGEFAULTING"), .char 10] =
          .ok (ascii "PAGEFAULTING" ++ [13] ++ [10], out) from rfl) (by decide)
    rw [hprinted, Cpu.pageFaultItems, ← List.append_assoc]
    exact hline.append (tells_faultLine hmode _)
  · rw [← hstep, hlast] at hfault
    cases hfault

/-- The text lists the addresses in the order in which they were tried. -/
theorem LoopEnds.tells (hmode : out.mode ≠ .bin)
    (h : LoopEnds hhdm cr3 protect advance rounds start memory search) :
    ∃ tried, (tried = rounds ∨ tried = rounds + 1) ∧ Tells out paddrFront search.printed
      ((List.range tried).map fun round ↦ (roundAddress start advance round).toNat) := by
  induction h with
  | @here paddr memory last fault hstep hfault =>
    rcases tells_end hmode hstep hfault with hnone | hone
    · exact ⟨0, .inl rfl, hnone⟩
    · refine ⟨1, .inr rfl, ?_⟩
      rwa [List.range_one, List.map_singleton, roundAddress_zero]
  | @later paddr memory rounds first others hstep hnone hothers ih =>
    obtain ⟨tried, hcount, htells⟩ := ih
    refine ⟨tried + 1, hcount.imp (congrArg (· + 1)) (congrArg (· + 1)), ?_⟩
    have hfirst : Tells out paddrFront first.items [paddr.toNat] := by
      rcases limitStep_cases hhdm cr3 protect paddr memory with
        ⟨fault, -, hlast⟩ | ⟨written, -, ⟨fault, -, hlast⟩ | ⟨location, -, hlast⟩⟩
      · rw [← hstep, hlast] at hnone
        cases hnone
      · rw [← hstep, hlast] at hnone
        cases hnone
      · rw [← hstep, hlast]
        exact tells_round hmode hhdm paddr _
    have hall := hfirst.append htells
    rw [Search.printed, List.append_assoc]
    rw [List.range_succ_eq_map, List.map_cons, List.map_map, roundAddress_zero]
    simp only [Function.comp_def, roundAddress_succ]
    exact hall

/-! ## Tables that are left alone -/

/-- A loop has one end. -/
theorem LoopEnds.unique {rounds' : ℕ} {search' : Search}
    (h : LoopEnds hhdm cr3 protect advance rounds start memory search)
    (h' : LoopEnds hhdm cr3 protect advance rounds' start memory search') :
    rounds = rounds' ∧ search = search' := by
  induction h generalizing rounds' search' with
  | here hstep hfault =>
    cases h' with
    | here hstep' _ => exact ⟨rfl, hstep.symm.trans hstep'⟩
    | later hstep' hnone' _ =>
      rw [← hstep', hstep, hfault] at hnone'
      cases hnone'
  | later hstep hnone _ ih =>
    cases h' with
    | here hstep' hfault' =>
      rw [← hstep', hstep, hnone] at hfault'
      cases hfault'
    | later hstep' _ hothers' =>
      rw [← hstep', hstep] at hothers' ⊢
      obtain ⟨rfl, rfl⟩ := ih hothers'
      exact ⟨rfl, rfl⟩

/-- Writes that spare the entries that are read for an address leave its translation as it is. -/
theorem access_fillAt {write : Bool} {vaddr : Word} {locations : List Word} {written : Word → Prop}
    (hwritten : ∀ paddr ∈ locations, written paddr)
    (hspared : ∀ place ∈ walked memory vaddr 4 (pageFrame cr3), ∀ offset : Word, offset.toNat < 8 →
      ¬ written (place + offset)) :
    access (fillAt memory 67 locations) cr3 protect write vaddr =
      access memory cr3 protect write vaddr :=
  access_congr fun place hplace ↦ load64_congr fun offset hoffset ↦
    fillAt_of_not_mem fun hmem ↦ hspared place hplace offset hoffset (hwritten _ hmem)

/-- The tables allow the writes of the rounds, and none of these goes into an entry that is read for one
of the addresses up to that of the given round, which the tables refuse. -/
structure FirstRefused (memory : Memory) (cr3 : Word) (protect : Bool) (vaddrs : ℕ → Word) (rounds : ℕ)
    (fault : AccessFault) : Prop where
  allowed : ∀ round < rounds, ∃ paddr, access memory cr3 protect true (vaddrs round) = .ok paddr
  refused : access memory cr3 protect true (vaddrs rounds) = .error fault
  spared : ∀ round < rounds, ∀ other ≤ rounds,
    ∀ place ∈ walked memory (vaddrs other) 4 (pageFrame cr3), ∀ offset : Word, offset.toNat < 8 →
      access memory cr3 protect true (vaddrs round) ≠ .ok (place + offset)

/-- The memory with the letter at all addresses of the first rounds. -/
def lettered (memory : Memory) (cr3 : Word) (protect : Bool) (vaddrs : List Word) : Memory :=
  fillAt memory 67 (vaddrs.filterMap (physical memory cr3 protect))

/-- With the writes before it done, a loop goes on to the first round that the tables refuse. -/
theorem loopEnds_of_spared (written : Word → Prop) (before : List Word) {fault : AccessFault}
    (hbefore : ∀ paddr ∈ before.filterMap (physical memory cr3 protect), written paddr)
    (hallowed : ∀ round < rounds, ∃ paddr,
      access memory cr3 protect true (roundVaddr hhdm start advance round) = .ok paddr ∧ written paddr)
    (hrefused : access memory cr3 protect true (roundVaddr hhdm start advance rounds) = .error fault)
    (hspared : ∀ round ≤ rounds, ∀ place ∈
      walked memory (roundVaddr hhdm start advance round) 4 (pageFrame cr3),
      ∀ offset : Word, offset.toNat < 8 → ¬ written (place + offset)) :
    LoopEnds hhdm cr3 protect advance rounds start (lettered memory cr3 protect before)
      ⟨(List.range rounds).flatMap fun round ↦
          limitLine hhdm (roundAddress start advance round) ++ [.char 67, .char 10],
        lettered memory cr3 protect
          (before ++ (List.range rounds).map (roundVaddr hhdm start advance)),
        some (roundVaddr hhdm start advance rounds, fault)⟩ := by
  induction rounds generalizing start before with
  | zero =>
    have hhere := hspared 0 le_rfl
    rw [roundVaddr_zero] at hrefused hhere
    have hfault := (access_fillAt hbefore hhere).trans hrefused
    refine .here ?_ rfl
    simp only [limitStep, lettered, hfault, List.range_zero, List.flatMap_nil, List.map_nil,
      List.append_nil, roundVaddr_zero]
  | succ rounds ih =>
    obtain ⟨paddr, haccess, hpaddr⟩ := hallowed 0 (Nat.zero_lt_succ _)
    have hhere := hspared 0 (Nat.zero_le _)
    rw [roundVaddr_zero] at haccess hhere
    have hboth : ∀ other ∈ paddr :: before.filterMap (physical memory cr3 protect), written other :=
      List.forall_mem_cons.mpr ⟨hpaddr, hbefore⟩
    have hwrite := (access_fillAt hbefore hhere).trans haccess
    set locations := paddr :: before.filterMap (physical memory cr3 protect) with hlocations
    have hread := calc
      access (fillAt memory 67 locations) cr3 protect false (paddrToVaddr hhdm start)
          = access memory cr3 protect false (paddrToVaddr hhdm start) := access_fillAt hboth hhere
      _ = .ok paddr := access_read haccess
    have hletter : fillAt memory 67 locations paddr = 67 := fillAt_of_mem List.mem_cons_self
    have hstep : limitStep hhdm cr3 protect start (lettered memory cr3 protect before) =
        ⟨limitLine hhdm start ++ [.char 67, .char 10],
          lettered memory cr3 protect (before ++ [paddrToVaddr hhdm start]), none⟩ := by
      simp only [limitStep, lettered, hwrite, update_fillAt, ← hlocations, hread, hletter]
      rw [hlocations, fillAt_append haccess]
    have hphysical : physical memory cr3 protect (paddrToVaddr hhdm start) = some paddr := by
      rw [physical, haccess]
      rfl
    have hbefore' : ∀ other ∈ (before ++ [paddrToVaddr hhdm start]).filterMap
        (physical memory cr3 protect), written other := by
      intro other hother
      rw [List.filterMap_append, List.filterMap_cons_some hphysical, List.filterMap_nil,
        List.mem_append, List.mem_singleton] at hother
      rcases hother with hother | rfl
      · exact hbefore other hother
      · exact hpaddr
    rw [roundVaddr_succ] at hrefused
    have hothers := ih _ hbefore'
      (fun round hround ↦ roundVaddr_succ hhdm start advance round ▸
        hallowed (round + 1) (Nat.succ_lt_succ hround)) hrefused
      (fun round hround ↦ roundVaddr_succ hhdm start advance round ▸
        hspared (round + 1) (Nat.succ_le_succ hround))
    have hall := LoopEnds.later hstep rfl hothers
    rw [List.range_succ_eq_map, List.flatMap_cons, List.map_cons, List.flatMap_map, List.map_map,
      roundAddress_zero, roundVaddr_zero, roundVaddr_succ]
    simp only [Function.comp_def, roundAddress_succ, roundVaddr_succ]
    rw [List.append_cons before]
    exact hall

/-! ## The probes -/

/-- What comes of a probe, given its first rounds. It ends, and its text lists the addresses that it has
tried. The letter is all that it writes. Where it leaves the tables alone, it ends at the first address
that they refuse. -/
def ProbeEnds (hhdm cr3 : Word) (protect : Bool) (mode : Intmode) (advance start : Word)
    (memory : Memory) (out : Kostream) (probe : ℕ → Search) : Prop :=
  ∃ rounds < 2 ^ 64, ∃ search fault text tried,
    (∀ more, rounds < more → probe more = search) ∧
    search.fault = some (roundVaddr hhdm start advance rounds, fault) ∧
    (∀ location, search.memory location = memory location ∨ search.memory location = 67) ∧
    out.write search.printed = .ok (text, ⟨mode⟩) ∧ (tried = rounds ∨ tried = rounds + 1) ∧
    Kostream.reports ⟨mode⟩ paddrFront text =
      (List.range tried).map (fun round ↦ (roundAddress start advance round).toNat) ∧
    ∀ first refusal, FirstRefused memory cr3 protect (roundVaddr hhdm start advance) first refusal →
      rounds = first ∧ fault = refusal ∧ search.memory =
        lettered memory cr3 protect ((List.range first).map (roundVaddr hhdm start advance))

/-- The line with the entry tells no physical address. -/
theorem tells_entry (hmode : out.mode ≠ .bin) (entry : MemmapEntry) :
    Tells out paddrFront [.text (ascii "base: "), .word entry.base, .text (ascii ", length = "),
      .word entry.length, .char 10] [] :=
  tells_row (.cons (shows_text (by decide) (printsAs_word hmode entry.base)) <|
      .cons (shows_text (by decide) (printsAs_word hmode entry.length)) .nil)
    (List.forall_mem_cons.mpr ⟨show 10 ∉ ascii "base: " by decide,
      List.forall_mem_singleton.mpr (show 10 ∉ ascii ", length = " by decide)⟩)
    (show paddrFront.head? = some 112 from rfl)
    (show (ascii "base: ").head? = some 98 from rfl) (by decide)

/-- A loop that leaves the tables alone. -/
theorem LoopEnds.of_firstRefused {first : ℕ} {refusal : AccessFault}
    (h : LoopEnds hhdm cr3 protect advance rounds start memory search)
    (hfirst : FirstRefused memory cr3 protect (roundVaddr hhdm start advance) first refusal) :
    rounds = first ∧ search.fault = some (roundVaddr hhdm start advance first, refusal) ∧
      search.memory =
        lettered memory cr3 protect ((List.range first).map (roundVaddr hhdm start advance)) := by
  have hempty : lettered memory cr3 protect [] = memory := by
    funext location
    exact fillAt_of_not_mem List.not_mem_nil
  have hends := loopEnds_of_spared
    (fun paddr ↦ ∃ round < first,
      access memory cr3 protect true (roundVaddr hhdm start advance round) = .ok paddr)
    [] (List.forall_mem_nil _)
    (fun round hround ↦ by
      obtain ⟨paddr, haccess⟩ := hfirst.allowed round hround
      exact ⟨paddr, haccess, round, hround, haccess⟩)
    hfirst.refused
    (fun other hother place hplace offset hoffset ⟨round, hround, haccess⟩ ↦
      hfirst.spared round hround other hother place hplace offset hoffset haccess)
  rw [hempty] at hends
  obtain ⟨rfl, rfl⟩ := h.unique hends
  exact ⟨rfl, rfl, rfl⟩

/-- A probe in either direction. -/
theorem limitProbe_ends (hhdm cr3 : Word) (protect : Bool) {mode : Intmode} (hmode : mode ≠ .bin)
    (hadvance : advance * advance = 1) (start : MemmapEntry → Word) (entry : MemmapEntry)
    (memory : Memory) (out : Kostream) :
    ProbeEnds hhdm cr3 protect mode advance (start entry) memory out fun rounds ↦
      limitProbe hhdm cr3 protect mode advance start rounds entry memory := by
  obtain ⟨limit, hlimit, hrefused⟩ := exists_not_canonical hhdm (start entry) hadvance
  obtain ⟨rounds, hrounds, search, hends⟩ := exists_loopEnds memory cr3 protect hrefused
  obtain ⟨fault, hfault⟩ := hends.fault
  have hout : (⟨mode⟩ : Kostream).mode ≠ .bin := hmode
  obtain ⟨tried, hcount, htells⟩ := hends.tells hout
  obtain ⟨text, hwrite, hreports⟩ := (tells_entry hout entry).append htells
  refine ⟨rounds, hrounds.trans_lt hlimit, ⟨[.mode mode, .text (ascii "base: "), .word entry.base,
    .text (ascii ", length = "), .word entry.length, .char 10] ++ search.items, search.memory,
    search.fault⟩, fault, text, tried, fun more hmore ↦ ?_, hfault, hends.memory_or, ?_, hcount, ?_,
    fun first refusal hfirst ↦ ?_⟩
  · simp only [limitProbe, hends.limitLoop_eq hmore]
  · have hput : out.put (.mode mode) = .ok ([], ⟨mode⟩) := by
      cases mode <;> rfl
    rw [Search.printed, List.append_assoc]
    exact Kostream.write_cons hput hwrite
  · have hall := hreports []
    rw [List.append_nil] at hall
    exact hall.trans (List.append_nil _)
  · obtain ⟨hsame, hlast, hmemory⟩ := hends.of_firstRefused hfirst
    rw [hfault] at hlast
    exact ⟨hsame, (Prod.mk.inj (Option.some.inj hlast)).2, hmemory⟩

/-- An entry that ends behind the first page of the direct map. -/
def lastEntry : MemmapEntry := ⟨0, 0x1030, 0⟩

/-- The addresses of the first rounds. -/
def pageEnd (round : ℕ) : Word := roundVaddr 0xffff800000000000 (upperStart lastEntry) 1 round

theorem access_pageEnd {round : ℕ} (hround : round < 2) :
    access firstPage 0x1000 true true (pageEnd round) = .ok (0x5ffe + BitVec.ofNat 64 round) := by
  interval_cases round
  · decide +kernel
  · decide +kernel

theorem walked_pageEnd {round : ℕ} (hround : round ≤ 2) :
    walked firstPage (pageEnd round) 4 (pageFrame 0x1000) =
      [0x1800, 0x2000, 0x3000, if round = 2 then 0x4008 else 0x4000] := by
  interval_cases round
  · decide +kernel
  · decide +kernel
  · decide +kernel

theorem firstRefused_pageEnd : FirstRefused firstPage 0x1000 true pageEnd 2 .notPresent where
  allowed round hround := ⟨_, access_pageEnd hround⟩
  refused := by
    decide +kernel
  spared round hround other hother place hplace offset hoffset hsame := by
    have hlow : place.toNat < 0x5000 := by
      rw [walked_pageEnd hother] at hplace
      simp only [List.mem_cons, List.not_mem_nil, or_false] at hplace
      rcases hplace with rfl | rfl | rfl | rfl
      · decide
      · decide
      · decide
      · split <;> decide
    rw [access_pageEnd hround] at hsame
    have hvalue := congrArg BitVec.toNat (Except.ok.inj hsame)
    rw [BitVec.toNat_add, BitVec.toNat_add, BitVec.toNat_ofNat] at hvalue
    have hbase : (0x5ffe : Word).toNat = 0x5ffe := rfl
    omega

end PenelopeOS.Memory
