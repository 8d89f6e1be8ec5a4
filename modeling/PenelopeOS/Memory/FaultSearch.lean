import PenelopeOS.Cpu.ContextDump
import PenelopeOS.Machine.VirtualMemory
import PenelopeOS.Memory.LinearAddress

/-!
# The search for a faulting address

`FindFaultingLinear` writes to one page after the other until a write is refused, and the handler of page
faults prints the address. The pages can hold the tables of addresses that come later in the search: then
the write makes an entry of such a table absent, and the search ends at an address that was mapped before.
The processor is one that walks the tables anew on every access and checks no reserved bits.
-/

namespace PenelopeOS.Memory

open Console Foundation Machine

/-- The outcome of a search. A page fault leaves its address in cr2. -/
structure Search where
  items : List Item
  memory : Memory
  fault : Option (Word × AccessFault)

section Search

variable (cr3 : Word) (protect : Bool)

/-- The write to an address and the read behind it, with what they print. -/
def probe (vaddr : Word) (memory : Memory) : Search :=
  let announced : List Item := [.text (ascii "vaddr2 :: "), .word vaddr, .char 10]
  match access memory cr3 protect true vaddr with
  | .error fault => ⟨announced, memory, some (vaddr, fault)⟩
  | .ok paddr =>
    let memory := Function.update memory paddr 68
    match access memory cr3 protect false vaddr with
    | .error fault => ⟨announced ++ [.text (ascii "write successfully: ")], memory, some (vaddr, fault)⟩
    | .ok paddr =>
      ⟨announced ++ [.text (ascii "write successfully: "), .char (memory paddr), .char 10], memory, none⟩

/-- The loops of `FindFaultingLinear` over the given addresses -/
def probeAll : List Word → Memory → Search
  | [], memory => ⟨[], memory, none⟩
  | vaddr :: vaddrs, memory =>
    let first := probe cr3 protect vaddr memory
    match first.fault with
    | some fault => ⟨first.items, first.memory, some fault⟩
    | none =>
      let others := probeAll vaddrs first.memory
      ⟨first.items ++ others.items, others.memory, others.fault⟩

end Search

/-- The addresses of the loops in their order. -/
def searched : List Word :=
  (List.range 0x1fe).flatMap fun i ↦ (List.range 0x1fe).flatMap fun l ↦ (List.range 0x1fe).map fun j ↦
    formLinearAddress ⟨0x100, BitVec.ofNat 16 l, BitVec.ofNat 16 i, BitVec.ofNat 16 j, 0⟩

/-- `FindFaultingLinear` -/
def findFaultingLinear (cr3 : Word) (protect : Bool) (memory : Memory) : Search :=
  probeAll cr3 protect searched memory

/-- What is printed up to the end of the handler, if there is a fault. An address that is not canonical
raises a general protection fault. -/
def Search.printed (search : Search) : List Item :=
  search.items ++ match search.fault with
    | none => []
    | some (_, .notCanonical) => Cpu.generalItems 13
    | some (vaddr, .notPresent) | some (vaddr, .protection) => Cpu.pageFaultItems vaddr

variable {out : Kostream} {memory memory' : Memory} {cr3 vaddr : Word} {protect : Bool}
  {vaddrs before : List Word}

/-! ## Order -/

theorem mem_searched : vaddr ∈ searched ↔ ∃ pdpt < 0x1fe, ∃ pd < 0x1fe, ∃ pt < 0x1fe,
    vaddr =
      formLinearAddress ⟨0x100, BitVec.ofNat 16 pdpt, BitVec.ofNat 16 pd, BitVec.ofNat 16 pt, 0⟩ := by
  simp only [searched, List.mem_flatMap, List.mem_map, List.mem_range]
  constructor
  · rintro ⟨pd, hpd, pdpt, hpdpt, pt, hpt, rfl⟩
    exact ⟨pdpt, hpdpt, pd, hpd, pt, hpt, rfl⟩
  · rintro ⟨pdpt, hpdpt, pd, hpd, pt, hpt, rfl⟩
    exact ⟨pd, hpd, pdpt, hpdpt, pt, hpt, rfl⟩

theorem inRange_searched {pdpt pd pt : ℕ} (hpdpt : pdpt < 0x1fe) (hpd : pd < 0x1fe) (hpt : pt < 0x1fe) :
    PagingIndices.InRange
      ⟨0x100, BitVec.ofNat 16 pdpt, BitVec.ofNat 16 pd, BitVec.ofNat 16 pt, 0⟩ := by
  have hfits {index : ℕ} (hindex : index < 0x1fe) : (BitVec.ofNat 16 index).toNat < 512 := by
    rw [BitVec.toNat_ofNat]
    omega
  exact ⟨show (0x100 : BitVec 16).toNat < 512 by decide, hfits hpdpt, hfits hpd, hfits hpt,
    show (0 : BitVec 16).toNat < 4096 by decide⟩

theorem canonical_of_mem_searched (h : vaddr ∈ searched) : Canonical vaddr := by
  obtain ⟨pdpt, hpdpt, pd, hpd, pt, hpt, rfl⟩ := mem_searched.mp h
  exact (canonical_formLinearAddress_iff (inRange_searched hpdpt hpd hpt)).mpr
    (show 256 ≤ (0x100 : BitVec 16).toNat by decide)

theorem dvd_of_mem_searched (h : vaddr ∈ searched) : 8 ∣ vaddr.toNat := by
  obtain ⟨pdpt, -, pd, -, pt, -, rfl⟩ := mem_searched.mp h
  rw [toNat_formLinearAddress, show (0 : BitVec 16).toNat = 0 from rfl]
  omega

/-! ## Probes -/

def announcement (vaddr : Word) : List Item := [.text (ascii "vaddr2 :: "), .word vaddr, .char 10]

def success : List Item := [.text (ascii "write successfully: "), .char 68, .char 10]

/-- How a search goes on from an address that does not pass. -/
inductive Stops (memory : Memory) (cr3 : Word) (protect : Bool) (before : List Word) (vaddr : Word) :
    Search → Prop where
  | writing {fault : AccessFault} : fault ≠ .notCanonical → Stops memory cr3 protect before vaddr
      ⟨announcement vaddr, fillAt memory 68 (before.filterMap (physical memory cr3 protect)),
        some (vaddr, fault)⟩
  | reading {fault : AccessFault} : fault ≠ .notCanonical → Stops memory cr3 protect before vaddr
      ⟨announcement vaddr ++ [.text (ascii "write successfully: ")],
        fillAt memory 68 ((before ++ [vaddr]).filterMap (physical memory cr3 protect)),
        some (vaddr, fault)⟩

/-- One probe, after the writes to others. -/
theorem probe_outcome (memory : Memory) (cr3 : Word) (protect : Bool) (hcanonical : Canonical vaddr)
    (hvaddr : 8 ∣ vaddr.toNat) (hbefore : ∀ vaddr ∈ before, 8 ∣ vaddr.toNat) :
    let result := probe cr3 protect vaddr
      (fillAt memory 68 (before.filterMap (physical memory cr3 protect)))
    (Passes memory cr3 protect before vaddr ∧ result = ⟨announcement vaddr ++ success,
        fillAt memory 68 ((before ++ [vaddr]).filterMap (physical memory cr3 protect)), none⟩) ∨
      (¬ Passes memory cr3 protect before vaddr ∧ Stops memory cr3 protect before vaddr result) := by
  intro result
  have hlocations := dvd_of_mem_physical memory cr3 protect hbefore
  have hvalue : (68 : BitVec 8).getLsbD 0 = false := rfl
  by_cases hdamaged : ∃ place ∈ walked memory vaddr 4 (pageFrame cr3),
      place ∈ before.filterMap (physical memory cr3 protect)
  · refine .inr ⟨?_, ?_⟩
    · rintro ⟨paddr, -, hspared⟩
      obtain ⟨place, hplace, hlocation⟩ := hdamaged
      exact hspared place hplace (List.mem_cons_of_mem _ hlocation)
    · have hrefused := access_damaged protect true hlocations hvalue hcanonical hdamaged
      change Stops memory cr3 protect before vaddr (probe cr3 protect vaddr _)
      simp only [probe, hrefused]
      exact .writing (by decide)
  · have hspared : ∀ place ∈ walked memory vaddr 4 (pageFrame cr3),
        place ∉ before.filterMap (physical memory cr3 protect) :=
      fun place hplace hlocation ↦ hdamaged ⟨place, hplace, hlocation⟩
    have hsame := access_spared protect true hlocations 68 hspared
    cases haccess : access memory cr3 protect true vaddr with
    | error fault =>
      refine .inr ⟨?_, ?_⟩
      · rintro ⟨paddr, hallowed, -⟩
        cases haccess.symm.trans hallowed
      · change Stops memory cr3 protect before vaddr (probe cr3 protect vaddr _)
        simp only [probe, hsame, haccess]
        exact .writing (ne_notCanonical hcanonical haccess)
    | ok paddr =>
      have hboth : ∀ other ∈ paddr :: before.filterMap (physical memory cr3 protect), 8 ∣ other.toNat :=
        List.forall_mem_cons.mpr ⟨dvd_of_access hvaddr haccess, hlocations⟩
      by_cases hself : paddr ∈ walked memory vaddr 4 (pageFrame cr3)
      · refine .inr ⟨?_, ?_⟩
        · rintro ⟨other, hallowed, hall⟩
          obtain rfl := Except.ok.inj (haccess.symm.trans hallowed)
          exact hall paddr hself List.mem_cons_self
        · have hrefused := access_damaged protect false hboth hvalue hcanonical
            ⟨paddr, hself, List.mem_cons_self⟩
          change Stops memory cr3 protect before vaddr (probe cr3 protect vaddr _)
          simp only [probe, hsame, haccess, update_fillAt, hrefused]
          rw [fillAt_append haccess]
          exact .reading (by decide)
      · have hall : ∀ place ∈ walked memory vaddr 4 (pageFrame cr3),
            place ∉ paddr :: before.filterMap (physical memory cr3 protect) := by
          intro place hplace hmem
          rcases List.mem_cons.mp hmem with rfl | hlocation
          · exact hself hplace
          · exact hspared place hplace hlocation
        have hread := (access_spared protect false hboth 68 hall).trans (access_read haccess)
        have hstored :
            fillAt memory 68 (paddr :: before.filterMap (physical memory cr3 protect)) paddr = 68 :=
          fillAt_of_mem List.mem_cons_self
        refine .inl ⟨⟨paddr, haccess, hall⟩, ?_⟩
        change probe cr3 protect vaddr _ = _
        simp only [probe, hsame, haccess, update_fillAt, hread, hstored]
        rw [fillAt_append haccess]
        rfl

/-- A search ends behind all addresses if they pass, or else at the first that does not pass. -/
theorem probeAll_outcome (memory : Memory) (cr3 : Word) (protect : Bool)
    (hcanonical : ∀ vaddr ∈ vaddrs, Canonical vaddr) (hvaddrs : ∀ vaddr ∈ vaddrs, 8 ∣ vaddr.toNat)
    (hbefore : ∀ vaddr ∈ before, 8 ∣ vaddr.toNat) :
    let result := probeAll cr3 protect vaddrs
      (fillAt memory 68 (before.filterMap (physical memory cr3 protect)))
    (AllPass memory cr3 protect before vaddrs ∧
        result = ⟨vaddrs.flatMap fun vaddr ↦ announcement vaddr ++ success,
          fillAt memory 68 ((before ++ vaddrs).filterMap (physical memory cr3 protect)), none⟩) ∨
      ∃ passed vaddr after last, vaddrs = passed ++ vaddr :: after ∧
        AllPass memory cr3 protect before passed ∧ ¬ Passes memory cr3 protect (before ++ passed) vaddr ∧
        Stops memory cr3 protect (before ++ passed) vaddr last ∧
        result = ⟨(passed.flatMap fun vaddr ↦ announcement vaddr ++ success) ++ last.items, last.memory,
          last.fault⟩ := by
  induction vaddrs generalizing before with
  | nil =>
    refine .inl ⟨trivial, ?_⟩
    rw [List.append_nil]
    rfl
  | cons vaddr vaddrs ih =>
    obtain ⟨hfirst, hrest⟩ := List.forall_mem_cons.mp hcanonical
    obtain ⟨hdvd, hdvds⟩ := List.forall_mem_cons.mp hvaddrs
    have hbefore' : ∀ other ∈ before ++ [vaddr], 8 ∣ other.toNat := by
      intro other hother
      rcases List.mem_append.mp hother with hother | hother
      · exact hbefore other hother
      · rwa [List.mem_singleton.mp hother]
    rcases probe_outcome memory cr3 protect hfirst hdvd hbefore with
      ⟨hpasses, hprobe⟩ | ⟨hfails, hstops⟩
    · rcases ih hrest hdvds hbefore' with ⟨hall, hresult⟩ |
        ⟨passed, other, after, last, rfl, hall, hfails, hstops, hresult⟩
      · refine .inl ⟨⟨hpasses, hall⟩, ?_⟩
        rw [probeAll, hprobe]
        simp only [hresult, List.append_assoc, List.singleton_append, List.flatMap_cons]
      · rw [List.append_assoc, List.singleton_append] at hfails hstops
        refine .inr ⟨vaddr :: passed, other, after, last, rfl, ⟨hpasses, hall⟩, hfails, hstops, ?_⟩
        rw [probeAll, hprobe]
        simp only [hresult, List.append_assoc, List.flatMap_cons]
    · have hfails' : ¬ Passes memory cr3 protect (before ++ []) vaddr := by rwa [List.append_nil]
      have hstops' : Stops memory cr3 protect (before ++ []) vaddr (probe cr3 protect vaddr
          (fillAt memory 68 (before.filterMap (physical memory cr3 protect)))) := by
        rwa [List.append_nil]
      refine .inr ⟨[], vaddr, vaddrs, _, rfl, trivial, hfails', hstops', ?_⟩
      rw [probeAll]
      revert hstops
      generalize probe cr3 protect vaddr _ = last
      rintro (_ | _) <;> rfl

/-! ## Texts -/

/-- The lines with the addresses that were tried, and those with the faulting one. -/
def vaddrFront : List (BitVec 8) := ascii "vaddr2 :: "

def faultFront : List (BitVec 8) := ascii "faulting address: "

/-- The search ends behind all addresses, which pass, or at the first that does not pass. The addresses
that are tried are printed, and so is the last of them when it faults. -/
def Finds (out : Kostream) (memory : Memory) (cr3 : Word) (protect : Bool) (vaddrs : List Word)
    (search : Search) : Prop :=
  ∃ text, out.write search.printed = .ok (text, out) ∧
    match search.fault with
    | none =>
      AllPass memory cr3 protect [] vaddrs ∧
        search.memory = fillAt memory 68 (vaddrs.filterMap (physical memory cr3 protect)) ∧
        out.reports vaddrFront text = vaddrs.map BitVec.toNat ∧ out.reports faultFront text = []
    | some (vaddr, _) => ∃ passed after written, vaddrs = passed ++ vaddr :: after ∧
        AllPass memory cr3 protect [] passed ∧ ¬ Passes memory cr3 protect passed vaddr ∧
        (written = passed ∨ written = passed ++ [vaddr]) ∧
        search.memory = fillAt memory 68 (written.filterMap (physical memory cr3 protect)) ∧
        out.reports vaddrFront text = (passed ++ [vaddr]).map BitVec.toNat ∧
        out.reports faultFront text = [vaddr.toNat]

/-- The line of a word tells nothing to those who look for another front. -/
theorem tells_otherLine (hmode : out.mode ≠ .bin) {front label : List (BitVec 8)}
    {first other : BitVec 8} (hlabel : 10 ∉ label) (hfront : front.head? = some first)
    (hother : label.head? = some other) (hne : first ≠ other) (value : Word) :
    Tells out front [.text label, .word value, .char 10] [] :=
  tells_row (.cons (shows_text hlabel (printsAs_word hmode value)) .nil)
    (List.forall_mem_singleton.mpr hlabel) hfront
    (show _ = some other by rw [List.head?_cons, Option.bind_some, hother]) hne

section Front

variable {front : List (BitVec 8)} {told told' : Word → List ℕ}
  (hsuccess : ¬ front <+: ascii "write successfully: D" ++ [13])
  (hbroken : ¬ front <+: ascii "write successfully: PAGEFAULTING" ++ [13])
  (hbanner : ¬ front <+: ascii "PAGEFAULTING" ++ [13])
  (hline : ∀ vaddr, Tells out front (announcement vaddr) (told vaddr))
  (hhandler : ∀ cr2,
    Tells out front [.text (ascii "faulting address: "), .word cr2, .char 10] (told' cr2))

include hsuccess hline in
theorem tells_passed (vaddrs : List Word) :
    Tells out front (vaddrs.flatMap fun vaddr ↦ announcement vaddr ++ success) (vaddrs.flatMap told) := by
  refine tells_flatMap fun vaddr _ ↦ ?_
  have hwrite : out.write success = .ok (ascii "write successfully: D" ++ [13] ++ [10], out) := rfl
  have hboth := (hline vaddr).append (tells_line hwrite (by decide) front)
  rwa [reportOf_eq_none hsuccess, Option.toList_none, List.append_nil] at hboth

include hbroken hbanner hline hhandler in
/-- The last lines of a search, with those of the handler. The line that a refused read has begun is
ended by the handler. -/
theorem tells_stops {last : Search} (h : Stops memory cr3 protect before vaddr last) :
    Tells out front last.printed (told vaddr ++ told' vaddr) := by
  have hprinted {fault : AccessFault} (hfault : fault ≠ .notCanonical) (items : List Item)
      (memory : Memory) : Search.printed ⟨items, memory, some (vaddr, fault)⟩ =
        items ++ Cpu.pageFaultItems vaddr := by
    cases fault with
    | notCanonical => exact absurd rfl hfault
    | notPresent => rfl
    | protection => rfl
  cases h with
  | writing hfault =>
    rw [hprinted hfault]
    have hall := (hline vaddr).append ((tells_text (by decide) hbanner).append (hhandler vaddr))
    rwa [List.nil_append] at hall
  | reading hfault =>
    have hwrite : out.write ([.text (ascii "write successfully: ")] ++
        [.text (ascii "PAGEFAULTING"), .char 10]) =
        .ok (ascii "write successfully: PAGEFAULTING" ++ [13] ++ [10], out) := rfl
    have hmiddle := tells_line hwrite (by decide) front
    rw [reportOf_eq_none hbroken, Option.toList_none] at hmiddle
    have hall := (hline vaddr).append (hmiddle.append (hhandler vaddr))
    rw [List.nil_append] at hall
    rw [hprinted hfault, Cpu.pageFaultItems, List.append_assoc]
    rwa [List.append_assoc] at hall

end Front

section Mode

variable (hmode : out.mode ≠ .bin)

include hmode

/-- What is printed when all addresses pass. -/
theorem write_passed (vaddrs : List Word) (memory : Memory) :
    ∃ text, out.write (Search.printed
        ⟨vaddrs.flatMap fun vaddr ↦ announcement vaddr ++ success, memory, none⟩) = .ok (text, out) ∧
      out.reports vaddrFront text = vaddrs.map BitVec.toNat ∧ out.reports faultFront text = [] := by
  obtain ⟨text, hwrite, htried⟩ := tells_passed (show ¬ vaddrFront <+: _ by decide)
    (fun vaddr ↦ tells_report (by decide) (printsAs_word hmode vaddr)) vaddrs
  obtain ⟨text', hwrite', hfaulting⟩ := tells_passed (show ¬ faultFront <+: _ by decide)
    (fun vaddr ↦ tells_otherLine hmode (by decide) rfl rfl (by decide) vaddr) vaddrs
  obtain rfl : text = text' := (Prod.mk.inj (Except.ok.inj (hwrite.symm.trans hwrite'))).1
  refine ⟨text, ?_, ?_, ?_⟩
  · rwa [Search.printed, List.append_nil]
  · have hall := htried []
    rw [List.append_nil] at hall
    rw [List.map_eq_flatMap, hall]
    exact List.append_nil _
  · have hall := hfaulting []
    rw [List.append_nil, List.flatMap_eq_nil_iff.mpr fun _ _ ↦ rfl] at hall
    exact hall

/-- What is printed when an address does not pass. -/
theorem write_stops {last : Search} (h : Stops memory cr3 protect before vaddr last)
    (passed : List Word) :
    ∃ text, out.write (Search.printed
        ⟨(passed.flatMap fun vaddr ↦ announcement vaddr ++ success) ++ last.items, last.memory,
          last.fault⟩) = .ok (text, out) ∧
      out.reports vaddrFront text = (passed ++ [vaddr]).map BitVec.toNat ∧
      out.reports faultFront text = [vaddr.toNat] := by
  have hreport (label : List (BitVec 8)) (hlabel : 10 ∉ label) (value : Word) :
      Tells out label [.text label, .word value, .char 10] [value.toNat] :=
    tells_report hlabel (printsAs_word hmode value)
  have hvaddr := hreport vaddrFront (by decide)
  have hfault := hreport faultFront (by decide)
  have hnoVaddr (value : Word) : Tells out faultFront (announcement value) [] :=
    tells_otherLine hmode (by decide) rfl rfl (by decide) value
  have hnoFault (value : Word) :
      Tells out vaddrFront [.text (ascii "faulting address: "), .word value, .char 10] [] :=
    tells_otherLine hmode (by decide) rfl rfl (by decide) value
  obtain ⟨text, hwrite, htried⟩ := (tells_passed (by decide) hvaddr passed).append
    (tells_stops (by decide) (by decide) hvaddr hnoFault h)
  obtain ⟨text', hwrite', hfaulting⟩ := (tells_passed (by decide) hnoVaddr passed).append
    (tells_stops (by decide) (by decide) hnoVaddr hfault h)
  obtain rfl : text = text' := (Prod.mk.inj (Except.ok.inj (hwrite.symm.trans hwrite'))).1
  refine ⟨text, ?_, ?_, ?_⟩
  · rw [Search.printed, List.append_assoc]
    exact hwrite
  · have hall := htried []
    rw [List.append_nil] at hall
    rw [List.map_append, List.map_eq_flatMap, hall]
    exact List.append_nil _
  · have hall := hfaulting []
    rw [List.append_nil, List.flatMap_eq_nil_iff.mpr fun _ _ ↦ rfl] at hall
    exact hall

/-- What a search finds and prints. -/
theorem probeAll_finds (memory : Memory) (cr3 : Word) (protect : Bool)
    (hcanonical : ∀ vaddr ∈ vaddrs, Canonical vaddr) (hvaddrs : ∀ vaddr ∈ vaddrs, 8 ∣ vaddr.toNat) :
    Finds out memory cr3 protect vaddrs (probeAll cr3 protect vaddrs memory) := by
  have hempty : fillAt memory 68 (List.filterMap (physical memory cr3 protect) []) = memory := by
    funext location
    exact fillAt_of_not_mem List.not_mem_nil
  have houtcome := probeAll_outcome memory cr3 protect hcanonical hvaddrs (List.forall_mem_nil _)
  rw [hempty] at houtcome
  rcases houtcome with ⟨hall, hresult⟩ |
    ⟨passed, vaddr, after, last, hsplit, hall, hfails, hstops, hresult⟩
  · obtain ⟨text, hwrite, htried, hfaulting⟩ := write_passed hmode vaddrs
      (fillAt memory 68 (([] ++ vaddrs).filterMap (physical memory cr3 protect)))
    rw [hresult]
    exact ⟨text, hwrite, hall, rfl, htried, hfaulting⟩
  · obtain ⟨text, hwrite, htried, hfaulting⟩ := write_stops hmode hstops passed
    rw [hresult]
    refine ⟨text, hwrite, ?_⟩
    cases hstops with
    | writing => exact ⟨passed, after, passed, hsplit, hall, hfails, .inl rfl, rfl, htried, hfaulting⟩
    | reading =>
      exact ⟨passed, after, passed ++ [vaddr], hsplit, hall, hfails, .inr rfl, rfl, htried, hfaulting⟩

end Mode

/-- Tables that map the first address of the search to a writable page, and no other. -/
def firstPage : Memory :=
  store64 (store64 (store64 (store64 (fun _ ↦ 0) 0x1800 0x2003) 0x2000 0x3003) 0x3000 0x4003) 0x4000
    0x5003

theorem searched_eq : ∃ vaddrs, searched = 0xffff800000000000 :: 0xffff800000001000 :: vaddrs := by
  obtain ⟨tail, htail⟩ : ∃ tail, List.range 0x1fe = 0 :: 1 :: tail :=
    ⟨_, by rw [List.range_succ_eq_map, List.range_succ_eq_map, List.map_cons]⟩
  have hfirst : formLinearAddress
      ⟨0x100, BitVec.ofNat 16 0, BitVec.ofNat 16 0, BitVec.ofNat 16 0, 0⟩ = 0xffff800000000000 := by
    decide +kernel
  have hsecond : formLinearAddress
      ⟨0x100, BitVec.ofNat 16 0, BitVec.ofNat 16 0, BitVec.ofNat 16 1, 0⟩ = 0xffff800000001000 := by
    decide +kernel
  rw [searched, htail]
  simp only [List.flatMap_cons, List.map_cons, List.cons_append, hfirst, hsecond]
  exact ⟨_, rfl⟩

end PenelopeOS.Memory
