import PenelopeOS.Machine.PageTree

/-!
# Accesses through the page tables

The processor translates the address of every access, to a page or to a large page, and refuses a write
where one of the entries on the way does not allow it. A store leaves the translation of an address as it
is, unless it goes into an entry that is read for it.

This is a processor that walks the tables anew for every access: it keeps no translations of earlier
accesses, and it does not check reserved bits.
-/

namespace PenelopeOS.Machine

/-- Why an access is refused. -/
inductive AccessFault where
  | notCanonical
  | notPresent
  | protection
  deriving DecidableEq, Repr

instance (vaddr : Word) : Decidable (Canonical vaddr) := decidable_of_iff _ canonical_iff.symm

/-- Bit 1 of an entry allows writing. -/
def allowsWrite (entry : Word) : Bool := entry.getLsbD 1

/-- The part of an address below a bit. -/
def pageOffset (bit : ℕ) (vaddr : Word) : Word := vaddr &&& ((1 : Word) <<< bit - 1)

/-- The physical address, and whether every entry on the way allows writing. Reserved bits of large pages
are ignored. -/
def resolve (memory : Memory) (vaddr : Word) : ℕ → Word → Option (Word × Bool)
  | 0, page => some (page + pageOffset 12 vaddr, true)
  | level + 1, table =>
    let entry := load64 memory (entryAddress level table vaddr)
    if present entry = false then none
    else if largePage level entry = true then
      let bit := 12 + 9 * level
      some ((pageFrame entry >>> bit) <<< bit + pageOffset bit vaddr, allowsWrite entry)
    else (resolve memory vaddr level (pageFrame entry)).map fun resolved ↦
      (resolved.1, allowsWrite entry && resolved.2)

/-- The addresses of the entries that are read. -/
def walked (memory : Memory) (vaddr : Word) : ℕ → Word → List Word
  | 0, _ => []
  | level + 1, table =>
    let place := entryAddress level table vaddr
    let entry := load64 memory place
    place ::
      if present entry = false then []
      else if largePage level entry = true then []
      else walked memory vaddr level (pageFrame entry)

/-- The physical address of an access in ring zero. Writes obey the entries when `protect`, which is WP in
cr0, is set. -/
def access (memory : Memory) (cr3 : Word) (protect write : Bool) (vaddr : Word) :
    Except AccessFault Word :=
  if Canonical vaddr then
    match resolve memory vaddr 4 (pageFrame cr3) with
    | none => .error .notPresent
    | some (paddr, writable) => if write && protect && !writable then .error .protection else .ok paddr
  else .error .notCanonical

/-- A word is read. At a multiple of 8 it lies in one page. -/
def loadAt (memory : Memory) (cr3 vaddr : Word) : Except AccessFault Word :=
  (access memory cr3 false false vaddr).map (load64 memory)

/-- A word is written. -/
def storeAt (memory : Memory) (cr3 : Word) (protect : Bool) (vaddr value : Word) :
    Except AccessFault Memory :=
  (access memory cr3 protect true vaddr).map fun paddr ↦ store64 memory paddr value

/-- The entries of a table are read where they are. -/
structure Readable (memory : Memory) (cr3 table : Word) : Prop where
  aligned : 8 ∣ table.toNat
  access_eq : ∀ j < 512, access memory cr3 false false (table + 8 * BitVec.ofNat 64 j) =
    .ok (table + 8 * BitVec.ofNat 64 j)

variable {memory memory' : Memory} {cr3 vaddr table paddr place : Word} {level : ℕ}
  {protect : Bool} {value : BitVec 8}

/-- Only the entries that are read count. -/
theorem resolve_congr (h : ∀ place ∈ walked memory vaddr level table,
    load64 memory' place = load64 memory place) :
    resolve memory' vaddr level table = resolve memory vaddr level table := by
  induction level generalizing table with
  | zero => rfl
  | succ level ih =>
    simp only [walked, List.forall_mem_cons] at h
    obtain ⟨hentry, hbelow⟩ := h
    simp only [resolve, hentry]
    split_ifs with hpresent hlarge
    · rfl
    · rfl
    · rw [if_neg hpresent, if_neg hlarge] at hbelow
      rw [ih hbelow]

theorem access_congr {write : Bool} (h : ∀ place ∈ walked memory vaddr 4 (pageFrame cr3),
    load64 memory' place = load64 memory place) :
    access memory' cr3 protect write vaddr = access memory cr3 protect write vaddr := by
  rw [access, access, resolve_congr h]

/-- Where a write is allowed, a read is too. -/
theorem access_read (h : access memory cr3 protect true vaddr = .ok paddr) :
    access memory cr3 protect false vaddr = .ok paddr := by
  unfold access at h ⊢
  by_cases hcanonical : Canonical vaddr
  · rw [if_pos hcanonical] at h ⊢
    cases hresolve : resolve memory vaddr 4 (pageFrame cr3) with
    | none =>
      rw [hresolve] at h
      cases h
    | some resolved =>
      rw [hresolve] at h
      simp only [Bool.true_and, Bool.false_and, Bool.false_eq_true, if_false] at h ⊢
      split_ifs at h with hprotected
      · exact h
  · rw [if_neg hcanonical] at h
    cases h

/-- A 4 KiB page of the walk that only translates. -/
theorem resolve_of_translate {base : Word}
    (h : Machine.translate pageFrame memory vaddr level table = .page base) :
    ∃ writable, resolve memory vaddr level table = some (base + pageOffset 12 vaddr, writable) := by
  induction level generalizing table with
  | zero =>
    injection h with hpage
    exact ⟨true, by rw [resolve, hpage]⟩
  | succ level ih =>
    simp only [Machine.translate] at h
    split_ifs at h with hpresent hlarge
    obtain ⟨writable, hresolve⟩ := ih h
    refine ⟨allowsWrite (load64 memory (entryAddress level table vaddr)) && writable, ?_⟩
    simp only [resolve, if_neg hpresent, if_neg hlarge, hresolve, Option.map_some]

theorem access_of_translate {base : Word} {write : Bool} (hcanonical : Canonical vaddr)
    (h : Machine.translate pageFrame memory vaddr 4 (pageFrame cr3) = .page base)
    (hallowed : (write && protect) = false) :
    access memory cr3 protect write vaddr = .ok (base + pageOffset 12 vaddr) := by
  obtain ⟨writable, hresolve⟩ := resolve_of_translate h
  rw [access, if_pos hcanonical, hresolve]
  simp only [hallowed, Bool.false_and, Bool.false_eq_true, if_false]

theorem Readable.loadAt_eq {j : ℕ} (h : Readable memory cr3 table) (hj : j < 512) :
    loadAt memory cr3 (table + 8 * BitVec.ofNat 64 j) =
      .ok (load64 memory (table + 8 * BitVec.ofNat 64 j)) := by
  rw [loadAt, h.access_eq j hj]
  rfl

/-! ## Entries that are overwritten -/

/-- A byte stored at all of the locations. -/
def fillAt (memory : Memory) (value : BitVec 8) (locations : List Word) : Memory := fun location ↦
  if locations.contains location then value else memory location

variable {locations : List Word}

theorem fillAt_of_mem (h : paddr ∈ locations) : fillAt memory value locations paddr = value :=
  if_pos (List.contains_iff_mem.mpr h)

theorem fillAt_of_not_mem (h : paddr ∉ locations) :
    fillAt memory value locations paddr = memory paddr :=
  if_neg fun hcontains ↦ h (List.contains_iff_mem.mp hcontains)

theorem update_fillAt (memory : Memory) (value : BitVec 8) (paddr : Word) (locations : List Word) :
    Function.update (fillAt memory value locations) paddr value =
      fillAt memory value (paddr :: locations) := by
  funext location
  by_cases hsame : location = paddr
  · rw [hsame, Function.update_self, fillAt_of_mem List.mem_cons_self]
  · rw [Function.update_of_ne hsame]
    by_cases hmem : location ∈ locations
    · rw [fillAt_of_mem hmem, fillAt_of_mem (List.mem_cons_of_mem _ hmem)]
    · rw [fillAt_of_not_mem hmem, fillAt_of_not_mem (List.not_mem_cons_of_ne_of_not_mem hsame hmem)]

theorem load64_fillAt (memory : Memory) (value : BitVec 8) (hplace : 8 ∣ place.toNat)
    (hlocations : ∀ paddr ∈ locations, 8 ∣ paddr.toNat) (h : place ∉ locations) :
    load64 (fillAt memory value locations) place = load64 memory place := by
  refine load64_congr fun offset hoffset ↦ fillAt_of_not_mem fun hmem ↦ h ?_
  have hdvd := hlocations _ hmem
  have hzero : offset.toNat = 0 := by
    rw [BitVec.toNat_add] at hdvd
    omega
  obtain rfl : offset = 0 := BitVec.eq_of_toNat_eq hzero
  rwa [show place + 0 = place by ring] at hmem

/-- An entry whose first byte is overwritten is present or not as the byte has it. -/
theorem present_fillAt (h : place ∈ locations) :
    present (load64 (fillAt memory value locations) place) = value.getLsbD 0 := by
  have hfirst := getLsbD_load64 (fillAt memory value locations) place (show 0 < 8 by decide)
    (show 0 < 8 by decide)
  rw [show place + BitVec.ofNat 64 0 = place by simp] at hfirst
  rw [present]
  exact hfirst.trans (congrArg (BitVec.getLsbD · 0) (fillAt_of_mem h))

/-- An address is refused once an entry that is read for it is overwritten. -/
theorem resolve_damaged (hvalue : value.getLsbD 0 = false) (htable : 8 ∣ table.toNat)
    (hlocations : ∀ paddr ∈ locations, 8 ∣ paddr.toNat)
    (hdamaged : ∃ place ∈ walked memory vaddr level table, place ∈ locations) :
    resolve (fillAt memory value locations) vaddr level table = none := by
  induction level generalizing table with
  | zero =>
    obtain ⟨place, hplace, -⟩ := hdamaged
    cases hplace
  | succ level ih =>
    by_cases hmem : entryAddress level table vaddr ∈ locations
    · simp only [resolve, present_fillAt hmem, hvalue, if_true]
    · have hentry := load64_fillAt memory value (dvd_entryAddress htable level vaddr) hlocations hmem
      obtain ⟨place, hplace, hlocation⟩ := hdamaged
      simp only [walked, List.mem_cons] at hplace
      rcases hplace with rfl | hbelow
      · exact absurd hlocation hmem
      · simp only [resolve, hentry]
        split_ifs at hbelow ⊢ with hpresent hlarge
        · rfl
        · cases hbelow
        · rw [ih (dvd_pageFrame _) ⟨place, hbelow, hlocation⟩, Option.map_none]

theorem dvd_of_mem_walked (htable : 8 ∣ table.toNat) (h : place ∈ walked memory vaddr level table) :
    8 ∣ place.toNat := by
  induction level generalizing table with
  | zero => cases h
  | succ level ih =>
    simp only [walked, List.mem_cons] at h
    rcases h with rfl | hbelow
    · exact dvd_entryAddress htable level vaddr
    · split_ifs at hbelow
      · cases hbelow
      · cases hbelow
      · exact ih (dvd_pageFrame _) hbelow

theorem dvd_pageOffset (hvaddr : 8 ∣ vaddr.toNat) (bit : ℕ) : 8 ∣ (pageOffset bit vaddr).toNat := by
  rw [pageOffset, BitVec.and_comm]
  exact dvd_toNat_and _ (show 2 ^ 3 ∣ vaddr.toNat from hvaddr)

/-- The place of a word in its page is kept. -/
theorem dvd_of_resolve {writable : Bool} (hvaddr : 8 ∣ vaddr.toNat) (htable : 8 ∣ table.toNat)
    (h : resolve memory vaddr level table = some (paddr, writable)) : 8 ∣ paddr.toNat := by
  induction level generalizing table paddr writable with
  | zero =>
    obtain ⟨rfl, -⟩ := Prod.mk.inj (Option.some.inj h)
    have hoffset := dvd_pageOffset hvaddr 12
    rw [BitVec.toNat_add]
    omega
  | succ level ih =>
    simp only [resolve] at h
    split_ifs at h
    · obtain ⟨rfl, -⟩ := Prod.mk.inj (Option.some.inj h)
      generalize pageFrame _ >>> (12 + 9 * level) = frame
      have hoffset := dvd_pageOffset hvaddr (12 + 9 * level)
      have hshift : 8 ∣ frame.toNat <<< (12 + 9 * level) := by
        rw [Nat.shiftLeft_eq]
        exact ((Nat.pow_dvd_pow 2 (show 3 ≤ 12 + 9 * level by omega))).mul_left _
      rw [BitVec.toNat_add, BitVec.toNat_shiftLeft]
      omega
    · obtain ⟨resolved, hbelow, hpair⟩ := Option.map_eq_some_iff.mp h
      obtain ⟨rfl, -⟩ := Prod.mk.inj hpair
      exact ih (dvd_pageFrame _) hbelow

theorem dvd_of_access {write : Bool} (hvaddr : 8 ∣ vaddr.toNat)
    (h : access memory cr3 protect write vaddr = .ok paddr) : 8 ∣ paddr.toNat := by
  rw [access] at h
  split_ifs at h
  split at h
  · cases h
  · rename_i resolved writable hresolve
    split_ifs at h
    obtain rfl := Except.ok.inj h
    exact dvd_of_resolve hvaddr (dvd_pageFrame cr3) hresolve

section Fill

variable (protect write : Bool) (hlocations : ∀ paddr ∈ locations, 8 ∣ paddr.toNat)

include hlocations

theorem access_spared (value : BitVec 8)
    (h : ∀ place ∈ walked memory vaddr 4 (pageFrame cr3), place ∉ locations) :
    access (fillAt memory value locations) cr3 protect write vaddr =
      access memory cr3 protect write vaddr :=
  access_congr fun place hplace ↦
    load64_fillAt memory value (dvd_of_mem_walked (dvd_pageFrame cr3) hplace) hlocations (h place hplace)

theorem access_damaged (hvalue : value.getLsbD 0 = false) (hcanonical : Canonical vaddr)
    (h : ∃ place ∈ walked memory vaddr 4 (pageFrame cr3), place ∈ locations) :
    access (fillAt memory value locations) cr3 protect write vaddr = .error .notPresent := by
  rw [access, if_pos hcanonical, resolve_damaged hvalue (dvd_pageFrame cr3) hlocations h]

end Fill

/-! ## Writing to one address after the other -/

/-- Where an address is written to. -/
def physical (memory : Memory) (cr3 : Word) (protect : Bool) (vaddr : Word) : Option Word :=
  (access memory cr3 protect true vaddr).toOption

/-- The tables allow a write to the address, and neither this write nor those before it, each translated
by the tables as they are, go into an entry that is read for the address. -/
def Passes (memory : Memory) (cr3 : Word) (protect : Bool) (before : List Word) (vaddr : Word) : Prop :=
  ∃ paddr, access memory cr3 protect true vaddr = .ok paddr ∧
    ∀ place ∈ walked memory vaddr 4 (pageFrame cr3),
      place ∉ paddr :: before.filterMap (physical memory cr3 protect)

/-- Each of the addresses passes after those before it. -/
def AllPass (memory : Memory) (cr3 : Word) (protect : Bool) : List Word → List Word → Prop
  | _, [] => True
  | before, vaddr :: vaddrs =>
    Passes memory cr3 protect before vaddr ∧ AllPass memory cr3 protect (before ++ [vaddr]) vaddrs

variable {before : List Word}

theorem fillAt_append (h : access memory cr3 protect true vaddr = .ok paddr) :
    fillAt memory value (paddr :: before.filterMap (physical memory cr3 protect)) =
      fillAt memory value ((before ++ [vaddr]).filterMap (physical memory cr3 protect)) := by
  have hphysical : physical memory cr3 protect vaddr = some paddr := by
    rw [physical, h]
    rfl
  have hmem (location : Word) :
      location ∈ paddr :: before.filterMap (physical memory cr3 protect) ↔
        location ∈ (before ++ [vaddr]).filterMap (physical memory cr3 protect) := by
    rw [List.filterMap_append, List.filterMap_cons_some hphysical, List.filterMap_nil, List.mem_append,
      List.mem_singleton, List.mem_cons]
    exact or_comm
  funext location
  by_cases hlocation : location ∈ paddr :: before.filterMap (physical memory cr3 protect)
  · rw [fillAt_of_mem hlocation, fillAt_of_mem ((hmem location).mp hlocation)]
  · rw [fillAt_of_not_mem hlocation, fillAt_of_not_mem fun h ↦ hlocation ((hmem location).mpr h)]

theorem dvd_of_mem_physical (memory : Memory) (cr3 : Word) (protect : Bool)
    (hbefore : ∀ vaddr ∈ before, 8 ∣ vaddr.toNat) :
    ∀ paddr ∈ before.filterMap (physical memory cr3 protect), 8 ∣ paddr.toNat := by
  intro paddr hpaddr
  obtain ⟨vaddr, hvaddr, hphysical⟩ := List.mem_filterMap.mp hpaddr
  rw [physical] at hphysical
  cases haccess : access memory cr3 protect true vaddr with
  | error fault =>
    rw [haccess] at hphysical
    cases hphysical
  | ok written =>
    rw [haccess] at hphysical
    obtain rfl := Option.some.inj hphysical
    exact dvd_of_access (hbefore vaddr hvaddr) haccess

/-- Canonical addresses are refused for their entries. -/
theorem ne_notCanonical {write : Bool} {fault : AccessFault} (hcanonical : Canonical vaddr)
    (h : access memory cr3 protect write vaddr = .error fault) : fault ≠ .notCanonical := by
  rintro rfl
  rw [access, if_pos hcanonical] at h
  split at h
  · cases h
  · split_ifs at h
    cases h

end PenelopeOS.Machine
