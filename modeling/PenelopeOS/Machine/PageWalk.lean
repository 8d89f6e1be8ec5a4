import Mathlib.Tactic.SplitIfs
import PenelopeOS.Machine.ByteMemory

/-!
# The 4-level page walk

A linear address holds four table indices of nine bits above an offset of twelve. The processor reads
one entry in each table and takes the address of the next table from the entry, down to the entry that
refers to the page. Levels are numbered from 0 for the page table to 3 for the PML4.

Which bits of an entry are taken as an address is a parameter of the walk, so that software that walks
the tables by itself can be compared with the processor, which takes `pageFrame`.
-/

namespace PenelopeOS.Machine

/-- Bits 51:12, the address field of cr3 and of every entry. -/
def pageFrame (entry : Word) : Word := entry &&& 0x000ffffffffff000

def present (entry : Word) : Bool := entry.getLsbD 0

/-- Bit 7 of an entry in a page directory or in the table above it makes the entry a large page. -/
def largePage (level : ℕ) (entry : Word) : Bool := (level == 1 || level == 2) && entry.getLsbD 7

/-- The index of a linear address into the table of a level. -/
def tableIndex (level : ℕ) (vaddr : Word) : Word := (vaddr >>> (12 + 9 * level)) &&& 0x1ff

def entryAddress (level : ℕ) (table vaddr : Word) : Word := table + 8 * tableIndex level vaddr

/-- The addresses of the entries that are read below `table`, and what the last of them refers to, when
every entry is followed. -/
def descend (frame : Word → Word) (memory : Memory) (vaddr : Word) : ℕ → Word → List Word × Word
  | 0, table => ([], table)
  | level + 1, table =>
    let address := entryAddress level table vaddr
    let below := descend frame memory vaddr level (frame (load64 memory address))
    (address :: below.1, below.2)

inductive Translation where
  | notPresent (level : ℕ)
  | largePage (level : ℕ)
  | page (base : Word)
  deriving DecidableEq, Repr

/-- The walk of the processor, which stops at an entry that is not present and at a large page. -/
def translate (frame : Word → Word) (memory : Memory) (vaddr : Word) : ℕ → Word → Translation
  | 0, table => .page table
  | level + 1, table =>
    let entry := load64 memory (entryAddress level table vaddr)
    if present entry = false then .notPresent level
    else if largePage level entry = true then .largePage level
    else translate frame memory vaddr level (frame entry)

/-- The entries whose addresses are given, from the given number of levels downwards, are present, and
none of them is a large page. -/
def ReachesPage (memory : Memory) : ℕ → List Word → Prop
  | level + 1, address :: below =>
    present (load64 memory address) = true ∧ largePage level (load64 memory address) = false ∧
      ReachesPage memory level below
  | _, _ => True

variable {frame frame' : Word → Word} {memory : Memory} {vaddr table table' base : Word} {level : ℕ}

/-- Two ways of taking addresses descend alike exactly when they start at the same table and take the
same address from every entry on the way. -/
theorem descend_eq_iff :
    descend frame memory vaddr level table = descend frame' memory vaddr level table' ↔
      table = table' ∧ ∀ address ∈ (descend frame' memory vaddr level table').1,
        frame (load64 memory address) = frame' (load64 memory address) := by
  induction level generalizing table table' with
  | zero => simp [descend]
  | succ level ih =>
    have hentry : entryAddress level table vaddr = entryAddress level table' vaddr ↔ table = table' :=
      add_left_inj _
    simp only [descend, Prod.mk.injEq, List.cons.injEq, List.forall_mem_cons, hentry, and_assoc]
    refine and_congr_right fun htable ↦ ?_
    rw [htable, ← Prod.ext_iff, ih]

theorem descend_reads_succ (frame : Word → Word) (memory : Memory) (vaddr : Word) (level : ℕ)
    (table : Word) : (descend frame memory vaddr (level + 1) table).1 =
      entryAddress level table vaddr ::
        (descend frame memory vaddr level (frame (load64 memory (entryAddress level table vaddr)))).1 :=
  rfl

/-- They read the same entries exactly when they start at the same table and take the same address from
every entry but the last. -/
theorem descend_reads_eq_iff :
    (descend frame memory vaddr (level + 1) table).1 =
        (descend frame' memory vaddr (level + 1) table').1 ↔
      table = table' ∧ ∀ address ∈ (descend frame' memory vaddr (level + 1) table').1.dropLast,
        frame (load64 memory address) = frame' (load64 memory address) := by
  induction level generalizing table table' with
  | zero => simp [descend, entryAddress]
  | succ level ih =>
    have hentry : entryAddress (level + 1) table vaddr = entryAddress (level + 1) table' vaddr ↔
        table = table' := add_left_inj _
    have hne : (descend frame' memory vaddr (level + 1)
        (frame' (load64 memory (entryAddress (level + 1) table' vaddr)))).1 ≠ [] :=
      List.cons_ne_nil _ _
    rw [descend_reads_succ frame memory vaddr (level + 1),
      descend_reads_succ frame' memory vaddr (level + 1), List.cons.injEq, hentry,
      List.dropLast_cons_of_ne_nil hne, List.forall_mem_cons]
    refine and_congr_right fun htable ↦ ?_
    rw [htable, ih]

/-- The processor translates to a page exactly when the entries that it reads lead to one. -/
theorem translate_eq_page_iff :
    translate frame memory vaddr level table = .page base ↔
      ReachesPage memory level (descend frame memory vaddr level table).1 ∧
        (descend frame memory vaddr level table).2 = base := by
  induction level generalizing table with
  | zero => simp [translate, descend, ReachesPage]
  | succ level ih =>
    simp only [translate, descend, ReachesPage]
    split_ifs with hpresent hlarge
    · simp [hpresent]
    · simp [hlarge]
    · simp only [Bool.not_eq_false] at hpresent
      simp only [Bool.not_eq_true] at hlarge
      rw [ih, hpresent, hlarge]
      simp

/-! ## Fields of linear addresses -/

theorem toNat_tableIndex (level : ℕ) (vaddr : Word) :
    (tableIndex level vaddr).toNat = vaddr.toNat / 2 ^ (12 + 9 * level) % 2 ^ 9 := by
  rw [tableIndex, BitVec.toNat_and, BitVec.toNat_ushiftRight, Nat.shiftRight_eq_div_pow]
  exact Nat.and_two_pow_sub_one_eq_mod _ 9

/-- A field that is shifted in below a number becomes its last digit. -/
theorem toNat_shiftLeft_or {upper field : Word} {width : ℕ} (hfield : field.toNat < 2 ^ width)
    (hupper : upper.toNat * 2 ^ width < 2 ^ 64) :
    (upper <<< width ||| field).toNat = upper.toNat * 2 ^ width + field.toNat := by
  rw [BitVec.toNat_or, BitVec.toNat_shiftLeft, Nat.shiftLeft_eq, Nat.mod_eq_of_lt hupper,
    ← Nat.shiftLeft_eq, Nat.shiftLeft_add_eq_or_of_lt hfield]

/-- Bits 63:48 are copies of bit 47. -/
def Canonical (vaddr : Word) : Prop :=
  ∀ bit, 48 ≤ bit → bit < 64 → vaddr.getLsbD bit = vaddr.getLsbD 47

/-- A word whose bits are all alike is all zeros or all ones. -/
theorem eq_fill_iff {width : ℕ} {word : BitVec width} {sign : Bool} :
    (∀ bit < width, word.getLsbD bit = sign) ↔
      word = if sign then BitVec.allOnes width else 0 := by
  constructor
  · intro h
    apply BitVec.eq_of_getLsbD_eq
    intro bit hbit
    rw [h bit hbit]
    cases sign <;> simp [hbit]
  · rintro rfl bit hbit
    cases sign <;> simp [hbit]

theorem getLsbD_eq_decide (vaddr : Word) (bit : ℕ) :
    vaddr.getLsbD bit = decide (vaddr.toNat / 2 ^ bit % 2 = 1) :=
  Nat.testBit_eq_decide_div_mod_eq

/-- The canonical addresses are the lowest and the highest 2^47. -/
theorem canonical_iff : Canonical vaddr ↔ vaddr.toNat < 2 ^ 47 ∨ 2 ^ 64 - 2 ^ 47 ≤ vaddr.toNat := by
  have hbound := vaddr.isLt
  have htop : (vaddr.extractLsb' 47 17).toNat = vaddr.toNat / 2 ^ 47 := by
    rw [BitVec.extractLsb'_toNat, Nat.shiftRight_eq_div_pow]
    exact Nat.mod_eq_of_lt (by omega)
  have hbits (bit : ℕ) (hbit : bit < 17) :
      (vaddr.extractLsb' 47 17).getLsbD bit = vaddr.getLsbD (47 + bit) := by
    simp [hbit]
  have hcopies : Canonical vaddr ↔
      ∀ bit < 17, (vaddr.extractLsb' 47 17).getLsbD bit = vaddr.getLsbD 47 := by
    constructor
    · intro h bit hbit
      rw [hbits bit hbit]
      cases bit with
      | zero => rfl
      | succ bit => exact h _ (by omega) (by omega)
    · intro h bit hlow hhigh
      have hcopy := h (bit - 47) (by omega)
      rwa [hbits _ (by omega), Nat.add_sub_cancel' (by omega)] at hcopy
  have hsign := getLsbD_eq_decide vaddr 47
  rw [hcopies, eq_fill_iff, ← BitVec.toNat_inj, htop, hsign]
  by_cases hbit : vaddr.toNat / 2 ^ 47 % 2 = 1
  · rw [decide_eq_true hbit, if_pos rfl, BitVec.toNat_allOnes]
    omega
  · rw [decide_eq_false hbit, if_neg Bool.false_ne_true]
    change vaddr.toNat / 2 ^ 47 = 0 ↔ _
    omega

end PenelopeOS.Machine
