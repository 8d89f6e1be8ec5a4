import Mathlib.Data.List.Range
import PenelopeOS.Machine.BitField
import PenelopeOS.Machine.PageWalk

/-!
# The pages below a table

A table of the page tree is read as the pages that its present entries lead to, in the order of the
entries. The same pages are found when every page address is walked by itself.
-/

namespace PenelopeOS.Machine

variable (frame : Word → Word) (memory : Memory)

/-- The pages that the present entries below a table lead to, which is the given number of levels above
the pages. -/
def pagesBelow : ℕ → Word → List Word
  | 0, table => [table]
  | level + 1, table => (List.range 512).flatMap fun j ↦
      let entry := load64 memory (table + 8 * BitVec.ofNat 64 j)
      if present entry then pagesBelow level (frame entry) else []

/-- The page of an address, when every entry on the way is present. -/
def presentPage (level : ℕ) (table vaddr : Word) : Option Word :=
  let walk := descend frame memory vaddr level table
  if walk.1.all fun address ↦ present (load64 memory address) then some walk.2 else none

variable {frame memory} {level : ℕ} {table vaddr vaddr' : Word}

/-- Only the indices into the tables that are walked count. -/
theorem descend_congr (h : ∀ other < level, tableIndex other vaddr = tableIndex other vaddr') :
    descend frame memory vaddr level table = descend frame memory vaddr' level table := by
  induction level generalizing table with
  | zero => rfl
  | succ level ih =>
    have hentry : entryAddress level table vaddr = entryAddress level table vaddr' := by
      rw [entryAddress, entryAddress, h level (Nat.lt_succ_self level)]
    simp only [descend, hentry, ih fun other hother ↦ h other (Nat.lt_succ_of_lt hother)]

/-- Only the entries that are read count. -/
theorem descend_congr_memory {memory' : Memory}
    (h : ∀ entry ∈ (descend frame memory vaddr level table).1,
      load64 memory' entry = load64 memory entry) :
    descend frame memory' vaddr level table = descend frame memory vaddr level table := by
  induction level generalizing table with
  | zero => rfl
  | succ level ih =>
    simp only [descend, List.forall_mem_cons] at h ⊢
    rw [h.1, ih h.2]

theorem translate_congr_memory {memory' : Memory}
    (h : ∀ entry ∈ (descend frame memory vaddr level table).1,
      load64 memory' entry = load64 memory entry) :
    translate frame memory' vaddr level table = translate frame memory vaddr level table := by
  induction level generalizing table with
  | zero => rfl
  | succ level ih =>
    simp only [descend, List.forall_mem_cons] at h
    simp only [Machine.translate, h.1, ih h.2]

theorem dvd_pageFrame (entry : Word) : 8 ∣ (pageFrame entry).toNat :=
  dvd_toNat_and entry (show 2 ^ 3 ∣ (0x000ffffffffff000 : Word).toNat by decide)

/-- The entries of aligned tables are aligned. -/
theorem dvd_entryAddress (htable : 8 ∣ table.toNat) (level : ℕ) (vaddr : Word) :
    8 ∣ (entryAddress level table vaddr).toNat := by
  have hplace : (8 * tableIndex level vaddr).toNat % 8 = 0 := by
    rw [BitVec.toNat_mul]
    change 8 * (tableIndex level vaddr).toNat % 2 ^ 64 % 8 = 0
    omega
  rw [entryAddress, BitVec.toNat_add]
  omega

theorem dvd_of_mem_descend (hframe : ∀ entry, 8 ∣ (frame entry).toNat) (htable : 8 ∣ table.toNat)
    {entry : Word} (hentry : entry ∈ (descend frame memory vaddr level table).1) : 8 ∣ entry.toNat := by
  induction level generalizing table with
  | zero => cases hentry
  | succ level ih =>
    rcases List.mem_cons.mp hentry with rfl | hbelow
    · exact dvd_entryAddress htable level vaddr
    · exact ih (hframe _) hbelow

theorem presentPage_zero : presentPage frame memory 0 table vaddr = some table := by
  simp [presentPage, descend]

theorem presentPage_succ : presentPage frame memory (level + 1) table vaddr =
    let entry := load64 memory (entryAddress level table vaddr)
    if present entry then presentPage frame memory level (frame entry) vaddr else none := by
  simp only [presentPage, descend]
  by_cases hpresent : present (load64 memory (entryAddress level table vaddr)) = true
  · simp [hpresent]
  · simp [hpresent]

/-- A range of the length of a product, taken in rows. -/
theorem filterMap_range_mul {β : Type*} (f : ℕ → Option β) (rows columns : ℕ) :
    (List.range (rows * columns)).filterMap f = (List.range rows).flatMap fun row ↦
      (List.range columns).filterMap fun column ↦ f (row * columns + column) := by
  induction rows with
  | zero => simp
  | succ rows ih =>
    rw [Nat.succ_mul, List.range_add, List.filterMap_append, ih, List.range_succ,
      List.flatMap_append, List.flatMap_singleton, List.filterMap_map]
    rfl

/-- The address of a page of the four levels, by its number. The bits above the indices are copies of
the highest one. -/
def pageVaddr (page : ℕ) : Word := (BitVec.ofNat 48 (4096 * page)).signExtend 64

theorem toNat_pageVaddr_mod (page : ℕ) : (pageVaddr page).toNat % 2 ^ 48 = 4096 * page % 2 ^ 48 := by
  have hlow : (pageVaddr page).setWidth 48 = BitVec.ofNat 48 (4096 * page) := by
    apply BitVec.eq_of_getLsbD_eq
    intro bit hbit
    rw [BitVec.getLsbD_setWidth, pageVaddr, BitVec.getLsbD_signExtend, if_pos hbit]
    simp [hbit, show bit < 64 by omega]
  have htoNat := congrArg BitVec.toNat hlow
  rwa [BitVec.toNat_setWidth, BitVec.toNat_ofNat] at htoNat

/-- The indices of a page address are the digits of the number of the page. -/
theorem toNat_tableIndex_pageVaddr (hlevel : level < 4) (page : ℕ) :
    (tableIndex level (pageVaddr page)).toNat = page / 512 ^ level % 512 := by
  have hmod := toNat_pageVaddr_mod page
  rw [toNat_tableIndex]
  have hcases : level = 0 ∨ level = 1 ∨ level = 2 ∨ level = 3 := by omega
  rcases hcases with rfl | rfl | rfl | rfl <;> omega

section Row

variable {j page : ℕ} (hlevel : level < 4) (hj : j < 512) (hpage : page < 512 ^ level)

include hlevel hj hpage

/-- The addresses below an entry of a table are those of a row of pages. -/
theorem entryAddress_pageVaddr (table : Word) :
    entryAddress level table (pageVaddr (j * 512 ^ level + page)) = table + 8 * BitVec.ofNat 64 j := by
  have hindex : tableIndex level (pageVaddr (j * 512 ^ level + page)) = BitVec.ofNat 64 j := by
    apply BitVec.eq_of_toNat_eq
    rw [toNat_tableIndex_pageVaddr hlevel, Nat.add_comm, Nat.add_mul_div_right _ _ (by positivity),
      Nat.div_eq_of_lt hpage, Nat.zero_add, BitVec.toNat_ofNat]
    omega
  rw [entryAddress, hindex]

omit hj hpage in
/-- The entry does not count below it. -/
theorem presentPage_pageVaddr (table : Word) :
    presentPage frame memory level table (pageVaddr (j * 512 ^ level + page)) =
      presentPage frame memory level table (pageVaddr page) := by
  have hwalk : descend frame memory (pageVaddr (j * 512 ^ level + page)) level table =
      descend frame memory (pageVaddr page) level table := by
    refine descend_congr fun other hother ↦ BitVec.eq_of_toNat_eq ?_
    obtain ⟨above, rfl⟩ := Nat.exists_eq_add_of_lt hother
    have hsplit : j * 512 ^ (other + above + 1) + page =
        page + j * 512 ^ above * 512 * 512 ^ other := by
      ring
    rw [toNat_tableIndex_pageVaddr (by omega), toNat_tableIndex_pageVaddr (by omega), hsplit,
      Nat.add_mul_div_right _ _ (by positivity), Nat.add_mul_mod_self_right]
  rw [presentPage, presentPage, hwalk]

end Row

/-- The pages below a table are those of the page addresses, in the order of the addresses. -/
theorem pagesBelow_eq (hlevel : level ≤ 4) (table : Word) : pagesBelow frame memory level table =
    (List.range (512 ^ level)).filterMap fun page ↦
      presentPage frame memory level table (pageVaddr page) := by
  induction level generalizing table with
  | zero => simp [pagesBelow, presentPage_zero]
  | succ level ih =>
    rw [pagesBelow, Nat.pow_succ', filterMap_range_mul]
    refine List.flatMap_congr fun j hj ↦ ?_
    rw [List.mem_range] at hj
    have hrow (page : ℕ) (hpage : page ∈ List.range (512 ^ level)) :
        presentPage frame memory (level + 1) table (pageVaddr (j * 512 ^ level + page)) =
          if present (load64 memory (table + 8 * BitVec.ofNat 64 j)) then
            presentPage frame memory level (frame (load64 memory (table + 8 * BitVec.ofNat 64 j)))
              (pageVaddr page)
          else none := by
      simp only [presentPage_succ, entryAddress_pageVaddr hlevel hj (List.mem_range.mp hpage),
        presentPage_pageVaddr hlevel]
    rw [List.filterMap_congr hrow]
    by_cases hpresent : present (load64 memory (table + 8 * BitVec.ofNat 64 j)) = true
    · simp only [if_pos hpresent, ih (Nat.le_of_succ_le hlevel)]
    · simp only [if_neg hpresent, List.filterMap_none]

end PenelopeOS.Machine
