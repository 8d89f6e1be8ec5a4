import PenelopeOS.Memory.BootTables

/-!
# Edits of the PML4

`SetPM4LE` and `DeletePM4LE` store into the table that cr3 refers to, through a linear address that the same
tables translate. As long as the table stays mapped where it is, whatever is stored in which order, it holds
what was last stored in each of its entries, and an address is translated through the entry of its own
index: the other entries do not count, and the tables below are as they were.

It is assumed that low memory is identity mapped, that no edit goes into an entry by which the table itself
is translated, and that the processor keeps no translation from before an edit.
-/

namespace PenelopeOS.Memory

open Machine

/-- The place of an entry in the table. -/
def entryPlace (cr3 : Word) (entry : BitVec 16) : Word := getCurrentPM4L cr3 + 8 * entry.setWidth 64

/-- `SetPM4LE` -/
def setPM4LE (cr3 : Word) (protect : Bool) (entry : BitVec 16) (pdptr : Word) (memory : Memory) :
    Except AccessFault Memory :=
  storeAt memory cr3 protect (entryPlace cr3 entry) pdptr

/-- `DeletePM4LE` -/
def deletePM4LE (cr3 : Word) (protect : Bool) (entry : BitVec 16) (memory : Memory) :
    Except AccessFault Memory :=
  storeAt memory cr3 protect (entryPlace cr3 entry) 0

inductive PM4LEdit where
  | set (entry : BitVec 16) (pdptr : Word)
  | delete (entry : BitVec 16)
  deriving DecidableEq, Repr

namespace PM4LEdit

def entry : PM4LEdit → BitVec 16
  | .set entry _ | .delete entry => entry

def value : PM4LEdit → Word
  | .set _ pdptr => pdptr
  | .delete _ => 0

def apply (cr3 : Word) (protect : Bool) (memory : Memory) : PM4LEdit → Except AccessFault Memory
  | .set entry pdptr => setPM4LE cr3 protect entry pdptr memory
  | .delete entry => deletePM4LE cr3 protect entry memory

/-- What an edit is to the entries. -/
def update (entries : BitVec 16 → Word) (edit : PM4LEdit) : BitVec 16 → Word :=
  Function.update entries edit.entry edit.value

end PM4LEdit

/-- The memory after edits, unless one of them is refused. -/
def editPM4L (cr3 : Word) (protect : Bool) (memory : Memory) (edits : List PM4LEdit) :
    Except AccessFault Memory :=
  edits.foldlM (PM4LEdit.apply cr3 protect) memory

/-- The entries that are edited are written to where they are, and no edit goes into an entry by which one
of them is translated. -/
structure EditsInPlace (memory : Memory) (cr3 : Word) (protect : Bool) (edits : List PM4LEdit) :
    Prop where
  access_eq : ∀ edit ∈ edits, access memory cr3 protect true (entryPlace cr3 edit.entry) =
    .ok (entryPlace cr3 edit.entry)
  untouched : ∀ edit ∈ edits, ∀ place ∈ walked memory (entryPlace cr3 edit.entry) 4 (pageFrame cr3),
    ∀ other ∈ edits, place ≠ entryPlace cr3 other.entry

/-- The stores of the edits, each at the place of its entry. -/
def storeEdits (cr3 : Word) (memory : Memory) (edits : List PM4LEdit) : Memory :=
  edits.foldl (fun memory edit ↦ store64 memory (entryPlace cr3 edit.entry) edit.value) memory

/-- The words of the table, and those behind it that an index of 16 bits reaches. -/
def pm4lEntries (memory : Memory) (cr3 : Word) (entry : BitVec 16) : Word :=
  load64 memory (entryPlace cr3 entry)

variable {memory : Memory} {cr3 vaddr : Word} {protect : Bool} {edits : List PM4LEdit}

theorem toNat_getCurrentPM4L (cr3 : Word) : (getCurrentPM4L cr3).toNat = 4096 * (cr3.toNat / 4096) := by
  have hlt := cr3.isLt
  rw [getCurrentPM4L, BitVec.toNat_shiftLeft, BitVec.toNat_ushiftRight, Nat.shiftRight_eq_div_pow,
    Nat.shiftLeft_eq, Nat.mod_eq_of_lt (by omega), Nat.mul_comm]

theorem apart_entries {entry entry' : BitVec 16} (hne : entry ≠ entry') :
    Apart (entryPlace cr3 entry) (entryPlace cr3 entry') := by
  have hval : entry.toNat ≠ entry'.toNat := fun h ↦ hne (BitVec.eq_of_toNat_eq h)
  have hlt := entry.isLt
  have hlt' := entry'.isLt
  have hscaled (entry : BitVec 16) :
      (8 * entry.setWidth 64 : Word) = BitVec.ofNat 64 (8 * entry.toNat) := by
    congr 1
  rw [entryPlace, entryPlace, hscaled, hscaled]
  generalize getCurrentPM4L cr3 = table
  have htable := table.isLt
  constructor <;>
  · rw [BitVec.toNat_sub, BitVec.toNat_add, BitVec.toNat_add, BitVec.toNat_ofNat, BitVec.toNat_ofNat]
    omega

/-- An edit stores one entry. -/
theorem pm4lEntries_store (edit : PM4LEdit) :
    pm4lEntries (store64 memory (entryPlace cr3 edit.entry) edit.value) cr3 =
      edit.update (pm4lEntries memory cr3) := by
  funext other
  by_cases hsame : other = edit.entry
  · rw [hsame, PM4LEdit.update, Function.update_self, pm4lEntries, load64_store64_same]
  · rw [PM4LEdit.update, Function.update_of_ne hsame, pm4lEntries,
      load64_store64_apart _ _ (apart_entries (Ne.symm hsame)), pm4lEntries]

/-- The table holds what was last stored. -/
theorem pm4lEntries_storeEdits (edits : List PM4LEdit) (memory : Memory) :
    pm4lEntries (storeEdits cr3 memory edits) cr3 =
      edits.foldl PM4LEdit.update (pm4lEntries memory cr3) := by
  induction edits generalizing memory with
  | nil => rfl
  | cons edit edits ih =>
    rw [storeEdits, List.foldl_cons, ← storeEdits, ih, pm4lEntries_store, List.foldl_cons]

theorem dvd_entryPlace (cr3 : Word) (entry : BitVec 16) : 8 ∣ (entryPlace cr3 entry).toNat := by
  have hplace : (8 * entry.setWidth 64 : Word).toNat % 8 = 0 := by
    rw [BitVec.toNat_mul]
    change 8 * (entry.setWidth 64).toNat % 2 ^ 64 % 8 = 0
    omega
  rw [entryPlace, BitVec.toNat_add, toNat_getCurrentPM4L]
  omega

/-- A word that no edit stores. -/
theorem load64_storeEdits {place : Word} (hplace : 8 ∣ place.toNat)
    (hedits : ∀ edit ∈ edits, place ≠ entryPlace cr3 edit.entry) :
    load64 (storeEdits cr3 memory edits) place = load64 memory place := by
  induction edits generalizing memory with
  | nil => rfl
  | cons edit edits ih =>
    obtain ⟨hedit, hrest⟩ := List.forall_mem_cons.mp hedits
    have hapart := apart_of_dvd (dvd_entryPlace cr3 edit.entry) hplace hedit.symm
    rw [storeEdits, List.foldl_cons, ← storeEdits, ih hrest]
    exact load64_store64_apart memory edit.value hapart

theorem PM4LEdit.apply_eq (cr3 : Word) (protect : Bool) (memory : Memory) (edit : PM4LEdit) :
    edit.apply cr3 protect memory = storeAt memory cr3 protect (entryPlace cr3 edit.entry) edit.value := by
  cases edit <;> rfl

/-- Behind the edits before it, an entry is translated as it was at first. -/
theorem EditsInPlace.access_storeEdits {before : List PM4LEdit} {edit : PM4LEdit}
    (h : EditsInPlace memory cr3 protect edits) (hbefore : before ⊆ edits) (hedit : edit ∈ edits) :
    access (storeEdits cr3 memory before) cr3 protect true (entryPlace cr3 edit.entry) =
      .ok (entryPlace cr3 edit.entry) := by
  rw [← h.access_eq edit hedit]
  refine access_congr fun place hplace ↦ ?_
  exact load64_storeEdits (dvd_of_mem_walked (dvd_pageFrame cr3) hplace)
    fun other hother ↦ h.untouched edit hedit place hplace other (hbefore hother)

/-- Edits in place are all carried out. -/
theorem EditsInPlace.editPM4L_eq (h : EditsInPlace memory cr3 protect edits) :
    editPM4L cr3 protect memory edits = .ok (storeEdits cr3 memory edits) := by
  have hall (before after : List PM4LEdit) (hsplit : edits = before ++ after) :
      editPM4L cr3 protect (storeEdits cr3 memory before) after =
        .ok (storeEdits cr3 memory (before ++ after)) := by
    induction after generalizing before with
    | nil =>
      rw [List.append_nil]
      rfl
    | cons edit after ih =>
      have haccess : access (storeEdits cr3 memory before) cr3 protect true _ = .ok _ :=
        h.access_storeEdits (hsplit ▸ List.subset_append_left _ _)
          (hsplit ▸ List.mem_append_right _ List.mem_cons_self)
      have hstored : storeEdits cr3 memory (before ++ [edit]) =
          store64 (storeEdits cr3 memory before) (entryPlace cr3 edit.entry) edit.value := by
        rw [storeEdits, List.foldl_append]
        rfl
      have hrest := ih (before ++ [edit]) (by rw [hsplit, List.append_assoc]; rfl)
      rw [List.append_assoc, hstored] at hrest
      rw [editPM4L, List.foldlM_cons, PM4LEdit.apply_eq, storeAt, haccess]
      exact hrest
  exact hall [] edits rfl

/-! ## Translation -/

theorem dvd_address (entry : Word) : 8 ∣ (address entry).toNat :=
  dvd_toNat_and entry (show 2 ^ 3 ∣ addressMask.toNat by decide)

/-- The entry that was last stored at the index of the address is the one that counts. -/
theorem load64_entry (edits : List PM4LEdit) (memory : Memory) (cr3 vaddr : Word) :
    load64 (storeEdits cr3 memory edits) (entryAddress 3 (address cr3) vaddr) =
      edits.foldl PM4LEdit.update (pm4lEntries memory cr3) (indexAt 39 vaddr) := by
  have hindex := setWidth_indexAt (show 3 < 4 by decide) vaddr
  rw [← pm4lEntries_storeEdits, pm4lEntries, entryAddress, entryPlace, ← hindex, getCurrentPM4L_eq]

/-- The edits store into none of the entries that are read below the given one. -/
def KeptBelow (frame : Word → Word) (memory : Memory) (cr3 vaddr entry : Word) (edits : List PM4LEdit) :
    Prop :=
  ∀ read ∈ (descend frame memory vaddr 3 (frame entry)).1, ∀ edit ∈ edits,
    read ≠ entryPlace cr3 edit.entry

theorem KeptBelow.load64_eq {frame : Word → Word} {entry : Word}
    (h : KeptBelow frame memory cr3 vaddr entry edits) (hframe : ∀ entry, 8 ∣ (frame entry).toNat) :
    ∀ read ∈ (descend frame memory vaddr 3 (frame entry)).1,
      load64 (storeEdits cr3 memory edits) read = load64 memory read :=
  fun read hread ↦ load64_storeEdits (dvd_of_mem_descend hframe (hframe entry) hread) (h read hread)

theorem translate_storeEdits {entry : Word} (hcr3 : HighBitsClear cr3)
    (hentry : edits.foldl PM4LEdit.update (pm4lEntries memory cr3) (indexAt 39 vaddr) = entry)
    (hbelow : KeptBelow pageFrame memory cr3 vaddr entry edits) :
    Machine.translate pageFrame (storeEdits cr3 memory edits) vaddr 4 (pageFrame cr3) =
      if present entry then Machine.translate pageFrame memory vaddr 3 (pageFrame entry)
      else .notPresent 3 := by
  have hload := load64_entry edits memory cr3 vaddr
  rw [address_eq_pageFrame_iff.mpr hcr3, hentry] at hload
  have htables := translate_congr_memory (hbelow.load64_eq dvd_pageFrame)
  rw [Machine.translate, hload]
  change (if present entry = false then _ else if largePage 3 entry = true then _ else _) = _
  rw [htables]
  cases hpresent : present entry with
  | false => rfl
  | true =>
    have hlarge : ¬ largePage 3 entry = true := by
      simp [largePage]
    rw [if_neg Bool.noConfusion, if_neg hlarge, if_pos rfl]

theorem virtualToPageBase_storeEdits {entry : Word}
    (hentry : edits.foldl PM4LEdit.update (pm4lEntries memory cr3) (indexAt 39 vaddr) = entry)
    (hbelow : KeptBelow address memory cr3 vaddr entry edits) :
    (virtualToPageBase (storeEdits cr3 memory edits) cr3 vaddr).base =
      (descend address memory vaddr 3 (address entry)).2 := by
  have hload := load64_entry edits memory cr3 vaddr
  rw [hentry] at hload
  have hwalk := congrArg Prod.snd (virtualToPageBase_eq (storeEdits cr3 memory edits) cr3 vaddr)
  rw [← descend_congr_memory (hbelow.load64_eq dvd_address)]
  rwa [descend, hload] at hwalk

/-- Two entries are made to refer to the tables of the first one, and one of them is deleted again. -/
def selfEdits : List PM4LEdit := [.set 1 0x2003, .set 2 0x2003, .delete 2]

/-- The entries by which the tables are translated. -/
def selfWalked : List Word := [0x1000, 0x2000, 0x3000, 0x4008]

theorem selfEdits_apart {place : Word} (hplace : place ∈ 0 :: selfWalked) :
    ∀ edit ∈ selfEdits, place ≠ entryPlace 0x1000 edit.entry := by
  have hedited : ∀ edit ∈ selfEdits, entryPlace 0x1000 edit.entry ∉ 0 :: selfWalked := by
    decide
  rintro edit hedit rfl
  exact hedited edit hedit hplace

theorem selfEdits_inPlace : EditsInPlace selfMapped 0x1000 false selfEdits where
  access_eq := by
    simp only [selfEdits, List.forall_mem_cons]
    exact ⟨access_selfMapped (by decide) (by decide) true, access_selfMapped (by decide) (by decide) true,
      access_selfMapped (by decide) (by decide) true, List.forall_mem_nil _⟩
  untouched := by
    have hwalked : ∀ edit ∈ selfEdits,
        walked selfMapped (entryPlace 0x1000 edit.entry) 4 (pageFrame 0x1000) = selfWalked := by
      decide +kernel
    intro edit hedit place hplace
    rw [hwalked edit hedit] at hplace
    exact selfEdits_apart (List.mem_cons_of_mem 0 hplace)

end PenelopeOS.Memory
