import PenelopeOS.Machine.ByteMemory

/-!
# Packed structures in memory

A packed structure lies in memory as the bytes of its fields, one behind the other and the lowest byte
of each field first. Storing it leaves everything alone that is separate from it.
-/

namespace PenelopeOS.Machine

/-- The bytes are written from the base on. -/
def storeBytes (memory : Memory) (base : Word) (bytes : List (BitVec 8)) : Memory := fun location ↦
  (bytes[(location - base).toNat]?).getD (memory location)

/-- The bytes are in memory from the base on. -/
def Stores (memory : Memory) (base : Word) (bytes : List (BitVec 8)) : Prop :=
  ∀ index byte, bytes[index]? = some byte → memory (base + BitVec.ofNat 64 index) = byte

/-- Neither range reaches into the other. -/
def Separate (first : Word) (size : ℕ) (second : Word) (size' : ℕ) : Prop :=
  size ≤ (second - first).toNat ∧ size' ≤ (first - second).toNat

instance (first : Word) (size : ℕ) (second : Word) (size' : ℕ) :
    Decidable (Separate first size second size') :=
  inferInstanceAs (Decidable (_ ∧ _))

variable {memory : Memory} {base base' : Word} {bytes bytes' front rest : List (BitVec 8)}
  {size size' : ℕ}

theorem Separate.symm (h : Separate base size base' size') : Separate base' size' base size := ⟨h.2, h.1⟩

theorem Separate.mono (h : Separate base size base' size') {length length' : ℕ} (hfits : length ≤ size)
    (hfits' : length' ≤ size') : Separate base length base' length' :=
  ⟨hfits.trans h.1, hfits'.trans h.2⟩

/-- A place in the one range is behind the end of the other. -/
theorem Separate.outside (h : Separate base size base' size') {index : ℕ} (hindex : index < size) :
    size' ≤ (base + BitVec.ofNat 64 index - base').toNat := by
  obtain ⟨hafter, hbefore⟩ := h
  have hbase := base.isLt
  have hbase' := base'.isLt
  rw [BitVec.toNat_sub] at hafter hbefore ⊢
  rw [BitVec.toNat_add, BitVec.toNat_ofNat]
  omega

/-- A smaller range in the first one. -/
theorem Separate.shrink (h : Separate base size base' size') {offset length : ℕ}
    (hfits : offset + length ≤ size) (hpos : 0 < length) (hpos' : 0 < size') :
    Separate (base + BitVec.ofNat 64 offset) length base' size' := by
  obtain ⟨hafter, hbefore⟩ := h
  have hbase := base.isLt
  have hbase' := base'.isLt
  constructor
  all_goals
    rw [BitVec.toNat_sub] at hafter hbefore ⊢
    rw [BitVec.toNat_add, BitVec.toNat_ofNat]
    omega

theorem storeBytes_of_outside {location : Word} (h : bytes.length ≤ (location - base).toNat) :
    storeBytes memory base bytes location = memory location := by
  rw [storeBytes, List.getElem?_eq_none h, Option.getD_none]

theorem stores_storeBytes (memory : Memory) (base : Word) (hlength : bytes.length ≤ 2 ^ 64) :
    Stores (storeBytes memory base bytes) base bytes := by
  intro index byte hbyte
  have hindex := (List.getElem?_eq_some_iff.mp hbyte).1
  have hoffset : (base + BitVec.ofNat 64 index - base).toNat = index := by
    rw [BitVec.add_comm, BitVec.add_sub_cancel, BitVec.toNat_ofNat]
    omega
  rw [storeBytes, hoffset, hbyte, Option.getD_some]

/-- A store of something separate. -/
theorem Stores.storeBytes (h : Stores memory base bytes)
    (hseparate : Separate base bytes.length base' bytes'.length) :
    Stores (storeBytes memory base' bytes') base bytes := by
  intro index byte hbyte
  rw [← h index byte hbyte]
  exact storeBytes_of_outside (hseparate.outside (List.getElem?_eq_some_iff.mp hbyte).1)

/-- A store of one of the bytes. -/
theorem Stores.set (h : Stores memory base bytes) {index : ℕ} (hlength : bytes.length ≤ 2 ^ 64)
    (hindex : index < bytes.length) (value : BitVec 8) :
    Stores (Machine.storeBytes memory (base + BitVec.ofNat 64 index) [value]) base
      (bytes.set index value) := by
  intro other byte hbyte
  rw [List.getElem?_set] at hbyte
  split_ifs at hbyte with hsame
  · obtain rfl := Option.some.inj hbyte
    rw [← hsame, Machine.storeBytes, BitVec.sub_self]
    rfl
  · have hother := (List.getElem?_eq_some_iff.mp hbyte).1
    rw [← h other byte hbyte]
    apply storeBytes_of_outside
    rw [List.length_singleton, BitVec.toNat_sub, BitVec.toNat_add, BitVec.toNat_add, BitVec.toNat_ofNat,
      BitVec.toNat_ofNat]
    omega

theorem stores_append_iff : Stores memory base (front ++ rest) ↔
    Stores memory base front ∧ Stores memory (base + BitVec.ofNat 64 front.length) rest := by
  constructor
  · intro h
    refine ⟨fun index byte hbyte ↦ h index byte ?_, fun index byte hbyte ↦ ?_⟩
    · rw [List.getElem?_append_left (List.getElem?_eq_some_iff.mp hbyte).1, hbyte]
    · rw [BitVec.add_assoc, ← BitVec.ofNat_add]
      apply h
      rw [List.getElem?_append_right (Nat.le_add_right _ _), Nat.add_sub_cancel_left, hbyte]
  · rintro ⟨hfront, hrest⟩ index byte hbyte
    by_cases hindex : index < front.length
    · rw [List.getElem?_append_left hindex] at hbyte
      exact hfront index byte hbyte
    · rw [List.getElem?_append_right (Nat.not_lt.mp hindex)] at hbyte
      have hsum : index = front.length + (index - front.length) := by omega
      have hplace := hrest _ byte hbyte
      rwa [BitVec.add_assoc, ← BitVec.ofNat_add, ← hsum] at hplace

/-! ## Several structures -/

section Several

variable {ι : Type*} {place : ι → Word} {content : ι → List (BitVec 8)} {indices : List ι}

/-- The structures are stored one after the other, each at its own place. -/
def storeAll (place : ι → Word) (content : ι → List (BitVec 8)) (memory : Memory) (indices : List ι) :
    Memory :=
  indices.foldl (fun memory index ↦ storeBytes memory (place index) (content index)) memory

theorem Stores.storeAll (h : Stores memory base bytes)
    (hseparate : ∀ index ∈ indices, Separate base bytes.length (place index) (content index).length) :
    Stores (storeAll place content memory indices) base bytes := by
  induction indices generalizing memory with
  | nil => exact h
  | cons first indices ih =>
    rw [List.forall_mem_cons] at hseparate
    exact ih (h.storeBytes hseparate.1) hseparate.2

/-- A structure is not overwritten by the later ones. -/
theorem stores_storeAll (hlength : ∀ index ∈ indices, (content index).length ≤ 2 ^ 64)
    (hseparate : indices.Pairwise fun index index' ↦
      Separate (place index) (content index).length (place index') (content index').length)
    {index : ι} (hindex : index ∈ indices) :
    Stores (storeAll place content memory indices) (place index) (content index) := by
  induction indices generalizing memory with
  | nil => cases hindex
  | cons first indices ih =>
    rw [List.forall_mem_cons] at hlength
    rw [List.pairwise_cons] at hseparate
    rcases List.mem_cons.mp hindex with rfl | hmem
    · exact (stores_storeBytes memory (place index) hlength.1).storeAll hseparate.1
    · exact ih hlength.2 hseparate.2 hmem

end Several

end PenelopeOS.Machine
