import Mathlib.Data.BitVec
import Mathlib.Tactic.IntervalCases
import Mathlib.Tactic.Ring

/-!
# Byte-addressed memory with little-endian 64-bit words

A memory gives one byte to every 64-bit address. A 64-bit load joins the eight bytes from its
address upwards, and a store replaces exactly those bytes. Addresses wrap, so two words are apart
when neither starts within the eight bytes of the other, in whichever order they lie.
-/

namespace PenelopeOS.Machine

abbrev Word := BitVec 64
abbrev Memory := Word → BitVec 8

def load64 (memory : Memory) (address : Word) : Word :=
  memory (address + 7) ++ memory (address + 6) ++ memory (address + 5) ++ memory (address + 4) ++
    memory (address + 3) ++ memory (address + 2) ++ memory (address + 1) ++ memory address

def store64 (memory : Memory) (address value : Word) : Memory := fun location ↦
  if (location - address).toNat < 8 then
    (value >>> (8 * (location - address).toNat)).setWidth 8
  else memory location

/-- Neither word reaches into the other. -/
def Apart (first second : Word) : Prop :=
  8 ≤ (second - first).toNat ∧ 8 ≤ (first - second).toNat

instance (first second : Word) : Decidable (Apart first second) :=
  inferInstanceAs (Decidable (_ ∧ _))

/-- Aligned words that differ are apart. -/
theorem apart_of_dvd {first second : Word} (hfirst : 8 ∣ first.toNat) (hsecond : 8 ∣ second.toNat)
    (hne : first ≠ second) : Apart first second := by
  have hval : first.toNat ≠ second.toNat := fun h ↦ hne (BitVec.eq_of_toNat_eq h)
  constructor <;> rw [BitVec.toNat_sub] <;> omega

theorem load64_congr {memory memory' : Memory} {address : Word}
    (h : ∀ offset : Word, offset.toNat < 8 →
      memory' (address + offset) = memory (address + offset)) :
    load64 memory' address = load64 memory address := by
  have hzero := h 0 (by decide)
  rw [show address + 0 = address by ring] at hzero
  unfold load64
  rw [h 7 (by decide), h 6 (by decide), h 5 (by decide), h 4 (by decide), h 3 (by decide),
    h 2 (by decide), h 1 (by decide), hzero]

/-- Each byte of the word is the one at its offset. -/
theorem getLsbD_load64 (memory : Memory) (address : Word) {byte bit : ℕ} (hbyte : byte < 8)
    (hbit : bit < 8) : (load64 memory address).getLsbD (8 * byte + bit) =
      (memory (address + BitVec.ofNat 64 byte)).getLsbD bit := by
  unfold load64
  simp only [BitVec.getLsbD_append]
  interval_cases byte
  · rw [if_pos (by omega)]
    simp
  all_goals
    repeat rw [if_neg (by omega)]
    try rw [if_pos (by omega)]
    congr 1
    omega

theorem store64_of_outside (memory : Memory) {address location : Word} (value : Word)
    (h : 8 ≤ (location - address).toNat) : store64 memory address value location = memory location :=
  if_neg (by omega)

@[simp]
theorem load64_store64_same (memory : Memory) (address value : Word) :
    load64 (store64 memory address value) address = value := by
  apply BitVec.eq_of_getLsbD_eq
  intro index hindex
  have hoffset : address + BitVec.ofNat 64 (index / 8) - address = BitVec.ofNat 64 (index / 8) := by
    ring
  have hbyte : (BitVec.ofNat 64 (index / 8)).toNat = index / 8 := by
    rw [BitVec.toNat_ofNat]
    omega
  have hbit : index % 8 < 8 := Nat.mod_lt _ (by decide)
  rw [← Nat.div_add_mod index 8, getLsbD_load64 _ _ (by omega) hbit, store64, hoffset, hbyte,
    if_pos (by omega), BitVec.getLsbD_setWidth, BitVec.getLsbD_ushiftRight, decide_eq_true hbit,
    Bool.true_and]

theorem load64_store64_apart (memory : Memory) {written read : Word} (value : Word)
    (h : Apart written read) : load64 (store64 memory written value) read = load64 memory read := by
  apply load64_congr
  intro offset hoffset
  obtain ⟨hafter, hbefore⟩ := h
  apply store64_of_outside
  rw [BitVec.toNat_sub] at hafter hbefore ⊢
  rw [BitVec.toNat_add]
  omega

/-- The top byte of a small word is zero. -/
theorem topByte_eq_zero {memory : Memory} {address : Word}
    (hsmall : (load64 memory address).toNat < 2 ^ 56) : memory (address + 7) = 0 := by
  apply BitVec.eq_of_getLsbD_eq
  intro bit hbit
  have hlarge : (load64 memory address).toNat < 2 ^ (8 * 7 + bit) :=
    hsmall.trans_le (Nat.pow_le_pow_right (by decide) (by omega))
  have hbyte := getLsbD_load64 memory address (show 7 < 8 by decide) hbit
  rw [BitVec.getLsbD, Nat.testBit_lt_two_pow hlarge] at hbyte
  exact hbyte.symm.trans BitVec.getLsbD_zero.symm

end PenelopeOS.Machine
