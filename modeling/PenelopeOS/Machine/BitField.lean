import Mathlib.Algebra.Group.Nat.Defs

/-!
# Fields of words

A field is masked out of a word and shifted down, or shifted up and combined with the fields below it.
On the numbers these are digits and sums.
-/

namespace PenelopeOS.Machine

variable {width : ℕ}

/-- A field is a digit of its word, whatever the mask holds outside of the field. -/
theorem toNat_field {start length : ℕ} (word : BitVec width) {mask : BitVec width}
    (hmask : (mask >>> start).setWidth length = BitVec.allOnes length) :
    (((word &&& mask) >>> start).setWidth length).toNat = word.toNat / 2 ^ start % 2 ^ length := by
  rw [BitVec.ushiftRight_and_distrib, BitVec.setWidth_and, hmask, BitVec.and_allOnes,
    BitVec.toNat_setWidth, BitVec.toNat_ushiftRight, Nat.shiftRight_eq_div_pow]

theorem toNat_lowField {length : ℕ} (word : BitVec width) {mask : BitVec width}
    (hmask : mask.setWidth length = BitVec.allOnes length) :
    ((word &&& mask).setWidth length).toNat = word.toNat % 2 ^ length := by
  rw [BitVec.setWidth_and, hmask, BitVec.and_allOnes, BitVec.toNat_setWidth]

/-- A mask that fits its field leaves nothing to cut off. -/
theorem toNat_exactField {start length : ℕ} (word : BitVec width) {mask : BitVec width}
    (hmask : (mask >>> start).toNat = 2 ^ length - 1) :
    ((word &&& mask) >>> start).toNat = word.toNat / 2 ^ start % 2 ^ length := by
  rw [BitVec.ushiftRight_and_distrib, BitVec.toNat_and, hmask, Nat.and_two_pow_sub_one_eq_mod,
    BitVec.toNat_ushiftRight, Nat.shiftRight_eq_div_pow]

/-- A mask without low bits leaves a multiple. -/
theorem dvd_toNat_and {start : ℕ} (word : BitVec width) {mask : BitVec width}
    (hmask : 2 ^ start ∣ mask.toNat) : 2 ^ start ∣ (word &&& mask).toNat := by
  rw [Nat.dvd_iff_mod_eq_zero, ← Nat.and_two_pow_sub_one_eq_mod] at hmask ⊢
  rw [BitVec.toNat_and, Nat.and_assoc, hmask, Nat.and_zero]

/-- The fields of a number up to some bit and the one from there on. -/
theorem mod_add_field (number start length : ℕ) :
    number % 2 ^ start + 2 ^ start * (number / 2 ^ start % 2 ^ length) =
      number % 2 ^ (start + length) := by
  rw [Nat.pow_add, Nat.mod_mul]

/-- A field below the others is added to them. -/
theorem toNat_or {start : ℕ} {upper lower : BitVec width} (hupper : 2 ^ start ∣ upper.toNat)
    (hlower : lower.toNat < 2 ^ start) : (upper ||| lower).toNat = upper.toNat + lower.toNat := by
  obtain ⟨digit, hdigit⟩ := hupper
  rw [BitVec.toNat_or, hdigit, Nat.two_pow_add_eq_or_of_lt hlower]

/-- Two fields side by side are two digits. -/
theorem toNat_joined {length : ℕ} (upper : BitVec width) (lower : BitVec length) :
    (upper ++ lower).toNat = lower.toNat + 2 ^ length * upper.toNat := by
  rw [BitVec.toNat_append, ← Nat.shiftLeft_add_eq_or_of_lt lower.isLt, Nat.shiftLeft_eq, Nat.mul_comm,
    Nat.add_comm]

/-- Extension loses nothing. -/
theorem setWidth_injective {wide : ℕ} (hwidth : width ≤ wide) {field field' : BitVec width}
    (h : field.setWidth wide = field'.setWidth wide) : field = field' := by
  have htoNat := congrArg BitVec.toNat h
  rw [BitVec.toNat_setWidth_of_le hwidth, BitVec.toNat_setWidth_of_le hwidth] at htoNat
  exact BitVec.eq_of_toNat_eq htoNat

/-- A counter of machine words follows that of the numbers. -/
theorem ofNat_add_one (value : ℕ) : BitVec.ofNat width value + 1 = BitVec.ofNat width (value + 1) :=
  (BitVec.ofNat_add value 1).symm

end PenelopeOS.Machine
