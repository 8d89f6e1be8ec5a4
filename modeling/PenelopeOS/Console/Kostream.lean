import PenelopeOS.Console.Logger

/-!
# What `kout` prints for a number

Unsigned numbers appear as numerals in decimal and in hexadecimal. The buffer for binary digits has
room for 20 of them only, and the digits of a signed number are taken while it is positive, so a
negative one leaves no trace.
-/

namespace PenelopeOS.Console

open Machine Foundation

inductive Intmode where
  | dec
  | hex
  | bin
  deriving DecidableEq, Repr

/-- `kostream`, without the logger and its fixed port -/
structure Kostream where
  mode : Intmode
  deriving DecidableEq, Repr

namespace Kostream

/-- `operator<<(intmode)` -/
def insertMode (out : Kostream) (im : Intmode) : Kostream :=
  match im with
  | .dec => { out with mode := .dec }
  | .hex => { out with mode := .hex }
  | .bin => { out with mode := .bin }

/-- `operator<<(T)` for an unsigned type of the given width -/
def insert (out : Kostream) {width : ℕ} (i : BitVec width) : Except Fault (List (BitVec 8)) :=
  match out.mode with
  | .dec => log i
  | .hex => logHex (i.setWidth 64)
  | .bin => logBin (i.setWidth 64) 0

/-- `operator<<(int)`, which does not look at the mode -/
def insertInt (_out : Kostream) (i : BitVec 32) : Except Fault (List (BitVec 8)) := logInt i

end Kostream

theorem digitOf_decimalChar : ∀ value : ℕ, value < 10 → digitOf 10 (decimalChar value) = some value := by
  decide

theorem digitOf_hexChar : ∀ value : ℕ, value < 16 → digitOf 16 (hexChar value) = some value := by
  decide

theorem digitOf_binaryChar : ∀ value : ℕ, value < 2 → digitOf 2 (binaryChar value) = some value := by
  decide

/-- A number of at most 64 bits has less than 65 digits in any base. -/
theorem length_digits_lt {base value : ℕ} (hbase : 1 < base) (hvalue : value < 2 ^ 64) :
    (Nat.digits base value).length < 65 :=
  Nat.lt_succ_of_le <| (Nat.digits_length_le_iff hbase value).mpr <|
    hvalue.trans_le (Nat.pow_le_pow_left hbase 64)

theorem exists_log {width : ℕ} (hwidth : width ≤ 64) (x : BitVec width) :
    ∃ bytes, log x = .ok bytes ∧ IsNumeral (digitOf 10) 10 bytes x.toNat := by
  have hvalue : x.toNat < 2 ^ 64 := x.isLt.trans_le (Nat.pow_le_pow_right (by decide) hwidth)
  have hroom : (Nat.digits 10 x.toNat).length ≤ 30 :=
    (Nat.digits_length_le_iff (by decide) _).mpr (hvalue.trans_le (by decide))
  exact exists_logNumber (by decide) rfl digitOf_decimalChar (length_digits_lt (by decide) hvalue) hroom

theorem exists_logHex (x : BitVec 64) :
    ∃ bytes, logHex x = .ok bytes ∧ IsNumeral (digitOf 16) 16 bytes x.toNat := by
  have hroom : (Nat.digits 16 x.toNat).length ≤ 20 :=
    (Nat.digits_length_le_iff (by decide) _).mpr (x.isLt.trans_le (by decide))
  exact exists_logNumber (by decide) rfl digitOf_hexChar (length_digits_lt (by decide) x.isLt) hroom

/-- Every unsigned number is printed as its numeral in decimal, and every one of 64 bits as its numeral
in hexadecimal too. -/
theorem insert_isNumeral (out : Kostream) {width : ℕ} (hwidth : width ∈ [8, 16, 32, 64])
    (x : BitVec width) (y : BitVec 64) :
    (∃ bytes, (out.insertMode .dec).insert x = .ok bytes ∧
      IsNumeral (digitOf 10) 10 bytes x.toNat) ∧
    ∃ bytes, (out.insertMode .hex).insert y = .ok bytes ∧
      IsNumeral (digitOf 16) 16 bytes y.toNat := by
  have hle : width ≤ 64 := by
    simp only [List.mem_cons, List.not_mem_nil, or_false] at hwidth
    omega
  obtain ⟨bytes, hlog, hnumeral⟩ := exists_logHex y
  refine ⟨exists_log hle x, bytes, ?_, hnumeral⟩
  rw [Kostream.insert, BitVec.setWidth_eq]
  exact hlog

/-- A byte in decimal, and sixteen digits in hexadecimal. -/
theorem insert_isNumeral_byte : ∃ out : Kostream,
    (out.insertMode .dec).insert (200 : BitVec 8) = .ok [50, 48, 48] ∧
      IsNumeral (digitOf 10) 10 [50, 48, 48] 200 ∧
    (out.insertMode .hex).insert (0xFE00000000000000 : BitVec 64) =
        .ok ([70, 69] ++ List.replicate 14 48) ∧
      IsNumeral (digitOf 16) 16 ([70, 69] ++ List.replicate 14 48) 0xFE00000000000000 := by
  obtain ⟨⟨bytes, hdec, hnumeral⟩, bytes', hhex, hnumeral'⟩ :=
    insert_isNumeral ⟨.bin⟩ (show 8 ∈ [8, 16, 32, 64] by decide) 200 0xFE00000000000000
  have hdec' : ((Kostream.mk .bin).insertMode .dec).insert (200 : BitVec 8) = .ok [50, 48, 48] := by
    decide
  have hhex' : ((Kostream.mk .bin).insertMode .hex).insert (0xFE00000000000000 : BitVec 64) =
      .ok ([70, 69] ++ List.replicate 14 48) := by
    decide
  obtain rfl := Except.ok.inj (hdec.symm.trans hdec')
  obtain rfl := Except.ok.inj (hhex.symm.trans hhex')
  exact ⟨⟨.bin⟩, hdec', hnumeral, hhex', hnumeral'⟩

/-! ## Binary digits -/

/-- In binary a number is printed as its numeral exactly when it has at most 20 digits. -/
theorem logBin_isNumeral_iff (out : Kostream) (x : BitVec 64) (sep : BitVec 32) :
    (∃ bytes, logBin x sep = .ok bytes ∧ (out.insertMode .bin).insert x = .ok bytes ∧
      IsNumeral (digitOf 2) 2 bytes x.toNat) ↔ x.toNat < 2 ^ 20 := by
  have hfuel := length_digits_lt (show 1 < 2 by decide) x.isLt
  have hinsert : (out.insertMode .bin).insert x = logBin x sep := by
    rw [Kostream.insert, BitVec.setWidth_eq]
    rfl
  rw [hinsert, ← Nat.digits_length_le_iff (show 1 < 2 by decide)]
  constructor
  · rintro ⟨bytes, hlog, -⟩
    by_contra hlong
    have herror : logBin x sep = .error .outOfBounds :=
      logNumber_eq_error (by decide) hfuel (Nat.lt_of_not_le hlong)
    cases hlog.symm.trans herror
  · intro hroom
    obtain ⟨bytes, hlog, hnumeral⟩ : ∃ bytes, logBin x sep = .ok bytes ∧
        IsNumeral (digitOf 2) 2 bytes x.toNat :=
      exists_logNumber (by decide) rfl digitOf_binaryChar hfuel hroom
    exact ⟨bytes, hlog, hlog, hnumeral⟩

/-- The control register `cr0` with paging and protection on. -/
theorem not_logBin_paging : logBin 0x80000001 0 = .error .outOfBounds ∧
    ((Kostream.mk .dec).insertMode .bin).insert (0x80000001 : BitVec 64) = .error .outOfBounds ∧
    ¬ ∃ bytes, logBin 0x80000001 0 = .ok bytes ∧
      IsNumeral (digitOf 2) 2 bytes (0x80000001 : BitVec 64).toNat := by
  have herror : logBin 0x80000001 0 = .error .outOfBounds := by
    decide
  refine ⟨herror, herror, ?_⟩
  rintro ⟨bytes, hlog, -⟩
  cases hlog.symm.trans herror

/-! ## Signed numbers -/

/-- The value of a decimal numeral with an optional minus sign. -/
def readSigned : List (BitVec 8) → Option ℤ
  | [] => none
  | first :: rest =>
    if first = 45 then (readNumeral (digitOf 10) 10 rest).map fun value : ℕ ↦ -(value : ℤ)
    else (readNumeral (digitOf 10) 10 (first :: rest)).map fun value : ℕ ↦ (value : ℤ)

/-- What is printed reads as the number. -/
def PrintsFaithfully (out : Kostream) (x : BitVec 32) : Prop :=
  ∃ bytes, out.insertInt x = .ok bytes ∧ readSigned bytes = some x.toInt

/-- A numeral has no sign. -/
theorem readSigned_of_isNumeral {bytes : List (BitVec 8)} {value : ℕ}
    (h : IsNumeral (digitOf 10) 10 bytes value) : readSigned bytes = some (value : ℤ) := by
  cases bytes with
  | nil => cases h.read
  | cons first rest =>
    have hne : first ≠ 45 := by
      rintro rfl
      obtain ⟨digit, -, hdigit⟩ := h.isDigit 45 List.mem_cons_self
      cases hdigit
    rw [readSigned, if_neg hne, h.read, Option.map_some]

/-- Exactly the numbers that are not negative are printed as they are. -/
theorem printsFaithfully_iff (out : Kostream) (x : BitVec 32) :
    PrintsFaithfully out x ↔ 0 ≤ x.toInt := by
  constructor
  · rintro ⟨bytes, hprint, hread⟩
    by_contra hneg
    have hempty : out.insertInt x = .ok [] := logNumber_of_neg (Int.not_le.mp hneg)
    obtain rfl := Except.ok.inj (hprint.symm.trans hempty)
    cases hread
  · intro hnonneg
    obtain ⟨value, hvalue⟩ := Int.eq_ofNat_of_zero_le hnonneg
    have hlt : value < 2 ^ 31 := by
      have := BitVec.toInt_lt (x := x)
      omega
    have hroom : (Nat.digits 10 value).length ≤ 100 :=
      (Nat.digits_length_le_iff (by decide) _).mpr (hlt.trans_le (by decide))
    obtain ⟨bytes, hlog, hnumeral⟩ :=
      exists_logNumber (by decide) rfl digitOf_decimalChar
        (length_digits_lt (by decide) (hlt.trans (by decide))) hroom
    refine ⟨bytes, ?_, ?_⟩
    · rw [Kostream.insertInt, logInt, hvalue]
      exact hlog
    · rw [readSigned_of_isNumeral hnumeral, hvalue]

/-- The links -1 and -2 are both printed as nothing. -/
theorem not_printsFaithfully_neg : (Kostream.mk .dec).insertInt (-1) = .ok [] ∧
    (Kostream.mk .dec).insertInt (-2) = .ok [] ∧ ¬ PrintsFaithfully ⟨.dec⟩ (-1) := by
  have hempty : (Kostream.mk .dec).insertInt (-1) = .ok [] := by
    decide
  refine ⟨hempty, by decide, ?_⟩
  rintro ⟨bytes, hprint, hread⟩
  obtain rfl := Except.ok.inj (hprint.symm.trans hempty)
  cases hread

end PenelopeOS.Console
