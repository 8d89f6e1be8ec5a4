import PenelopeOS.Foundation.Numeral
import PenelopeOS.Machine.Fault

/-!
# The logger

The overloads of `logger::log` for integers, as the bytes that they write to `m_port`. They collect the
digits of the number in a local buffer of fixed size, least significant first, and write them out
backwards. A write behind the buffer is a fault.
-/

namespace PenelopeOS.Console

open Machine Foundation

section Buffer

variable {capacity : ℕ}

/-- `buffer[index] = char` -/
def store (buffer : Vector (BitVec 8) capacity) (index : ℕ) (char : BitVec 8) :
    Except Fault (Vector (BitVec 8) capacity) :=
  if index < capacity then .ok (buffer.setIfInBounds index char) else .error .outOfBounds

/-- `buffer[index]` -/
def fetch (buffer : Vector (BitVec 8) capacity) (index : ℕ) : Except Fault (BitVec 8) :=
  match buffer[index]? with
  | some char => .ok char
  | none => .error .outOfBounds

/-- The `while` loop, with the base and the choice of a character for a digit left open. The quotient
and the remainder of the source are rounded towards zero. -/
def digitLoop (base : ℤ) (char : ℤ → BitVec 8) : ℕ → ℤ → Vector (BitVec 8) capacity → ℕ →
    Except Fault (Vector (BitVec 8) capacity × ℕ)
  | 0, _, _, _ => .error .divergence
  | fuel + 1, x, buffer, index =>
    if x > 0 then do
      let digit := x.tmod base
      let x := x.tdiv base
      let buffer ← store buffer index (char digit)
      digitLoop base char fuel x buffer (index + 1)
    else return (buffer, index)

/-- The `for` loop, from the last of the given number of characters down to the first. -/
def writeLoop (buffer : Vector (BitVec 8) capacity) : ℕ → Except Fault (List (BitVec 8))
  | 0 => return []
  | i + 1 => do
    let char ← fetch buffer i
    let rest ← writeLoop buffer i
    return char :: rest

end Buffer

/-- The body that the overloads share. A number of 64 bits has at most 64 digits. -/
def logNumber (capacity : ℕ) (base : ℤ) (char : ℤ → BitVec 8) (x : ℤ) :
    Except Fault (List (BitVec 8)) :=
  if x = 0 then return [48]
  else do
    let (buffer, index) ← digitLoop base char 65 x (Vector.replicate capacity 0) 0
    writeLoop buffer index

def decimalChar (digit : ℤ) : BitVec 8 := BitVec.ofInt 8 (digit + 48)

def hexChar (digit : ℤ) : BitVec 8 :=
  if digit < 0xA then BitVec.ofInt 8 (digit + 48) else BitVec.ofInt 8 (digit + 55)

def binaryChar (digit : ℤ) : BitVec 8 := if digit = 0 then 48 else 49

/-- `log(int)` -/
def logInt (x : BitVec 32) : Except Fault (List (BitVec 8)) := logNumber 100 10 decimalChar x.toInt

/-- `log(T)` for an unsigned type of the given width -/
def log {width : ℕ} (x : BitVec width) : Except Fault (List (BitVec 8)) :=
  logNumber 30 10 decimalChar x.toNat

def logHex (x : BitVec 64) : Except Fault (List (BitVec 8)) := logNumber 20 16 hexChar x.toNat

/-- The separator is not used. -/
def logBin (x : BitVec 64) (_sep : BitVec 32) : Except Fault (List (BitVec 8)) :=
  logNumber 20 2 binaryChar x.toNat

/-- The digit that an ASCII character stands for, with capital letters from ten on. -/
def digitOf (base : ℕ) (char : BitVec 8) : Option ℕ :=
  let digit := if char.toNat < 65 then char.toNat - 48 else char.toNat - 55
  if (48 ≤ char.toNat ∧ char.toNat < 58 ∨ 65 ≤ char.toNat ∧ char.toNat < 91) ∧ digit < base then
    some digit
  else none

/-! ## Digits in the buffer -/

section Buffer

variable {capacity index fuel value : ℕ} {buffer : Vector (BitVec 8) capacity}
  {chars : List (BitVec 8)} {char : BitVec 8}

/-- The buffer starts with the characters. -/
def Begins (buffer : Vector (BitVec 8) capacity) (chars : List (BitVec 8)) : Prop :=
  ∀ index < chars.length, buffer[index]? = chars[index]?

theorem begins_nil : Begins buffer [] := fun _ hindex ↦ absurd hindex (Nat.not_lt_zero _)

theorem exists_store (h : Begins buffer chars) (hroom : chars.length < capacity)
    (char : BitVec 8) : ∃ buffer', store buffer chars.length char = .ok buffer' ∧
      Begins buffer' (chars ++ [char]) := by
  refine ⟨_, if_pos hroom, fun index hindex ↦ ?_⟩
  rw [List.length_append, List.length_singleton, Nat.lt_succ_iff] at hindex
  rcases Nat.lt_or_eq_of_le hindex with hindex | rfl
  · rw [Vector.getElem?_setIfInBounds_ne hindex.ne', List.getElem?_append_left hindex, h index hindex]
  · simp [hroom]

theorem store_eq_error (hroom : capacity ≤ index) : store buffer index char = .error .outOfBounds :=
  if_neg (Nat.not_lt.mpr hroom)

/-- What was stored is written out backwards. -/
theorem writeLoop_eq (h : Begins buffer chars) (hroom : chars.length ≤ capacity) :
    writeLoop buffer chars.length = .ok chars.reverse := by
  induction chars using List.reverseRecOn with
  | nil => rfl
  | append_singleton front last ih =>
    have hlast := h front.length (by simp)
    rw [List.getElem?_append_right le_rfl, Nat.sub_self] at hlast
    have hfront : Begins buffer front := by
      intro index hindex
      rw [h index (by rw [List.length_append]; omega), List.getElem?_append_left hindex]
    have hrest := ih hfront (by rw [List.length_append] at hroom; omega)
    have hfetch : fetch buffer front.length = .ok last := by
      rw [fetch, hlast]
      rfl
    rw [List.length_append, List.length_singleton, writeLoop, hfetch, ok_bind, hrest, ok_bind,
      List.reverse_append]
    rfl

end Buffer

section Digits

variable {capacity fuel value base : ℕ} {buffer : Vector (BitVec 8) capacity}
  {chars : List (BitVec 8)} {char : ℤ → BitVec 8}

/-- The loop does not look at numbers that are not positive. -/
theorem digitLoop_of_nonpos {base x : ℤ} {index : ℕ} (hx : x ≤ 0) :
    digitLoop base char (fuel + 1) x buffer index = .ok (buffer, index) :=
  if_neg (Int.not_lt.mpr hx)

/-- One round takes the last digit off a number that is not zero. -/
theorem digitLoop_succ (hvalue : value ≠ 0) : digitLoop base char (fuel + 1) value buffer chars.length =
    store buffer chars.length (char (value % base : ℕ)) >>= fun buffer ↦
      digitLoop base char fuel (value / base : ℕ) buffer (chars.length + 1) := by
  have hpos : (value : ℤ) > 0 := Int.natCast_pos.mpr (Nat.pos_of_ne_zero hvalue)
  rw [digitLoop, if_pos hpos, Int.ofNat_tmod, Int.ofNat_tdiv]

/-- Where there is room for the digits of a number, the loop stores them from the last to the first. -/
theorem exists_digitLoop (hbase : 1 < base) (h : Begins buffer chars)
    (hfuel : (Nat.digits base value).length < fuel)
    (hroom : chars.length + (Nat.digits base value).length ≤ capacity) :
    ∃ buffer', digitLoop base char fuel value buffer chars.length =
        .ok (buffer', chars.length + (Nat.digits base value).length) ∧
      Begins buffer' (chars ++ (Nat.digits base value).map fun digit : ℕ ↦ char digit) := by
  induction fuel generalizing value buffer chars with
  | zero => exact absurd hfuel (Nat.not_lt_zero _)
  | succ fuel ih =>
    by_cases hvalue : value = 0
    · subst hvalue
      rw [Nat.digits_zero, List.length_nil, Nat.add_zero, List.map_nil, List.append_nil]
      exact ⟨buffer, digitLoop_of_nonpos le_rfl, h⟩
    · rw [Nat.digits_eq_cons_digits_div hbase hvalue, List.length_cons] at hfuel hroom ⊢
      obtain ⟨buffer', hstore, hbegins⟩ :=
        exists_store h (show chars.length < capacity by omega) (char (value % base : ℕ))
      have hlength : (chars ++ [char (value % base : ℕ)]).length = chars.length + 1 :=
        List.length_append
      obtain ⟨buffer'', hloop, hbegins'⟩ := ih hbegins (Nat.lt_of_succ_lt_succ hfuel)
        (by rw [hlength]; omega)
      refine ⟨buffer'', ?_, ?_⟩
      · rw [digitLoop_succ hvalue, hstore, ok_bind, ← hlength, hloop, hlength]
        congr 2
        omega
      · rwa [List.append_assoc, List.singleton_append] at hbegins'

/-- Where there is no room, the loop runs over the end of the buffer. -/
theorem digitLoop_eq_error (hbase : 1 < base) (h : Begins buffer chars)
    (hfuel : (Nat.digits base value).length < fuel) (hstart : chars.length ≤ capacity)
    (hroom : capacity < chars.length + (Nat.digits base value).length) :
    digitLoop base char fuel value buffer chars.length = .error .outOfBounds := by
  induction fuel generalizing value buffer chars with
  | zero => exact absurd hfuel (Nat.not_lt_zero _)
  | succ fuel ih =>
    have hvalue : value ≠ 0 := by
      rintro rfl
      rw [Nat.digits_zero, List.length_nil, Nat.add_zero] at hroom
      exact Nat.not_lt.mpr hstart hroom
    rw [Nat.digits_eq_cons_digits_div hbase hvalue, List.length_cons] at hfuel hroom
    rw [digitLoop_succ hvalue]
    rcases Nat.lt_or_ge chars.length capacity with hlt | hge
    · obtain ⟨buffer', hstore, hbegins⟩ := exists_store h hlt (char (value % base : ℕ))
      have hlength : (chars ++ [char (value % base : ℕ)]).length = chars.length + 1 :=
        List.length_append
      rw [hstore, ok_bind, ← hlength]
      exact ih hbegins (Nat.lt_of_succ_lt_succ hfuel) (by omega) (by omega)
    · rw [store_eq_error hge, error_bind]

end Digits

/-! ## The overloads -/

section Overloads

variable {capacity base value : ℕ} {char : ℤ → BitVec 8}

/-- A number for whose digits there is room is written as these digits, the first one in front. -/
theorem logNumber_eq (hbase : 1 < base) (hvalue : value ≠ 0)
    (hfuel : (Nat.digits base value).length < 65) (hroom : (Nat.digits base value).length ≤ capacity) :
    logNumber capacity base char value =
      .ok ((Nat.digits base value).map fun digit : ℕ ↦ char digit).reverse := by
  obtain ⟨buffer, hloop, hbegins⟩ : ∃ buffer : Vector (BitVec 8) capacity,
      digitLoop base char 65 value (Vector.replicate capacity 0) 0 =
        .ok (buffer, 0 + (Nat.digits base value).length) ∧
      Begins buffer ([] ++ (Nat.digits base value).map fun digit : ℕ ↦ char digit) :=
    exists_digitLoop hbase begins_nil hfuel (by rwa [List.length_nil, Nat.zero_add])
  have hwrite := writeLoop_eq hbegins (by rwa [List.nil_append, List.length_map])
  rw [List.nil_append, List.length_map] at hwrite
  rw [logNumber, if_neg (Int.natCast_ne_zero.mpr hvalue), hloop, ok_bind]
  exact (congrArg (writeLoop buffer) (Nat.zero_add _)).trans hwrite

/-- A number with more digits than the buffer has room for is not written at all. -/
theorem logNumber_eq_error (hbase : 1 < base) (hfuel : (Nat.digits base value).length < 65)
    (hroom : capacity < (Nat.digits base value).length) :
    logNumber capacity base char value = .error .outOfBounds := by
  have hvalue : value ≠ 0 := by
    rintro rfl
    rw [Nat.digits_zero] at hroom
    exact Nat.not_lt_zero _ hroom
  have hloop : digitLoop base char 65 value (Vector.replicate capacity 0) 0 = .error .outOfBounds :=
    digitLoop_eq_error hbase begins_nil hfuel (Nat.zero_le _) (by rwa [List.length_nil, Nat.zero_add])
  rw [logNumber, if_neg (Int.natCast_ne_zero.mpr hvalue), hloop, error_bind]

/-- Of a negative number no digit is written. -/
theorem logNumber_of_neg {base x : ℤ} (hx : x < 0) : logNumber capacity base char x = .ok [] := by
  rw [logNumber, if_neg hx.ne, digitLoop_of_nonpos hx.le, ok_bind]
  rfl

/-- The output is the numeral of a number for whose digits there is room. -/
theorem exists_logNumber {digit : BitVec 8 → Option ℕ} (hbase : 1 < base)
    (hzero : digit 48 = some 0) (hchar : ∀ value : ℕ, value < base → digit (char value) = some value)
    (hfuel : (Nat.digits base value).length < 65) (hroom : (Nat.digits base value).length ≤ capacity) :
    ∃ bytes, logNumber capacity base char value = .ok bytes ∧ IsNumeral digit base bytes value := by
  by_cases hvalue : value = 0
  · subst hvalue
    exact ⟨[48], rfl, isNumeral_zero (Nat.zero_lt_of_lt hbase) hzero⟩
  · exact ⟨_, logNumber_eq hbase hvalue hfuel hroom, isNumeral_digits hchar hbase hvalue⟩

end Overloads

end PenelopeOS.Console
