import Mathlib.Data.Nat.Digits.Lemmas

/-!
# Numerals

A numeral is a list of symbols with the most significant one in front. What the symbols stand for is a
parameter, so that the same facts serve every base and every alphabet.
-/

namespace PenelopeOS.Foundation

variable {σ : Type*}

/-- The value of the symbols behind a prefix of the given value, if all of them are digits. -/
def readFrom (digit : σ → Option ℕ) (base value : ℕ) (symbols : List σ) : Option ℕ :=
  symbols.foldlM (fun value symbol ↦ (digit symbol).map (value * base + ·)) value

/-- No symbols at all are no numeral. -/
def readNumeral (digit : σ → Option ℕ) (base : ℕ) : List σ → Option ℕ
  | [] => none
  | symbol :: symbols => readFrom digit base 0 (symbol :: symbols)

/-- The symbols are digits and read as the value, with no zero in front but for the value zero. -/
structure IsNumeral (digit : σ → Option ℕ) (base : ℕ) (symbols : List σ) (value : ℕ) : Prop where
  isDigit : ∀ symbol ∈ symbols, ∃ value < base, digit symbol = some value
  head_ne_zero : value ≠ 0 → ∀ symbol, symbols.head? = some symbol → digit symbol ≠ some 0
  read : readNumeral digit base symbols = some value

variable {digit : σ → Option ℕ} {symbol : ℕ → σ} {base value : ℕ} {symbols : List σ}
  {digits : List ℕ}

theorem isNumeral_zero {zero : σ} (hbase : 0 < base) (hzero : digit zero = some 0) :
    IsNumeral digit base [zero] 0 where
  isDigit _ hmem := ⟨0, hbase, List.mem_singleton.mp hmem ▸ hzero⟩
  head_ne_zero h := absurd rfl h
  read := by
    simp [readNumeral, readFrom, hzero]

section Digits

variable (hsymbol : ∀ value < base, digit (symbol value) = some value)

include hsymbol

theorem readFrom_reverse (hdigits : ∀ value ∈ digits, value < base) :
    readFrom digit base 0 (digits.map symbol).reverse = some (Nat.ofDigits base digits) := by
  induction digits with
  | nil => rfl
  | cons first rest ih =>
    obtain ⟨hfirst, hrest⟩ := List.forall_mem_cons.mp hdigits
    have hih := ih hrest
    rw [readFrom] at hih
    rw [readFrom, List.map_cons, List.reverse_cons, List.foldlM_append, hih]
    simp [hsymbol first hfirst, Nat.ofDigits_cons, Nat.mul_comm, Nat.add_comm]

/-- The digits of a number that is not zero, written from the last to the first, are its numeral. -/
theorem isNumeral_digits (hbase : 1 < base) (hvalue : value ≠ 0) :
    IsNumeral digit base ((Nat.digits base value).map symbol).reverse value where
  isDigit char hmem := by
    obtain ⟨digit, hdigit, rfl⟩ := List.mem_map.mp (List.mem_reverse.mp hmem)
    have hlt := Nat.digits_lt_base hbase hdigit
    exact ⟨digit, hlt, hsymbol digit hlt⟩
  head_ne_zero _ char hhead := by
    have hne : Nat.digits base value ≠ [] := Nat.digits_ne_nil_iff_ne_zero.mpr hvalue
    rw [List.head?_reverse, List.getLast?_map, List.getLast?_eq_some_getLast hne,
      Option.map_some] at hhead
    rw [← Option.some.inj hhead, hsymbol _ (Nat.digits_lt_base hbase (List.getLast_mem hne))]
    intro hzero
    exact Nat.getLast_digit_ne_zero base hvalue (Option.some.inj hzero)
  read := by
    have hne : ((Nat.digits base value).map symbol).reverse ≠ [] := by
      simpa using Nat.digits_ne_nil_iff_ne_zero.mpr hvalue
    obtain ⟨first, rest, hsplit⟩ := List.exists_cons_of_ne_nil hne
    rw [hsplit, readNumeral, ← hsplit,
      readFrom_reverse hsymbol fun digit hdigit ↦ Nat.digits_lt_base hbase hdigit, Nat.ofDigits_digits]

end Digits

end PenelopeOS.Foundation
