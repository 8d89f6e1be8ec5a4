import PenelopeOS.Foundation.Numeral
import Mathlib.Data.List.TakeWhile

/-!
# Rows of labelled numbers

A row is written as a label and a numeral for each of its numbers, and an end mark. When every label
but the first begins with something that is no digit, and the end mark too, then a row can be read
back from the front of any text, and a text of rows can be read to its end.
-/

namespace PenelopeOS.Foundation

variable {σ : Type*} (digit : σ → Option ℕ) (base : ℕ)

/-- The labels with the numerals of the values behind them, and the end mark. -/
inductive IsRow (mark : List σ) : List (List σ) → List ℕ → List σ → Prop
  | stop : IsRow mark [] [] mark
  | field {labels : List (List σ)} {values : List ℕ} {text label symbols : List σ} {value : ℕ}
      (hnumeral : IsNumeral digit base symbols value) (hrest : IsRow mark labels values text) :
      IsRow mark (label :: labels) (value :: values) (label ++ symbols ++ text)

/-- The texts of rows, one after the other. -/
inductive AreRows (mark : List σ) (labels : List (List σ)) : List (List ℕ) → List σ → Prop
  | nil : AreRows mark labels [] []
  | cons {rows : List (List ℕ)} {row : List ℕ} {text rest : List σ}
      (hrow : IsRow digit base mark labels row text) (hrest : AreRows mark labels rows rest) :
      AreRows mark labels (row :: rows) (text ++ rest)

section Read

variable [DecidableEq σ]

/-- What follows the given front. -/
def dropFront (front text : List σ) : Option (List σ) :=
  if front <+: text then some (text.drop front.length) else none

/-- The values of a row at the front of the text, and what follows the row. -/
def readRow (mark : List σ) : List (List σ) → List σ → Option (List ℕ × List σ)
  | [], text => (dropFront mark text).map fun rest ↦ ([], rest)
  | label :: labels, text =>
    (dropFront label text).bind fun rest ↦
      (readNumeral digit base (rest.takeWhile fun symbol ↦ (digit symbol).isSome)).bind fun value ↦
        (readRow mark labels (rest.dropWhile fun symbol ↦ (digit symbol).isSome)).map fun row ↦
          (value :: row.1, row.2)

/-- The values of all rows of the text, of which there are less than `fuel`. -/
def readRowsBelow (mark : List σ) (labels : List (List σ)) : ℕ → List σ → Option (List (List ℕ))
  | 0, _ => none
  | fuel + 1, text =>
    if text = [] then some []
    else (readRow digit base mark labels text).bind fun row ↦
      (readRowsBelow mark labels fuel row.2).map (row.1 :: ·)

def readRows (mark : List σ) (labels : List (List σ)) (text : List σ) : Option (List (List ℕ)) :=
  readRowsBelow digit base mark labels (text.length + 1) text

end Read

/-- No numeral runs on into the text. -/
def Delimits (text : List σ) : Prop := ∃ symbol rest, text = symbol :: rest ∧ digit symbol = none

variable {digit base} {mark text rest : List σ} {labels : List (List σ)} {row : List ℕ}
  {rows : List (List ℕ)} {symbols : List σ} {value : ℕ}

theorem Delimits.append (h : Delimits digit text) (rest : List σ) : Delimits digit (text ++ rest) := by
  obtain ⟨symbol, tail, rfl, hdigit⟩ := h
  exact ⟨symbol, tail ++ rest, rfl, hdigit⟩

/-- A numeral ends where the digits end. -/
theorem span_numeral (hsymbols : ∀ symbol ∈ symbols, (digit symbol).isSome) (h : Delimits digit rest) :
    (symbols ++ rest).takeWhile (fun symbol ↦ (digit symbol).isSome) = symbols ∧
      (symbols ++ rest).dropWhile (fun symbol ↦ (digit symbol).isSome) = rest := by
  obtain ⟨symbol, tail, rfl, hdigit⟩ := h
  rw [List.takeWhile_append_of_pos hsymbols, List.dropWhile_append_of_pos hsymbols,
    List.takeWhile_cons_of_neg (by simp [hdigit]), List.dropWhile_cons_of_neg (by simp [hdigit]),
    List.append_nil]
  exact ⟨rfl, rfl⟩

/-- A row is delimited as its first label is, or its end mark when it has none. -/
theorem IsRow.delimits (h : IsRow digit base mark labels row text)
    (hlabels : ∀ label ∈ labels ++ [mark], Delimits digit label) : Delimits digit text := by
  cases h with
  | stop => exact hlabels mark (by simp)
  | @field labels values text label symbols value hnumeral hrest =>
    rw [List.append_assoc]
    exact (hlabels label (by simp)).append _

theorem IsRow.ne_nil (h : IsRow digit base mark labels row text) (hmark : mark ≠ []) : text ≠ [] := by
  induction h with
  | stop => exact hmark
  | field hnumeral hrest ih => exact List.append_ne_nil_of_right_ne_nil _ ih

theorem AreRows.length_le (h : AreRows digit base mark labels rows text) (hmark : mark ≠ []) :
    rows.length ≤ text.length := by
  induction h with
  | nil => exact le_rfl
  | cons hrow hrest ih =>
    have hpos := List.length_pos_iff.mpr (hrow.ne_nil hmark)
    rw [List.length_cons, List.length_append]
    omega

variable [DecidableEq σ]

@[simp]
theorem dropFront_append (front text : List σ) : dropFront front (front ++ text) = some text := by
  rw [dropFront, if_pos (List.prefix_append front text), List.drop_left]

theorem readRow_append (h : IsRow digit base mark labels row text)
    (hlabels : ∀ label ∈ labels.tail ++ [mark], Delimits digit label) (rest : List σ) :
    readRow digit base mark labels (text ++ rest) = some (row, rest) := by
  induction h with
  | stop => rw [readRow, dropFront_append, Option.map_some]
  | @field labels values text label symbols value hnumeral hrest ih =>
    have htail : ∀ label ∈ labels.tail ++ [mark], Delimits digit label := by
      intro label hmem
      apply hlabels
      rcases List.mem_append.mp hmem with hmem | hmem
      · exact List.mem_append_left _ (List.mem_of_mem_tail hmem)
      · exact List.mem_append_right _ hmem
    have hsymbols : ∀ symbol ∈ symbols, (digit symbol).isSome := by
      intro symbol hmem
      obtain ⟨digit, -, hdigit⟩ := hnumeral.isDigit symbol hmem
      exact Option.isSome_iff_exists.mpr ⟨digit, hdigit⟩
    obtain ⟨htake, hdrop⟩ := span_numeral hsymbols ((hrest.delimits hlabels).append rest)
    rw [readRow, List.append_assoc, List.append_assoc, dropFront_append, Option.bind_some, htake, hdrop,
      hnumeral.read, Option.bind_some, ih htail]
    rfl

theorem AreRows.readBelow (h : AreRows digit base mark labels rows text)
    (hlabels : ∀ label ∈ labels.tail ++ [mark], Delimits digit label) (hmark : mark ≠ [])
    {fuel : ℕ} (hfuel : rows.length < fuel) :
    readRowsBelow digit base mark labels fuel text = some rows := by
  induction h generalizing fuel with
  | nil =>
    obtain ⟨fuel, rfl⟩ : ∃ rounds, fuel = rounds + 1 := ⟨fuel - 1, by omega⟩
    rw [readRowsBelow, if_pos rfl]
  | @cons rows row text rest hrow hrest ih =>
    rw [List.length_cons] at hfuel
    obtain ⟨fuel, rfl⟩ : ∃ rounds, fuel = rounds + 1 := ⟨fuel - 1, by omega⟩
    have hne : text ++ rest ≠ [] := List.append_ne_nil_of_left_ne_nil (hrow.ne_nil hmark) _
    rw [readRowsBelow, if_neg hne, readRow_append hrow hlabels, Option.bind_some,
      ih (Nat.succ_lt_succ_iff.mp hfuel)]
    rfl

/-- A text of rows is read back. -/
theorem AreRows.read (h : AreRows digit base mark labels rows text)
    (hlabels : ∀ label ∈ labels.tail ++ [mark], Delimits digit label) (hmark : mark ≠ []) :
    readRows digit base mark labels text = some rows :=
  h.readBelow hlabels hmark (Nat.lt_succ_of_le (h.length_le hmark))

end PenelopeOS.Foundation
