import PenelopeOS.Foundation.Fields

/-!
# Sequences of records

Records with optional parts are read back one after the other, when the text behind a record can not be
taken for one of its optional parts.
-/

namespace PenelopeOS.Foundation

variable {σ α : Type*}

section Front

variable [DecidableEq σ] {front text : List σ}

/-- Whether the front is there, and the text without it. -/
def takeFront (front text : List σ) : Bool × List σ :=
  if front <+: text then (true, text.drop front.length) else (false, text)

theorem takeFront_append (front text : List σ) : takeFront front (front ++ text) = (true, text) := by
  rw [takeFront, if_pos (List.prefix_append front text), List.drop_left]

theorem takeFront_absent (h : ¬ front <+: text) : takeFront front text = (false, text) :=
  if_neg h

omit [DecidableEq σ] in
/-- Texts that begin differently. -/
theorem not_prefix_of_take {count : ℕ} {label : List σ} (hcount : count ≤ label.length)
    (htake : front.take count ≠ label.take count) (hfront : count ≤ front.length) (rest : List σ) :
    ¬ front <+: label ++ rest := by
  rintro ⟨back, hback⟩
  apply htake
  have hboth := congrArg (List.take count) hback
  rwa [List.take_append_of_le_length hfront, List.take_append_of_le_length hcount] at hboth

end Front

/-- A number of records from the front of a text. -/
def readMany (read : List σ → Option (α × List σ)) : ℕ → List σ → Option (List α × List σ)
  | 0, text => some ([], text)
  | count + 1, text =>
    (read text).bind fun record ↦
      (readMany read count record.2).map fun records ↦ (record.1 :: records.1, records.2)

/-- The text is that of a record, whatever follows that can follow a record. -/
structure IsRecord (read : List σ → Option (α × List σ)) (follows : List σ → Prop) (text : List σ)
    (value : α) : Prop where
  reads : ∀ rest, follows rest → read (text ++ rest) = some (value, rest)
  follows : ∀ rest, follows (text ++ rest)

/-- A row is a record, and anything can follow it. -/
theorem IsRow.isRecord [DecidableEq σ] {digit : σ → Option ℕ} {base : ℕ} {mark text : List σ}
    {labels : List (List σ)} {row : List ℕ} (h : IsRow digit base mark labels row text)
    (hlabels : ∀ label ∈ labels.tail ++ [mark], Delimits digit label) :
    IsRecord (readRow digit base mark labels) (fun _ ↦ True) text row :=
  ⟨fun rest _ ↦ readRow_append h hlabels rest, fun _ ↦ trivial⟩

variable {read : List σ → Option (α × List σ)} {follows : List σ → Prop} {texts : List (List σ)}
  {values : List α}

theorem readMany_flatten (h : List.Forall₂ (IsRecord read follows) texts values) {rest : List σ}
    (hrest : follows rest) :
    readMany read texts.length (texts.flatten ++ rest) = some (values, rest) ∧
      follows (texts.flatten ++ rest) := by
  induction h with
  | nil => exact ⟨rfl, hrest⟩
  | @cons text value texts values hrecord hrecords ih =>
    obtain ⟨hread, hfollows⟩ := ih
    rw [List.flatten_cons, List.append_assoc]
    refine ⟨?_, hrecord.follows _⟩
    rw [List.length_cons, readMany, hrecord.reads _ hfollows, Option.bind_some, hread]
    rfl

end PenelopeOS.Foundation
