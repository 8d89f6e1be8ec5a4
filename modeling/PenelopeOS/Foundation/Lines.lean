import PenelopeOS.Foundation.Fields

/-!
# Numbers that a log reports

A log is a text of lines. A line reports a number when it begins with a given front and a numeral
follows. What a log reports is read line by line, so it does not depend on what the other lines say.
-/

namespace PenelopeOS.Foundation

variable {σ : Type*} [DecidableEq σ] (newline : σ)

/-- The lines of a text without the symbols that end them. What follows the last one is no line. -/
def lines : List σ → List (List σ)
  | [] => []
  | symbol :: text =>
    if symbol = newline then [] :: lines text
    else
      match lines text with
      | [] => []
      | line :: rest => (symbol :: line) :: rest

/-- The number behind the front. -/
def reportOf (digit : σ → Option ℕ) (base : ℕ) (front line : List σ) : Option ℕ :=
  (dropFront front line).bind fun rest ↦
    readNumeral digit base (rest.takeWhile fun symbol ↦ (digit symbol).isSome)

/-- The numbers that the lines of a text report, in their order. -/
def reports (digit : σ → Option ℕ) (base : ℕ) (front text : List σ) : List ℕ :=
  (lines newline text).filterMap (reportOf digit base front)

variable {newline} {digit : σ → Option ℕ} {base value : ℕ} {front line rest symbols : List σ}

theorem lines_append (hline : newline ∉ line) (rest : List σ) :
    lines newline (line ++ newline :: rest) = line :: lines newline rest := by
  induction line with
  | nil => rw [List.nil_append, lines, if_pos rfl]
  | cons symbol line ih =>
    rw [List.mem_cons, not_or] at hline
    rw [List.cons_append, lines, if_neg (Ne.symm hline.1), ih hline.2]

theorem reports_append (hline : newline ∉ line) (rest : List σ) :
    reports newline digit base front (line ++ newline :: rest) =
      (reportOf digit base front line).toList ++ reports newline digit base front rest := by
  rw [reports, lines_append hline, List.filterMap_cons]
  cases reportOf digit base front line <;> rfl

/-- A line that begins otherwise reports nothing. -/
theorem reportOf_eq_none (h : ¬ front <+: line) : reportOf digit base front line = none := by
  rw [reportOf, dropFront, if_neg h, Option.bind_none]

theorem reportOf_append (hnumeral : IsNumeral digit base symbols value) (hrest : Delimits digit rest) :
    reportOf digit base front (front ++ symbols ++ rest) = some value := by
  have hsymbols : ∀ symbol ∈ symbols, (digit symbol).isSome := by
    intro symbol hmem
    obtain ⟨digit, -, hdigit⟩ := hnumeral.isDigit symbol hmem
    exact Option.isSome_iff_exists.mpr ⟨digit, hdigit⟩
  rw [reportOf, List.append_assoc, dropFront_append, Option.bind_some, (span_numeral hsymbols hrest).1,
    hnumeral.read]

omit [DecidableEq σ] in
/-- The text of a row ends with its mark, and what is in front of the mark begins with the first label.
A symbol that is no digit and is in no label is not there. -/
theorem IsRow.exists_body {mark : List σ} {labels : List (List σ)} {row : List ℕ} {text : List σ}
    {symbol : σ} (h : IsRow digit base mark labels row text) (hdigit : digit symbol = none)
    (hlabels : ∀ label ∈ labels, symbol ∉ label) :
    ∃ body, text = body ++ mark ∧ symbol ∉ body ∧ ∀ label ∈ labels.head?, label <+: body := by
  induction h with
  | stop => exact ⟨[], rfl, List.not_mem_nil, by simp⟩
  | @field labels row text label symbols value hnumeral hrest ih =>
    obtain ⟨hlabel, hothers⟩ := List.forall_mem_cons.mp hlabels
    obtain ⟨body, rfl, hbody, -⟩ := ih hothers
    refine ⟨label ++ symbols ++ body, (List.append_assoc _ _ _).symm, ?_, fun first hfirst ↦ ?_⟩
    · rw [List.mem_append, List.mem_append]
      rintro ((hmem | hmem) | hmem)
      · exact hlabel hmem
      · obtain ⟨digit, -, hsome⟩ := hnumeral.isDigit symbol hmem
        cases hdigit.symm.trans hsome
      · exact hbody hmem
    · obtain rfl : label = first := Option.some.inj hfirst
      rw [List.append_assoc]
      exact List.prefix_append _ _

omit [DecidableEq σ] in
/-- Two texts with different first symbols. -/
theorem not_prefix_of_head {first other : σ} {text : List σ} (hfront : front.head? = some first)
    (hline : line.head? = some other) (hne : first ≠ other) (hstart : line <+: text) :
    ¬ front <+: text := by
  rintro ⟨rest, rfl⟩
  obtain ⟨rest', htext⟩ := hstart
  have hfirst : (front ++ rest).head? = some first := by
    rw [List.head?_append, hfront, Option.some_or]
  have hother : (line ++ rest').head? = some other := by
    rw [List.head?_append, hline, Option.some_or]
  rw [htext, hfirst] at hother
  exact hne (Option.some.inj hother)

end PenelopeOS.Foundation
