import PenelopeOS.Console.Output
import PenelopeOS.Foundation.Lines

/-!
# What a sequence of insertions reports

Insertions that leave the mode alone and end with a line break write whole lines, so the numbers that
they report can be told for each of them apart.
-/

namespace PenelopeOS.Console

open Machine Foundation

/-- The numbers that the lines of a text report behind the front, as the mode prints them. -/
def Kostream.reports (out : Kostream) (front text : List (BitVec 8)) : List ℕ :=
  Foundation.reports 10 (digitOf out.mode.base) out.mode.base front text

/-- The items are written as lines that report the values. -/
def Tells (out : Kostream) (front : List (BitVec 8)) (items : List Item) (values : List ℕ) : Prop :=
  ∃ text, out.write items = .ok (text, out) ∧
    ∀ rest, out.reports front (text ++ rest) = values ++ out.reports front rest

variable {out : Kostream} {front line label bytes : List (BitVec 8)} {items items' : List Item}
  {values values' : List ℕ} {item : Item} {value : ℕ}

theorem digitOf_newline (out : Kostream) : digitOf out.mode.base 10 = none := by
  cases out.mode <;> rfl

theorem digitOf_return (out : Kostream) : digitOf out.mode.base 13 = none := by
  cases out.mode <;> rfl

theorem digitOf_space (out : Kostream) : digitOf out.mode.base 32 = none := by
  cases out.mode <;> rfl

/-- In decimal and in hexadecimal, numbers of any size are printed as numerals. -/
theorem printsAs_unsigned (hmode : out.mode ≠ .bin) {width : ℕ} (hwidth : width ≤ 64)
    (i : BitVec width) : PrintsAs out out.mode.base (.number hwidth i) i.toNat := by
  cases hcases : out.mode with
  | dec => exact printsAs_number_dec hcases hwidth i
  | hex => exact printsAs_number_hex hcases hwidth i
  | bin => exact absurd hcases hmode

theorem printsAs_word (hmode : out.mode ≠ .bin) (i : BitVec 64) :
    PrintsAs out out.mode.base (.word i) i.toNat :=
  printsAs_unsigned hmode le_rfl i

theorem shows_text (hlabel : 10 ∉ label) (hitem : PrintsAs out out.mode.base item value) :
    Field.Shows out out.mode.base ⟨[.text label], item⟩ (label, value) := by
  refine ⟨?_, hitem⟩
  change Except.ok (logText label ++ [], out) = _
  rw [List.append_nil, logText_eq_self hlabel]

/-- A label in a line of its own. -/
theorem shows_nextLine (hlabel : 10 ∉ label) (hitem : PrintsAs out out.mode.base item value) :
    Field.Shows out out.mode.base ⟨[.char 10, .text label], item⟩ ([13, 10] ++ label, value) := by
  refine ⟨?_, hitem⟩
  change Except.ok ([13, 10] ++ (logText label ++ []), out) = _
  rw [List.append_nil, logText_eq_self hlabel]

/-- A label behind a line of text. -/
theorem shows_underLine (hline : 10 ∉ line) (hlabel : 10 ∉ label)
    (hitem : PrintsAs out out.mode.base item value) :
    Field.Shows out out.mode.base ⟨[.text line, .char 10, .text label], item⟩
      (line ++ [13, 10] ++ label, value) := by
  refine ⟨?_, hitem⟩
  change Except.ok (logText line ++ ([13, 10] ++ (logText label ++ [])), out) = _
  rw [List.append_nil, logText_eq_self hline, logText_eq_self hlabel, List.append_assoc]

/-! ## Lines -/

theorem tells_nil : Tells out front [] [] := ⟨[], rfl, fun _ ↦ rfl⟩

theorem Tells.append (h : Tells out front items values) (h' : Tells out front items' values') :
    Tells out front (items ++ items') (values ++ values') := by
  obtain ⟨text, hwrite, hreports⟩ := h
  obtain ⟨text', hwrite', hreports'⟩ := h'
  refine ⟨text ++ text', Kostream.write_append hwrite hwrite', fun rest ↦ ?_⟩
  rw [List.append_assoc, hreports, hreports', List.append_assoc]

theorem tells_flatMap {α : Type*} {list : List α} {items : α → List Item} {values : α → List ℕ}
    (h : ∀ entry ∈ list, Tells out front (items entry) (values entry)) :
    Tells out front (list.flatMap items) (list.flatMap values) := by
  induction list with
  | nil => exact tells_nil
  | cons entry list ih =>
    obtain ⟨hentry, hlist⟩ := List.forall_mem_cons.mp h
    rw [List.flatMap_cons, List.flatMap_cons]
    exact hentry.append (ih hlist)

theorem not_mem_return (hline : 10 ∉ line) : 10 ∉ line ++ [13] := by
  intro hmem
  rcases List.mem_append.mp hmem with hmem | hmem
  · exact hline hmem
  · exact absurd hmem (by decide)

theorem tells_line (hwrite : out.write items = .ok (line ++ [10], out)) (hline : 10 ∉ line)
    (front : List (BitVec 8)) :
    Tells out front items (reportOf (digitOf out.mode.base) out.mode.base front line).toList := by
  refine ⟨line ++ [10], hwrite, fun rest ↦ ?_⟩
  rw [List.append_assoc, List.singleton_append, Kostream.reports, reports_append hline]
  rfl

/-- A text with no number, and an empty line. -/
theorem tells_banner (hlabel : 10 ∉ label) (hfront : ¬ front <+: label ++ [13])
    (hempty : ¬ front <+: [13]) :
    Tells out front [.text label, .text (ascii "\n\n")] [] := by
  refine ⟨label ++ [13] ++ 10 :: ([13] ++ [10]), ?_, fun rest ↦ ?_⟩
  · change Except.ok (logText label ++ [13, 10, 13, 10], out) = _
    rw [logText_eq_self hlabel, List.append_assoc]
    rfl
  · have hreturn : 10 ∉ ([13] : List (BitVec 8)) := by decide
    have hsplit : label ++ [13] ++ 10 :: ([13] ++ [10]) ++ rest =
        (label ++ [13]) ++ 10 :: ([13] ++ 10 :: rest) := by
      simp
    rw [hsplit, Kostream.reports, reports_append (not_mem_return hlabel), reports_append hreturn,
      reportOf_eq_none hfront, reportOf_eq_none hempty]
    rfl

/-- A text with no number. -/
theorem tells_text (hlabel : 10 ∉ label) (hfront : ¬ front <+: label ++ [13]) :
    Tells out front [.text label, .char 10] [] := by
  have hwrite : out.write [.text label, .char 10] = .ok (label ++ [13] ++ [10], out) := by
    change Except.ok (logText label ++ [13, 10], out) = _
    rw [logText_eq_self hlabel, List.append_assoc]
    rfl
  have hline := tells_line hwrite (not_mem_return hlabel) front
  rwa [reportOf_eq_none hfront] at hline

/-- A row of numbers whose first label begins otherwise than the front. -/
theorem tells_row {fields : List Field} {shown : List (List (BitVec 8) × ℕ)} {first other : BitVec 8}
    (h : List.Forall₂ (Field.Shows out out.mode.base) fields shown)
    (hlabels : ∀ entry ∈ shown, 10 ∉ entry.1) (hfront : front.head? = some first)
    (hother : (shown.head?.bind fun entry ↦ entry.1.head?) = some other) (hne : first ≠ other) :
    Tells out front (rowItems fields ++ [.char 10]) [] := by
  obtain ⟨text, hwrite, hrow⟩ := exists_write_row h
    (show out.write [.char 10] = .ok ([13, 10], out) from rfl)
  have hnewline : ∀ label ∈ shown.map Prod.fst, 10 ∉ label := by
    intro label hlabel
    obtain ⟨entry, hentry, rfl⟩ := List.mem_map.mp hlabel
    exact hlabels entry hentry
  obtain ⟨body, rfl, hbody, hstart⟩ := hrow.exists_body (digitOf_newline out) hnewline
  obtain ⟨entry, hentry, hhead⟩ := Option.bind_eq_some_iff.mp hother
  have hlabel : entry.1 <+: body := by
    apply hstart
    rw [List.head?_map, hentry]
    rfl
  have hline : out.write (rowItems fields ++ [.char 10]) = .ok (body ++ [13] ++ [10], out) := by
    rw [hwrite, List.append_assoc]
    rfl
  have htells := tells_line hline (not_mem_return hbody) front
  rwa [reportOf_eq_none (not_prefix_of_head hfront hhead hne
    (hlabel.trans (List.prefix_append _ _)))] at htells

theorem not_mem_numeral (hnumeral : IsNumeral (digitOf out.mode.base) out.mode.base bytes value) :
    10 ∉ bytes := by
  intro hmem
  obtain ⟨digit, -, hdigit⟩ := hnumeral.isDigit 10 hmem
  cases (digitOf_newline out).symm.trans hdigit

/-- A line that reports a number and goes on behind it. -/
theorem tells_report_rest (hfront : 10 ∉ front) (hitem : PrintsAs out out.mode.base item value)
    (hrest : out.write items = .ok (line ++ [10], out)) (hline : 10 ∉ line)
    (hdelimits : Delimits (digitOf out.mode.base) line) :
    Tells out front (.text front :: item :: items) [value] := by
  obtain ⟨bytes, hput, hnumeral⟩ := hitem
  have hboth : 10 ∉ front ++ bytes ++ line := by
    rw [List.mem_append, List.mem_append]
    rintro ((hmem | hmem) | hmem)
    · exact hfront hmem
    · exact not_mem_numeral hnumeral hmem
    · exact hline hmem
  have hwrite : out.write (.text front :: item :: items) =
      .ok (front ++ bytes ++ line ++ [10], out) := by
    have htext : out.put (.text front) = .ok (front, out) := by
      rw [Kostream.put, logText_eq_self hfront]
      rfl
    rw [Kostream.write_cons htext (Kostream.write_cons hput hrest), List.append_assoc, List.append_assoc]
  have htells := tells_line hwrite hboth front
  rwa [reportOf_append hnumeral hdelimits] at htells

/-- The line that reports a number. -/
theorem tells_report (hfront : 10 ∉ front) (hitem : PrintsAs out out.mode.base item value) :
    Tells out front [.text front, item, .char 10] [value] :=
  tells_report_rest hfront hitem (show out.write [.char 10] = .ok ([13] ++ [10], out) from rfl)
    (by decide) ⟨13, [], rfl, digitOf_return out⟩

end PenelopeOS.Console
