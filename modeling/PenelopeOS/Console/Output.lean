import PenelopeOS.Console.Kostream
import PenelopeOS.Foundation.Records

/-!
# Sequences of insertions into `kout`

A statement inserts items from left to right, and the mode that one of them sets stays for those that
follow. A line break is written as the two bytes that a terminal expects, unless it is part of a
`std::string`. A statement that inserts labels and numbers in turn writes a row that can be read back.
-/

namespace PenelopeOS.Console

open Machine Foundation

/-- The bytes of a literal. -/
def ascii (literal : String) : List (BitVec 8) := literal.toList.map fun char ↦ BitVec.ofNat 8 char.toNat

/-- `logger::log(const char*)`, for the characters in front of the final zero -/
def logText : List (BitVec 8) → List (BitVec 8)
  | [] => []
  | ch :: st => if ch = 10 then 13 :: 10 :: logText st else ch :: logText st

/-- What `operator<<` takes. The unsigned types have at most 64 bits. -/
inductive Item where
  | int (i : BitVec 32)
  | number {width : ℕ} (hwidth : width ≤ 64) (i : BitVec width)
  | char (ch : BitVec 8)
  | text (st : List (BitVec 8))
  | string (st : List (BitVec 8))
  | mode (im : Intmode)

/-- An item of the type `std::uint64_t`. -/
def Item.word (i : BitVec 64) : Item := .number le_rfl i

def Item.byte (i : BitVec 8) : Item := .number (show 8 ≤ 64 by decide) i

def Item.short (i : BitVec 16) : Item := .number (show 16 ≤ 64 by decide) i

namespace Kostream

/-- `operator<<` -/
def put (out : Kostream) : Item → Except Fault (List (BitVec 8) × Kostream)
  | .int i => do return (← out.insertInt i, out)
  | .number _ i => do return (← out.insert i, out)
  | .char ch => return (if ch = 10 then [13, 10] else [ch], out)
  | .text st => return (logText st, out)
  | .string st => return (st, out)
  | .mode im => return ([], out.insertMode im)

/-- A chain of insertions. -/
def write (out : Kostream) : List Item → Except Fault (List (BitVec 8) × Kostream)
  | [] => .ok ([], out)
  | item :: items => do
    let (bytes, out) ← out.put item
    let (rest, out) ← out.write items
    return (bytes ++ rest, out)

variable {out out' out'' : Kostream} {items items' : List Item} {item : Item}
  {bytes bytes' : List (BitVec 8)}

theorem write_cons (hput : out.put item = .ok (bytes, out'))
    (hwrite : out'.write items = .ok (bytes', out'')) :
    out.write (item :: items) = .ok (bytes ++ bytes', out'') := by
  simp only [write, hput, ok_bind, hwrite]
  rfl

theorem write_append (hfirst : out.write items = .ok (bytes, out'))
    (hsecond : out'.write items' = .ok (bytes', out'')) :
    out.write (items ++ items') = .ok (bytes ++ bytes', out'') := by
  induction items generalizing out bytes with
  | nil =>
    obtain ⟨rfl, rfl⟩ := Prod.mk.inj (Except.ok.inj hfirst)
    exact hsecond
  | cons item items ih =>
    obtain ⟨⟨front, middle⟩, hput, hrest⟩ := bind_eq_ok_iff.mp hfirst
    obtain ⟨⟨back, last⟩, hwrite, hpure⟩ := bind_eq_ok_iff.mp hrest
    obtain ⟨rfl, rfl⟩ := Prod.mk.inj (Except.ok.inj hpure)
    rw [List.append_assoc]
    exact write_cons hput (ih hwrite)

end Kostream

/-! ## Rows -/

/-- The base of the digits that a mode prints. -/
def Intmode.base : Intmode → ℕ
  | .dec => 10
  | .hex => 16
  | .bin => 2

variable {out out' : Kostream} {base : ℕ} {label mark bytes : List (BitVec 8)} {value : ℕ}

/-- The item is printed as a numeral of the value. -/
def PrintsAs (out : Kostream) (base : ℕ) (item : Item) (value : ℕ) : Prop :=
  ∃ bytes, out.put item = .ok (bytes, out) ∧ IsNumeral (digitOf base) base bytes value

theorem printsAs_number_hex (hmode : out.mode = .hex) {width : ℕ} (hwidth : width ≤ 64)
    (i : BitVec width) : PrintsAs out 16 (.number hwidth i) i.toNat := by
  obtain ⟨bytes, hlog, hnumeral⟩ := exists_logHex (i.setWidth 64)
  have hsame : (i.setWidth 64).toNat = i.toNat := by
    rw [BitVec.toNat_setWidth, Nat.mod_eq_of_lt]
    exact i.isLt.trans_le (Nat.pow_le_pow_right (by decide) hwidth)
  refine ⟨bytes, ?_, hsame ▸ hnumeral⟩
  simp only [Kostream.put, Kostream.insert, hmode, hlog, ok_bind]
  rfl

theorem printsAs_word_hex (hmode : out.mode = .hex) (i : BitVec 64) :
    PrintsAs out 16 (.word i) i.toNat :=
  printsAs_number_hex hmode le_rfl i

theorem printsAs_number_dec (hmode : out.mode = .dec) {width : ℕ} (hwidth : width ≤ 64)
    (i : BitVec width) : PrintsAs out 10 (.number hwidth i) i.toNat := by
  obtain ⟨bytes, hlog, hnumeral⟩ := exists_log hwidth i
  refine ⟨bytes, ?_, hnumeral⟩
  simp only [Kostream.put, Kostream.insert, hmode, hlog, ok_bind]
  rfl

/-- A number of at most 20 bits is printed in every mode, for there is room for that many digits in
binary. -/
theorem printsAs_number (out : Kostream) {width : ℕ} (hwidth : width ≤ 20) (i : BitVec width) :
    PrintsAs out out.mode.base (.number (hwidth.trans (by decide)) i) i.toNat := by
  have hvalue : i.toNat < 2 ^ 20 := i.isLt.trans_le (Nat.pow_le_pow_right (by decide) hwidth)
  have hsame : (i.setWidth 64).toNat = i.toNat := by
    rw [BitVec.toNat_setWidth, Nat.mod_eq_of_lt (hvalue.trans (by decide))]
  cases out with | mk mode => ?_
  cases mode with
  | dec => exact printsAs_number_dec rfl _ i
  | hex => exact printsAs_number_hex rfl _ i
  | bin =>
    obtain ⟨bytes, hlog, hnumeral⟩ : ∃ bytes, logBin (i.setWidth 64) 0 = .ok bytes ∧
        IsNumeral (digitOf 2) 2 bytes (i.setWidth 64).toNat :=
      exists_logNumber (by decide) rfl digitOf_binaryChar
        (length_digits_lt (by decide) (BitVec.isLt _))
        ((Nat.digits_length_le_iff (by decide) _).mpr (hsame ▸ hvalue))
    refine ⟨bytes, ?_, hsame ▸ hnumeral⟩
    simp only [Kostream.put, Kostream.insert, hlog, ok_bind]
    rfl

/-- A number of the type `int` that is not negative. -/
theorem printsAs_int (out : Kostream) {i : BitVec 32} {value : ℕ} (hvalue : i.toInt = value) :
    PrintsAs out 10 (.int i) value := by
  have hlt : value < 2 ^ 31 := by
    have := BitVec.toInt_lt (x := i)
    omega
  have hroom : (Nat.digits 10 value).length ≤ 100 :=
    (Nat.digits_length_le_iff (by decide) _).mpr (hlt.trans_le (by decide))
  obtain ⟨bytes, hlog, hnumeral⟩ := exists_logNumber (by decide) rfl digitOf_decimalChar
    (length_digits_lt (by decide) (hlt.trans (by decide))) hroom
  refine ⟨bytes, ?_, hnumeral⟩
  have hinsert : out.insertInt i = .ok bytes := by
    rw [Kostream.insertInt, logInt, hvalue]
    exact hlog
  simp only [Kostream.put, hinsert, ok_bind]
  rfl

/-- A number with the items in front of it. -/
structure Field where
  front : List Item
  item : Item

/-- The field is printed as the label and a numeral of the value. -/
def Field.Shows (out : Kostream) (base : ℕ) (field : Field) (shown : List (BitVec 8) × ℕ) : Prop :=
  out.write field.front = .ok (shown.1, out) ∧ PrintsAs out base field.item shown.2

def rowItems (fields : List Field) : List Item :=
  fields.flatMap fun field ↦ field.front ++ [field.item]

/-- Fields in a row are printed as a row. -/
theorem exists_write_row {fields : List Field} {shown : List (List (BitVec 8) × ℕ)}
    {last : List Item} (h : List.Forall₂ (Field.Shows out base) fields shown)
    (hlast : out.write last = .ok (mark, out)) :
    ∃ text, out.write (rowItems fields ++ last) = .ok (text, out) ∧
      IsRow (digitOf base) base mark (shown.map Prod.fst) (shown.map Prod.snd) text := by
  induction h with
  | nil => exact ⟨mark, hlast, .stop⟩
  | @cons field shown fields rest hfield hfields ih =>
    obtain ⟨hfront, bytes, hput, hnumeral⟩ := hfield
    obtain ⟨text, hwrite, hrow⟩ := ih
    refine ⟨shown.1 ++ bytes ++ text, ?_, .field hnumeral hrow⟩
    rw [rowItems, List.flatMap_cons, List.append_assoc, List.append_assoc, List.append_assoc]
    exact Kostream.write_append hfront (Kostream.write_cons hput hwrite)

theorem logText_eq_self (h : 10 ∉ label) : logText label = label := by
  induction label with
  | nil => rfl
  | cons ch st ih =>
    rw [List.mem_cons, not_or] at h
    rw [logText, if_neg (Ne.symm h.1), ih h.2]

/-- A text and a line break behind it. -/
theorem write_line (h : 10 ∉ label) (out : Kostream) :
    out.write [.text label, .char 10] = .ok (label ++ [13, 10], out) := by
  change Except.ok (logText label ++ [13, 10], out) = _
  rw [logText_eq_self h]

/-! ## Records -/

/-- Insertions that each write a record are read back one after the other, in front of any text that can
follow a record. -/
theorem exists_write_records_rest {ι α : Type*} (indices : List ι) {items : ι → List Item}
    {read : List (BitVec 8) → Option (α × List (BitVec 8))} {follows : List (BitVec 8) → Prop}
    {record : ι → α}
    (h : ∀ index ∈ indices, ∃ text, out.write (items index) = .ok (text, out) ∧
      IsRecord read follows text (record index)) :
    ∃ text, out.write (indices.flatMap items) = .ok (text, out) ∧ ∀ rest, follows rest →
      readMany read indices.length (text ++ rest) = some (indices.map record, rest) := by
  have hall : ∃ texts, out.write (indices.flatMap items) = .ok (texts.flatten, out) ∧
      List.Forall₂ (IsRecord read follows) texts (indices.map record) := by
    induction indices with
    | nil => exact ⟨[], rfl, .nil⟩
    | cons index indices ih =>
      obtain ⟨⟨text, hwrite, hrecord⟩, hrest⟩ := List.forall_mem_cons.mp h
      obtain ⟨texts, hwrites, hrecords⟩ := ih hrest
      exact ⟨text :: texts, Kostream.write_append hwrite hwrites, .cons hrecord hrecords⟩
  obtain ⟨texts, hwrite, hrecords⟩ := hall
  have hlength : texts.length = indices.length := by
    rw [hrecords.length_eq, List.length_map]
  refine ⟨texts.flatten, hwrite, fun rest hrest ↦ ?_⟩
  rw [← hlength]
  exact (readMany_flatten hrecords hrest).1

theorem exists_write_records {ι α : Type*} (indices : List ι) {items : ι → List Item}
    {read : List (BitVec 8) → Option (α × List (BitVec 8))} {follows : List (BitVec 8) → Prop}
    {record : ι → α} (hempty : follows [])
    (h : ∀ index ∈ indices, ∃ text, out.write (items index) = .ok (text, out) ∧
      IsRecord read follows text (record index)) :
    ∃ text, out.write (indices.flatMap items) = .ok (text, out) ∧
      readMany read indices.length text = some (indices.map record, []) := by
  obtain ⟨text, hwrite, hread⟩ := exists_write_records_rest indices h
  have hall := hread [] hempty
  rw [List.append_nil] at hall
  exact ⟨text, hwrite, hall⟩

end PenelopeOS.Console
