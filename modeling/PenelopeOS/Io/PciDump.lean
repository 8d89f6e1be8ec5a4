import PenelopeOS.Console.Reports
import PenelopeOS.Io.Pci

/-!
# What `EnumeratePCI` shows of the configuration space

A device takes three lines, which read back as the numbers of its report. The text tells of every device
whether it exists and what register 0 of its first function holds, and nothing else.
-/

namespace PenelopeOS.Io

open Console Machine Foundation

/-- The lines for a device. -/
def reportItems (report : Report) : List Item :=
  [.text (ascii "Bus :: "), .number (show 32 ≤ 64 by decide) report.bus,
    .text (ascii " :: dev :: "), .number (show 32 ≤ 64 by decide) report.dev,
    .text (ascii " :: Vendorid :: "), .number (show 32 ≤ 64 by decide) report.vendorid,
    .text (ascii " :: Deviceid :: "), .number (show 32 ≤ 64 by decide) report.deviceid, .char 10,
    .text (ascii "Underlying :: "), .number (show 32 ≤ 64 by decide) report.underlying, .char 10,
    .text (ascii "---"), .char 10]

/-- `EnumeratePCI`, with what it prints -/
def enumeratePCIPrinted (ports : Ports) (out : Kostream) :
    Except Fault (List (BitVec 8) × Kostream × Ports) := do
  let (reports, ports) ← enumeratePCI ports
  let (text, out) ← out.write (reports.flatMap reportItems)
  return (text, out, ports)

def reportLabels : List (List (BitVec 8)) :=
  [ascii "Bus :: ", ascii " :: dev :: ", ascii " :: Vendorid :: ", ascii " :: Deviceid :: ",
    13 :: 10 :: ascii "Underlying :: "]

/-- The end of the lines for a device. -/
def reportMark : List (BitVec 8) := [13, 10, 45, 45, 45, 13, 10]

/-- The numbers in the lines for a device. -/
def reportRow (report : Report) : List ℕ :=
  [report.bus.toNat, report.dev.toNat, report.vendorid.toNat, report.deviceid.toNat,
    report.underlying.toNat]

/-- What can be seen of a device: register 0 of its first function, unless that says that it does not
exist. -/
def visible (space : ConfigurationSpace) (bus : BitVec 8) (dev : BitVec 5) : Option (BitVec 32) :=
  if space.vendorId bus dev = 0xFFFF then none else some (space bus dev 0 0)

/-! ## The reports of a space -/

variable {space space' : ConfigurationSpace} {report : Report}

/-- The reports for all devices. -/
def reportsOf (space : ConfigurationSpace) : List Report :=
  (List.range' 0 256).flatMap (reportsOfBus space)

theorem enumeratePCI_eq (ports : Ports) :
    ∃ ports', enumeratePCI ports = .ok (reportsOf ports.space, ports') ∧ ports'.space = ports.space :=
  busLoop_eq ports 256 (Nat.zero_add 256)

theorem reportOf_eq (bus dev : ℕ) : reportOf space bus dev =
    (visible space (BitVec.ofNat 8 bus) (BitVec.ofNat 5 dev)).map fun ids ↦
      ⟨BitVec.ofNat 32 bus, BitVec.ofNat 32 dev, ids &&& 0xFFFF,
        (ids &&& ((0xFFFF : BitVec 32) <<< 16)) >>> 16, ids⟩ := by
  have hlow := (halves (space (BitVec.ofNat 8 bus) (BitVec.ofNat 5 dev) 0 0)).1
  have habsent : space (BitVec.ofNat 8 bus) (BitVec.ofNat 5 dev) 0 0 &&& 0xFFFF = 0xFFFF ↔
      space.vendorId (BitVec.ofNat 8 bus) (BitVec.ofNat 5 dev) = 0xFFFF := by
    rw [hlow, ← ConfigurationSpace.vendorId]
    constructor
    · intro hwide
      exact setWidth_injective (show 16 ≤ 32 by decide) (hwide.trans (by decide))
    · intro hvendor
      rw [hvendor]
      decide
  rw [reportOf, visible]
  simp only [habsent]
  split_ifs <;> rfl

theorem reportsOf_congr (h : ∀ bus dev, visible space bus dev = visible space' bus dev) :
    reportsOf space = reportsOf space' := by
  have hreport : reportOf space = reportOf space' := by
    funext bus dev
    rw [reportOf_eq, reportOf_eq, h]
  have hbus : reportsOfBus space = reportsOfBus space' := by
    funext bus
    rw [reportsOfBus, reportsOfBus, hreport]
  rw [reportsOf, reportsOf, hbus]

/-- A device is in the reports with what can be seen of it. -/
theorem visible_eq_some_iff {bus : BitVec 8} {dev : BitVec 5} {ids : BitVec 32} :
    visible space bus dev = some ids ↔ ∃ report ∈ reportsOf space,
      report.bus = bus.setWidth 32 ∧ report.dev = dev.setWidth 32 ∧ report.underlying = ids := by
  rw [visible, Option.ite_none_left_eq_some, Option.some.injEq]
  constructor
  · rintro ⟨hvendor, rfl⟩
    exact ⟨_, mem_reports_iff.mpr ⟨bus, dev, hvendor, rfl⟩, rfl, rfl, rfl⟩
  · rintro ⟨report, hreport, hbus, hdev, rfl⟩
    obtain ⟨bus', dev', hvendor, rfl⟩ := mem_reports_iff.mp hreport
    obtain rfl : bus' = bus := setWidth_injective (by decide) hbus
    obtain rfl : dev' = dev := setWidth_injective (by decide) hdev
    exact ⟨hvendor, rfl⟩

theorem visible_of_reportsOf (h : reportsOf space = reportsOf space') (bus : BitVec 8) (dev : BitVec 5) :
    visible space bus dev = visible space' bus dev := by
  apply Option.ext
  intro ids
  rw [visible_eq_some_iff, visible_eq_some_iff, h]

theorem reportRow_injective : Function.Injective reportRow := by
  intro first second hrow
  cases first
  cases second
  simp only [reportRow, List.cons.injEq] at hrow
  obtain ⟨hbus, hdev, hvendor, hdevice, hunderlying, -⟩ := hrow
  rw [BitVec.eq_of_toNat_eq hbus, BitVec.eq_of_toNat_eq hdev, BitVec.eq_of_toNat_eq hvendor,
    BitVec.eq_of_toNat_eq hdevice, BitVec.eq_of_toNat_eq hunderlying]

/-! ## The text -/

variable {out : Kostream}

theorem delimits_reportLabels (out : Kostream) :
    ∀ label ∈ reportLabels.tail ++ [reportMark], Delimits (digitOf out.mode.base) label := by
  have hspace := digitOf_space out
  have hreturn := digitOf_return out
  simp only [reportLabels, List.tail_cons, List.cons_append, List.nil_append, List.forall_mem_cons]
  exact ⟨⟨32, _, rfl, hspace⟩, ⟨32, _, rfl, hspace⟩, ⟨32, _, rfl, hspace⟩, ⟨13, _, rfl, hreturn⟩,
    ⟨13, _, rfl, hreturn⟩, List.forall_mem_nil _⟩

section Mode

variable (hmode : out.mode ≠ .bin)

include hmode

theorem exists_write_report (report : Report) :
    ∃ text, out.write (reportItems report) = .ok (text, out) ∧
      IsRow (digitOf out.mode.base) out.mode.base reportMark reportLabels (reportRow report) text := by
  have hitem (i : BitVec 32) :
      PrintsAs out out.mode.base (.number (show 32 ≤ 64 by decide) i) i.toNat :=
    printsAs_unsigned hmode (by decide) i
  have hunderlying : Field.Shows out out.mode.base
      ⟨[.char 10, .text (ascii "Underlying :: ")],
        .number (show 32 ≤ 64 by decide) report.underlying⟩
      (13 :: 10 :: ascii "Underlying :: ", report.underlying.toNat) := ⟨rfl, hitem _⟩
  exact exists_write_row
    (.cons (shows_text (show 10 ∉ ascii "Bus :: " by decide) (hitem report.bus)) <|
      .cons (shows_text (show 10 ∉ ascii " :: dev :: " by decide) (hitem report.dev)) <|
      .cons (shows_text (show 10 ∉ ascii " :: Vendorid :: " by decide) (hitem report.vendorid)) <|
      .cons (shows_text (show 10 ∉ ascii " :: Deviceid :: " by decide) (hitem report.deviceid)) <|
      .cons hunderlying .nil)
    (show out.write [.char 10, .text (ascii "---"), .char 10] = .ok (reportMark, out) from rfl)

theorem exists_write_reports (reports : List Report) :
    ∃ text, out.write (reports.flatMap reportItems) = .ok (text, out) ∧
      AreRows (digitOf out.mode.base) out.mode.base reportMark reportLabels (reports.map reportRow)
        text := by
  induction reports with
  | nil => exact ⟨[], rfl, .nil⟩
  | cons report reports ih =>
    obtain ⟨text, hwrite, hrow⟩ := exists_write_report hmode report
    obtain ⟨rest, hrest, hrows⟩ := ih
    exact ⟨text ++ rest, Kostream.write_append hwrite hrest, .cons hrow hrows⟩

theorem exists_enumeratePCIPrinted (ports : Ports) :
    ∃ text ports', enumeratePCIPrinted ports out = .ok (text, out, ports') ∧
      enumeratePCI ports = .ok (reportsOf ports.space, ports') ∧
      out.write ((reportsOf ports.space).flatMap reportItems) = .ok (text, out) ∧
      readRows (digitOf out.mode.base) out.mode.base reportMark reportLabels text =
        some ((reportsOf ports.space).map reportRow) := by
  obtain ⟨ports', hrun, -⟩ := enumeratePCI_eq ports
  obtain ⟨text, hwrite, hrows⟩ := exists_write_reports hmode (reportsOf ports.space)
  refine ⟨text, ports', ?_, hrun, hwrite, hrows.read (delimits_reportLabels out) (List.cons_ne_nil _ _)⟩
  simp only [enumeratePCIPrinted, hrun, ok_bind, hwrite]
  rfl

/-- The text reads back as the reports of the devices that exist, in their order. Two configuration spaces
give the same text exactly when the same devices exist in both and hold the same in register 0. -/
theorem enumeratePCIPrinted_reads (ports : Ports) :
    ∃ text ports' reports, enumeratePCIPrinted ports out = .ok (text, out, ports') ∧
      enumeratePCI ports = .ok (reports, ports') ∧
      readRows (digitOf out.mode.base) out.mode.base reportMark reportLabels text =
        some (reports.map reportRow) ∧
      ∀ other : Ports, (∃ ports'', enumeratePCIPrinted other out = .ok (text, out, ports'')) ↔
        ∀ bus dev, visible other.space bus dev = visible ports.space bus dev := by
  obtain ⟨text, ports', hrun, hreports, hwrite, hread⟩ := exists_enumeratePCIPrinted hmode ports
  refine ⟨text, ports', _, hrun, hreports, hread, fun other ↦ ?_⟩
  obtain ⟨text', ports'', hrun', -, hwrite', hread'⟩ := exists_enumeratePCIPrinted hmode other
  constructor
  · rintro ⟨ports₃, hsame⟩
    obtain ⟨rfl, -⟩ := ok_pair_inj hrun' hsame
    have hrows := Option.some.inj (hread'.symm.trans hread)
    exact visible_of_reportsOf (reportRow_injective.list_map hrows)
  · intro hvisible
    rw [reportsOf_congr hvisible, hwrite] at hwrite'
    obtain ⟨rfl, -⟩ := Prod.mk.inj (Except.ok.inj hwrite')
    exact ⟨ports'', hrun'⟩

end Mode

/-- A machine with nothing but a host bridge. -/
def bridgePorts : Ports where
  space bus dev _ _ := if bus = 0 ∧ dev = 0 then 0x12378086 else 0xFFFFFFFF
  elsewhere _ := 0xFFFFFFFF
  address := 0

theorem enumeratePCIPrinted_bridge :
    ∃ text ports', enumeratePCIPrinted bridgePorts ⟨.hex⟩ = .ok (text, ⟨.hex⟩, ports') ∧
      visible bridgePorts.space 0 0 = some 0x12378086 := by
  have hbridge : visible bridgePorts.space 0 0 = some 0x12378086 := by decide
  have hmode : (⟨.hex⟩ : Kostream).mode ≠ .bin := by decide
  obtain ⟨text, ports', _, hrun, _⟩ := enumeratePCIPrinted_reads hmode bridgePorts
  exact ⟨text, ports', hrun, hbridge⟩

end PenelopeOS.Io
