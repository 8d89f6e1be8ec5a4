import Mathlib.Tactic.SplitIfs
import PenelopeOS.Machine.BitField
import PenelopeOS.Machine.ConfigurationPorts
import PenelopeOS.Machine.Fault

/-!
# PCI enumeration

`EnumeratePCI` asks every device of every bus for register 0 of its first function. A device that does
not exist answers with the vendor 0xFFFF.
-/

namespace PenelopeOS.Io

open Machine

/-- `CONFIG_ADDR` -/
def configAddr : BitVec 32 := 0xCF8

/-- `CONFIG_DATA` -/
def configData : BitVec 32 := 0xCFC

def formConfigAddress (enable : Bool) (busn devn funcn regOffset : BitVec 8) : BitVec 32 :=
  let bus : BitVec 32 := busn.setWidth 32
  let dev : BitVec 32 := devn.setWidth 32
  let func : BitVec 32 := funcn.setWidth 32
  let address : BitVec 32 := (BitVec.ofBool enable).setWidth 32
  let address := address <<< 31
  let address := address ||| (bus <<< 16)
  let address := address ||| (dev <<< 11)
  let address := address ||| (func <<< 8)
  let address := address ||| (regOffset &&& 0xFC).setWidth 32
  address

/-- The numbers that are printed for a device, in their order. -/
structure Report where
  bus : BitVec 32
  dev : BitVec 32
  vendorid : BitVec 32
  deviceid : BitVec 32
  underlying : BitVec 32
  deriving DecidableEq, Repr

/-- The inner `for` loop of `EnumeratePCI` -/
def deviceLoop (bus : BitVec 32) : ℕ → BitVec 32 → Ports → Except Fault (List Report × Ports)
  | 0, _, _ => .error .divergence
  | fuel + 1, dev, ports =>
    if dev < 32 then do
      let address := formConfigAddress true (bus.setWidth 8) (dev.setWidth 8) 0 0
      let ports := ports.outl configAddr address
      let ids := ports.inl configData
      if ids &&& 0xFFFF = 0xFFFF then deviceLoop bus fuel (dev + 1) ports
      else
        let report : Report :=
          ⟨bus, dev, ids &&& 0xFFFF, (ids &&& ((0xFFFF : BitVec 32) <<< 16)) >>> 16, ids⟩
        let (reports, ports) ← deviceLoop bus fuel (dev + 1) ports
        return (report :: reports, ports)
    else return ([], ports)

/-- The outer `for` loop of `EnumeratePCI` -/
def busLoop : ℕ → BitVec 32 → Ports → Except Fault (List Report × Ports)
  | 0, _, _ => .error .divergence
  | fuel + 1, bus, ports =>
    if bus < 256 then do
      let (reports, ports) ← deviceLoop bus 33 0 ports
      let (others, ports) ← busLoop fuel (bus + 1) ports
      return (reports ++ others, ports)
    else return ([], ports)

/-- The counters leave the loops after 256 and 32 rounds. -/
def enumeratePCI (ports : Ports) : Except Fault (List Report × Ports) := busLoop 257 0 ports

/-- The reports are those of the devices that exist, ordered by bus and then by device. -/
structure Enumerates (space : ConfigurationSpace) (reports : List Report) : Prop where
  ordered : reports.Pairwise fun first second ↦
    first.bus < second.bus ∨ first.bus = second.bus ∧ first.dev < second.dev
  reported : ∀ bus dev, (∃ report ∈ reports, report.bus = bus.setWidth 32 ∧
    report.dev = dev.setWidth 32) ↔ space.vendorId bus dev ≠ 0xFFFF
  ids : ∀ report ∈ reports, ∃ bus dev, report.bus = bus.setWidth 32 ∧ report.dev = dev.setWidth 32 ∧
    report.vendorid = (space.vendorId bus dev).setWidth 32 ∧
    report.deviceid = (space.deviceId bus dev).setWidth 32

/-! ## Addresses -/

section Address

variable {enable : Bool} {busn devn funcn regOffset : BitVec 8}

theorem toNat_shifted (field : BitVec 8) {start : ℕ} (hstart : start ≤ 24) :
    ((field.setWidth 32 : BitVec 32) <<< start).toNat = field.toNat * 2 ^ start := by
  have hfield := field.isLt
  have hpow : 2 ^ start ≤ 2 ^ 24 := Nat.pow_le_pow_right (by decide) hstart
  have hlt : field.toNat * 2 ^ start < 2 ^ 32 :=
    Nat.lt_of_lt_of_le (Nat.mul_lt_mul_of_lt_of_le hfield hpow (by decide)) (by decide)
  rw [BitVec.toNat_shiftLeft, BitVec.toNat_setWidth, Nat.shiftLeft_eq,
    Nat.mod_eq_of_lt (show field.toNat < 2 ^ 32 by omega), Nat.mod_eq_of_lt hlt]

/-- The fields of an address do not overlap when the device and the function fit theirs. -/
theorem toNat_formConfigAddress (hdev : devn.toNat < 32) (hfunc : funcn.toNat < 8) :
    (formConfigAddress enable busn devn funcn regOffset).toNat =
      enable.toNat * 2 ^ 31 + busn.toNat * 2 ^ 16 + devn.toNat * 2 ^ 11 + funcn.toNat * 2 ^ 8 +
        (regOffset &&& 0xFC).toNat := by
  have hbusLt := busn.isLt
  have hregLt := (regOffset &&& 0xFC).isLt
  have henable :
      ((BitVec.ofBool enable).setWidth 32 <<< 31 : BitVec 32).toNat = enable.toNat * 2 ^ 31 := by
    cases enable <;> rfl
  have hbus := toNat_shifted busn (show 16 ≤ 24 by decide)
  have hdev' := toNat_shifted devn (show 11 ≤ 24 by decide)
  have hfunc' := toNat_shifted funcn (show 8 ≤ 24 by decide)
  have hreg : ((regOffset &&& 0xFC).setWidth 32 : BitVec 32).toNat = (regOffset &&& 0xFC).toNat := by
    rw [BitVec.toNat_setWidth, Nat.mod_eq_of_lt (Nat.lt_trans hregLt (by decide))]
  have hsum := toNat_or (show 2 ^ 31 ∣ _ from henable ▸ Nat.dvd_mul_left _ _)
    (show _ < 2 ^ 31 by rw [hbus]; omega)
  rw [henable, hbus] at hsum
  have hsum' := toNat_or (show 2 ^ 16 ∣ _ by rw [hsum]; omega) (show _ < 2 ^ 16 by rw [hdev']; omega)
  rw [hsum, hdev'] at hsum'
  have hsum'' := toNat_or (show 2 ^ 11 ∣ _ by rw [hsum']; omega) (show _ < 2 ^ 11 by rw [hfunc']; omega)
  rw [hsum', hfunc'] at hsum''
  have hall := toNat_or (show 2 ^ 8 ∣ _ by rw [hsum'']; omega)
    (show _ < 2 ^ 8 by rw [hreg]; exact hregLt)
  rw [hsum'', hreg] at hall
  exact hall

/-- The bridge finds every field in its place. -/
theorem fields_formConfigAddress (enable : Bool) (busn regOffset : BitVec 8)
    (hdev : devn.toNat < 32) (hfunc : funcn.toNat < 8) :
    let address := formConfigAddress enable busn devn funcn regOffset
    address.getLsbD 31 = enable ∧ address.extractLsb' 16 8 = busn ∧
      address.extractLsb' 11 5 = devn.setWidth 5 ∧ address.extractLsb' 8 3 = funcn.setWidth 3 ∧
      address.extractLsb' 2 6 = regOffset.extractLsb' 2 6 := by
  intro address
  have haddress : address.toNat = _ := toNat_formConfigAddress hdev hfunc
  have hbusLt := busn.isLt
  have hregLt := (regOffset &&& 0xFC).isLt
  have hreg : (regOffset &&& 0xFC).toNat / 2 ^ 2 = regOffset.toNat / 2 ^ 2 % 2 ^ 6 := by
    rw [← toNat_exactField regOffset (show ((0xFC : BitVec 8) >>> 2).toNat = 2 ^ 6 - 1 by decide),
      BitVec.toNat_ushiftRight, Nat.shiftRight_eq_div_pow]
  refine ⟨?_, ?_, ?_, ?_, ?_⟩
  · have henable : address.toNat / 2 ^ 31 = enable.toNat := by
      rw [haddress]
      omega
    rw [BitVec.getLsbD, Nat.testBit_eq_decide_div_mod_eq, henable]
    cases enable <;> rfl
  · rw [← BitVec.toNat_inj, BitVec.extractLsb'_toNat, Nat.shiftRight_eq_div_pow, haddress]
    omega
  · rw [← BitVec.toNat_inj, BitVec.extractLsb'_toNat, Nat.shiftRight_eq_div_pow, haddress,
      BitVec.toNat_setWidth]
    omega
  · rw [← BitVec.toNat_inj, BitVec.extractLsb'_toNat, Nat.shiftRight_eq_div_pow, haddress,
      BitVec.toNat_setWidth]
    omega
  · rw [← BitVec.toNat_inj, BitVec.extractLsb'_toNat, BitVec.extractLsb'_toNat,
      Nat.shiftRight_eq_div_pow, Nat.shiftRight_eq_div_pow, haddress, ← hreg]
    omega

end Address

/-! ## Rounds -/

/-- The report of a device, if there is one. -/
def reportOf (space : ConfigurationSpace) (bus dev : ℕ) : Option Report :=
  let ids := space (BitVec.ofNat 8 bus) (BitVec.ofNat 5 dev) 0 0
  if ids &&& 0xFFFF = 0xFFFF then none
  else some ⟨BitVec.ofNat 32 bus, BitVec.ofNat 32 dev, ids &&& 0xFFFF,
    (ids &&& ((0xFFFF : BitVec 32) <<< 16)) >>> 16, ids⟩

def reportsOfBus (space : ConfigurationSpace) (bus : ℕ) : List Report :=
  (List.range' 0 32).filterMap (reportOf space bus)

section Rounds

variable {bus dev : ℕ}

/-- The address selects register 0 of the device. -/
theorem inl_outl_formConfigAddress (ports : Ports) (bus : ℕ) (hdev : dev < 32) :
    (ports.outl configAddr (formConfigAddress true ((BitVec.ofNat 32 bus).setWidth 8)
      ((BitVec.ofNat 32 dev).setWidth 8) 0 0)).inl configData =
        ports.space (BitVec.ofNat 8 bus) (BitVec.ofNat 5 dev) 0 0 := by
  have hbus : (BitVec.ofNat 32 bus).setWidth 8 = BitVec.ofNat 8 bus :=
    BitVec.setWidth_ofNat_of_le (by decide) bus
  have hdev' : ((BitVec.ofNat 32 dev).setWidth 8).setWidth 5 = BitVec.ofNat 5 dev := by
    rw [BitVec.setWidth_ofNat_of_le (by decide), BitVec.setWidth_ofNat_of_le (by decide)]
  have hsmall : ((BitVec.ofNat 32 dev).setWidth 8).toNat < 32 := by
    rw [BitVec.toNat_setWidth, BitVec.toNat_ofNat]
    omega
  obtain ⟨henable, hbusField, hdevField, hfunc, hreg⟩ :=
    fields_formConfigAddress true ((BitVec.ofNat 32 bus).setWidth 8) 0 hsmall
      (show (0 : BitVec 8).toNat < 8 by decide)
  rw [configAddr, configData, Ports.inl_outl _ henable, hbusField, hdevField, hfunc, hreg, hbus, hdev']
  rfl

theorem deviceLoop_eq (ports : Ports) (bus remaining : ℕ) (hdev : dev + remaining = 32) :
    ∃ ports', deviceLoop (BitVec.ofNat 32 bus) (remaining + 1) (BitVec.ofNat 32 dev) ports =
        .ok ((List.range' dev remaining).filterMap (reportOf ports.space bus), ports') ∧
      ports'.space = ports.space := by
  induction remaining generalizing dev ports with
  | zero =>
    obtain rfl : dev = 32 := hdev
    exact ⟨ports, rfl, rfl⟩
  | succ remaining ih =>
    have hlt : BitVec.ofNat 32 dev < 32 := by
      rw [BitVec.lt_def, BitVec.toNat_ofNat]
      change dev % 2 ^ 32 < 32
      omega
    obtain ⟨ports', hrest, hspace⟩ := ih (ports.outl configAddr (formConfigAddress true
      ((BitVec.ofNat 32 bus).setWidth 8) ((BitVec.ofNat 32 dev).setWidth 8) 0 0))
      (show dev + 1 + remaining = 32 by omega)
    rw [Ports.space_outl] at hrest hspace
    refine ⟨ports', ?_, hspace⟩
    rw [deviceLoop, if_pos hlt]
    simp only [inl_outl_formConfigAddress ports bus (show dev < 32 by omega), ofNat_add_one, hrest,
      ok_bind]
    rw [List.range'_succ, List.filterMap_cons, reportOf]
    split_ifs <;> rfl

theorem busLoop_eq (ports : Ports) (remaining : ℕ) (hbus : bus + remaining = 256) :
    ∃ ports', busLoop (remaining + 1) (BitVec.ofNat 32 bus) ports =
        .ok ((List.range' bus remaining).flatMap (reportsOfBus ports.space), ports') ∧
      ports'.space = ports.space := by
  induction remaining generalizing bus ports with
  | zero =>
    obtain rfl : bus = 256 := hbus
    exact ⟨ports, rfl, rfl⟩
  | succ remaining ih =>
    have hlt : BitVec.ofNat 32 bus < 256 := by
      rw [BitVec.lt_def, BitVec.toNat_ofNat]
      change bus % 2 ^ 32 < 256
      omega
    obtain ⟨ports', hdevices, hspace⟩ := deviceLoop_eq ports bus 32 (Nat.zero_add 32)
    rw [← reportsOfBus] at hdevices
    obtain ⟨ports'', hrest, hspace'⟩ := ih ports' (show bus + 1 + remaining = 256 by omega)
    refine ⟨ports'', ?_, hspace'.trans hspace⟩
    rw [busLoop, if_pos hlt, show (0 : BitVec 32) = BitVec.ofNat 32 0 from rfl, hdevices, ok_bind]
    simp only [ofNat_add_one, hrest, ok_bind, hspace]
    rw [List.range'_succ, List.flatMap_cons]
    rfl

end Rounds

/-! ## Reports -/

section Reports

variable {space : ConfigurationSpace} {bus dev : ℕ} {report : Report}

theorem setWidth_bus (hbus : bus < 256) : (BitVec.ofNat 8 bus).setWidth 32 = BitVec.ofNat 32 bus := by
  rw [← BitVec.toNat_inj, BitVec.toNat_setWidth, BitVec.toNat_ofNat, BitVec.toNat_ofNat]
  omega

theorem setWidth_dev (hdev : dev < 32) : (BitVec.ofNat 5 dev).setWidth 32 = BitVec.ofNat 32 dev := by
  rw [← BitVec.toNat_inj, BitVec.toNat_setWidth, BitVec.toNat_ofNat, BitVec.toNat_ofNat]
  omega

theorem ofNat_lt_ofNat {value value' : ℕ} (h : value < value') (hrange : value' < 2 ^ 32) :
    BitVec.ofNat 32 value < BitVec.ofNat 32 value' := by
  rw [BitVec.lt_def, BitVec.toNat_ofNat, BitVec.toNat_ofNat]
  omega

/-- What is to be reported of a device that exists. -/
def deviceReport (space : ConfigurationSpace) (bus : BitVec 8) (dev : BitVec 5) : Report where
  bus := bus.setWidth 32
  dev := dev.setWidth 32
  vendorid := (space.vendorId bus dev).setWidth 32
  deviceid := (space.deviceId bus dev).setWidth 32
  underlying := space bus dev 0 0

/-- The mask and the shifts of the source take the two halves of the register. -/
theorem halves (ids : BitVec 32) : ids &&& 0xFFFF = (ids.extractLsb' 0 16).setWidth 32 ∧
    (ids &&& ((0xFFFF : BitVec 32) <<< 16)) >>> 16 = (ids.extractLsb' 16 16).setWidth 32 := by
  have hlow : (ids &&& 0xFFFF).toNat = ids.toNat % 2 ^ 16 := Nat.and_two_pow_sub_one_eq_mod _ 16
  have hhigh := toNat_exactField ids
    (show (((0xFFFF : BitVec 32) <<< 16) >>> 16).toNat = 2 ^ 16 - 1 by decide)
  constructor
  · rw [← BitVec.toNat_inj, hlow, BitVec.toNat_setWidth, BitVec.extractLsb'_toNat, Nat.shiftRight_zero]
    omega
  · rw [← BitVec.toNat_inj, hhigh, BitVec.toNat_setWidth, BitVec.extractLsb'_toNat,
      Nat.shiftRight_eq_div_pow]
    omega

/-- A device is reported unless its vendor is 0xFFFF. -/
theorem reportOf_eq_some_iff (hbus : bus < 256) (hdev : dev < 32) :
    reportOf space bus dev = some report ↔
      space.vendorId (BitVec.ofNat 8 bus) (BitVec.ofNat 5 dev) ≠ 0xFFFF ∧
        deviceReport space (BitVec.ofNat 8 bus) (BitVec.ofNat 5 dev) = report := by
  have hbus' := setWidth_bus hbus
  have hdev' := setWidth_dev hdev
  obtain ⟨hvendor, hdevice⟩ := halves (space (BitVec.ofNat 8 bus) (BitVec.ofNat 5 dev) 0 0)
  rw [← ConfigurationSpace.vendorId] at hvendor
  rw [← ConfigurationSpace.deviceId] at hdevice
  simp only [reportOf, hvendor, hdevice, deviceReport, hbus', hdev']
  by_cases habsent : space.vendorId (BitVec.ofNat 8 bus) (BitVec.ofNat 5 dev) = 0xFFFF
  · rw [habsent, if_pos (by decide)]
    simp
  · have hwide : (space.vendorId (BitVec.ofNat 8 bus) (BitVec.ofNat 5 dev)).setWidth 32 ≠
        (0xFFFF : BitVec 32) :=
      fun heq ↦ habsent (setWidth_injective (show 16 ≤ 32 by decide) heq)
    rw [if_neg hwide, Option.some.injEq, and_iff_right habsent]

theorem mem_reportsOfBus_iff (hbus : bus < 256) : report ∈ reportsOfBus space bus ↔
    ∃ dev < 32, space.vendorId (BitVec.ofNat 8 bus) (BitVec.ofNat 5 dev) ≠ 0xFFFF ∧
      deviceReport space (BitVec.ofNat 8 bus) (BitVec.ofNat 5 dev) = report := by
  rw [reportsOfBus, List.mem_filterMap]
  refine exists_congr fun dev ↦ ?_
  rw [List.mem_range'_1, Nat.zero_add, and_iff_right (Nat.zero_le dev)]
  exact and_congr_right fun hdev ↦ reportOf_eq_some_iff hbus hdev

theorem bus_of_mem (hbus : bus < 256) (hreport : report ∈ reportsOfBus space bus) :
    report.bus = BitVec.ofNat 32 bus := by
  obtain ⟨dev, -, -, rfl⟩ := (mem_reportsOfBus_iff hbus).mp hreport
  exact setWidth_bus hbus

/-- The reports of a bus are ordered by device. -/
theorem pairwise_reportsOfBus (space : ConfigurationSpace) (hbus : bus < 256) :
    (reportsOfBus space bus).Pairwise fun first second ↦ first.dev < second.dev := by
  rw [reportsOfBus, List.pairwise_filterMap]
  refine List.Pairwise.imp_of_mem ?_ List.pairwise_lt_range'
  intro dev dev' hmem hmem' hlt report hreport report' hreport'
  have hdev := (List.mem_range'_1.mp hmem).2
  have hdev' := (List.mem_range'_1.mp hmem').2
  obtain ⟨-, rfl⟩ := (reportOf_eq_some_iff hbus (by omega)).mp hreport
  obtain ⟨-, rfl⟩ := (reportOf_eq_some_iff hbus (by omega)).mp hreport'
  rw [deviceReport, deviceReport, setWidth_dev (by omega), setWidth_dev (by omega)]
  exact ofNat_lt_ofNat hlt (by omega)

/-- The reports of all buses are ordered by bus and then by device. -/
theorem pairwise_reports (space : ConfigurationSpace) :
    ((List.range' 0 256).flatMap (reportsOfBus space)).Pairwise fun first second ↦
      first.bus < second.bus ∨ first.bus = second.bus ∧ first.dev < second.dev := by
  refine List.pairwise_flatMap.mpr ⟨fun bus hmem ↦ ?_,
    List.Pairwise.imp_of_mem ?_ List.pairwise_lt_range'⟩
  · have hbus : bus < 256 := by
      have := (List.mem_range'_1.mp hmem).2
      omega
    refine List.Pairwise.imp_of_mem ?_ (pairwise_reportsOfBus space hbus)
    intro report report' hreport hreport' hlt
    exact Or.inr ⟨(bus_of_mem hbus hreport).trans (bus_of_mem hbus hreport').symm, hlt⟩
  · intro bus bus' hmem hmem' hlt report hreport report' hreport'
    have hbus := (List.mem_range'_1.mp hmem').2
    rw [bus_of_mem (by omega) hreport, bus_of_mem (by omega) hreport']
    exact Or.inl (ofNat_lt_ofNat hlt (by omega))

theorem mem_reports_iff : report ∈ (List.range' 0 256).flatMap (reportsOfBus space) ↔
    ∃ bus dev, space.vendorId bus dev ≠ 0xFFFF ∧ deviceReport space bus dev = report := by
  rw [List.mem_flatMap]
  constructor
  · rintro ⟨bus, hbus, hreport⟩
    have hbus := (List.mem_range'_1.mp hbus).2
    obtain ⟨dev, -, hdevice⟩ := (mem_reportsOfBus_iff (by omega)).mp hreport
    exact ⟨_, _, hdevice⟩
  · rintro ⟨bus, dev, hdevice⟩
    have hbus := bus.isLt
    refine ⟨bus.toNat, List.mem_range'_1.mpr (by omega), (mem_reportsOfBus_iff hbus).mpr ?_⟩
    refine ⟨dev.toNat, dev.isLt, ?_⟩
    rw [BitVec.ofNat_toNat, BitVec.ofNat_toNat, BitVec.setWidth_eq, BitVec.setWidth_eq]
    exact hdevice

end Reports

/-- Whatever registers there are, the enumeration ends and reports exactly the devices that exist. -/
theorem enumeratePCI_enumerates (ports : Ports) : ∃ reports ports',
    enumeratePCI ports = .ok (reports, ports') ∧ Enumerates ports.space reports := by
  obtain ⟨ports', hrun, -⟩ := busLoop_eq ports 256 (Nat.zero_add 256)
  refine ⟨_, ports', hrun, pairwise_reports ports.space, fun bus dev ↦ ?_, fun report hreport ↦ ?_⟩
  · constructor
    · rintro ⟨report, hreport, hbus, hdev⟩
      obtain ⟨bus', dev', hvendor, rfl⟩ := mem_reports_iff.mp hreport
      obtain rfl : bus' = bus := setWidth_injective (by decide) hbus
      obtain rfl : dev' = dev := setWidth_injective (by decide) hdev
      exact hvendor
    · intro hvendor
      exact ⟨_, mem_reports_iff.mpr ⟨bus, dev, hvendor, rfl⟩, rfl, rfl⟩
  · obtain ⟨bus, dev, -, rfl⟩ := mem_reports_iff.mp hreport
    exact ⟨bus, dev, rfl, rfl, rfl, rfl⟩

end PenelopeOS.Io
