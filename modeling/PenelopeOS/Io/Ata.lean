import PenelopeOS.Console.Output
import PenelopeOS.Machine.PortDevice

/-!
# Initialising a drive

`InitialiseAtaPio` selects the first drive, waits, asks it to identify itself and polls its status. It ends
exactly when the drive answers that it does not exist, or says at some later time that it is not busy. It
does not read what the drive has to say.

The drive is behind its eight ports only. What is inserted into `kout` goes to another port, 0x3f8, and the
drive does not see it.
-/

namespace PenelopeOS.Io

open Console Machine

/-- The ports of the drive. -/
abbrev DrivePort := {port : BitVec 16 // 0x1f0 ≤ port ∧ port ≤ 0x1f7}

/-- `PrimaryDriveSelectPort` -/
def primaryDriveSelectPort : DrivePort := ⟨0x1f6, by decide⟩

/-- `CommandPort` -/
def commandPort : DrivePort := ⟨0x1f7, by decide⟩

/-- `StatusPort` -/
def statusPort : DrivePort := ⟨0x1f7, by decide⟩

/-- The ports that are set to zero: the sector count and the three parts of the LBA. -/
def parameterPort (i : Fin 4) : DrivePort :=
  ⟨0x1f2 + BitVec.ofNat 16 i, by revert i; decide⟩

/-- The accesses up to the command. -/
def identify : List (PortCommand DrivePort) :=
  [.write primaryDriveSelectPort 0xa0] ++ List.replicate 15 (.read ⟨0x1f7, by decide⟩) ++
    ((List.finRange 4).map fun i ↦ .write (parameterPort i) 0) ++ [.write commandPort 0xec]

/-- Bit 7 of the status. -/
def isBusy (status : BitVec 8) : Bool := status &&& 0x80 != 0

structure AtaRun (δ : Type) where
  items : List Item
  accesses : List (PortAccess DrivePort)
  state : δ

variable {δ : Type}

/-- `InitialiseAtaPio`, without the delay between two reads of the status -/
def initialiseAtaPio (device : PortDevice DrivePort δ) (drive bus : BitVec 8) (fuel : ℕ) (state : δ) :
    Except Fault (AtaRun δ) :=
  if bus = 0 ∧ drive = 0 then
    let trying : List Item := [.text (ascii "trying to initialise drive 0 on bus 0"), .char 10]
    let ready := device.perform identify state
    let output := device.inb ready.2 statusPort
    let accesses := ready.1 ++ [(.read statusPort, output.1)]
    if output.1 = 0 then
      return ⟨trying ++ [.text (ascii "NONEXSISTENT_DRIVE :: drive :: "), .byte drive,
        .text (ascii " :: bus :: "), .byte bus, .char 10], accesses, output.2⟩
    else do
      let status := device.inb output.2 statusPort
      let accesses := accesses ++ [(.read statusPort, status.1)]
      let (polled, state) ← device.poll isBusy statusPort fuel status.1 status.2
      return ⟨trying ++ [.text (ascii "waiting for status \n")] ++
        [.text (ascii "finished polling!"), .char 10], accesses ++ polled, state⟩
  else
    return ⟨[.text (ascii "ATAPIO is only supported for drive 0 and bus 0"), .char 10], [], state⟩

/-! ## Ends -/

/-- What is printed for a drive that is not the first one, for a drive that does not exist and for a drive
that has ceased to be busy. -/
def unsupportedText : List (BitVec 8) :=
  ascii "ATAPIO is only supported for drive 0 and bus 0" ++ [13, 10]

def tryingText : List (BitVec 8) := ascii "trying to initialise drive 0 on bus 0" ++ [13, 10]

def nonexistentText : List (BitVec 8) :=
  tryingText ++ (ascii "NONEXSISTENT_DRIVE :: drive :: " ++ [48] ++ ascii " :: bus :: " ++ [48, 13, 10])

def finishedText : List (BitVec 8) :=
  tryingText ++ (ascii "waiting for status " ++ [13, 10]) ++ (ascii "finished polling!" ++ [13, 10])

/-- The run consists of the accesses of the commands and prints the text. -/
structure AtaRun.Is (device : PortDevice DrivePort δ) (state : δ)
    (commands : List (PortCommand DrivePort)) (text : List (BitVec 8)) (run : AtaRun δ) : Prop where
  perform : device.perform commands state = (run.accesses, run.state)
  write : ∀ out : Kostream, out.write run.items = .ok (text, out)

/-- The end of a run, by the answers to the reads of the status behind the command. -/
inductive AtaRun.Ends (device : PortDevice DrivePort δ) (drive bus : BitVec 8) (state : δ) :
    AtaRun δ → Prop where
  | unsupported {run} (hother : ¬ (bus = 0 ∧ drive = 0)) (his : run.Is device state [] unsupportedText) :
    Ends device drive bus state run
  | nonexistent {run} (hfirst : bus = 0 ∧ drive = 0)
    (hnone : device.answer statusPort 0 (device.perform identify state).2 = 0)
    (his : run.Is device state (identify ++ [.read statusPort]) nonexistentText) :
    Ends device drive bus state run
  | finished {run} (count : ℕ) (hfirst : bus = 0 ∧ drive = 0)
    (hsome : device.answer statusPort 0 (device.perform identify state).2 ≠ 0)
    (hbusy : ∀ k < count,
      isBusy (device.answer statusPort (k + 1) (device.perform identify state).2) = true)
    (hready : isBusy (device.answer statusPort (count + 1) (device.perform identify state).2) = false)
    (his : run.Is device state (identify ++ List.replicate (count + 2) (.read statusPort)) finishedText) :
    Ends device drive bus state run

variable {device : PortDevice DrivePort δ} {drive bus : BitVec 8} {state : δ} {fuel : ℕ} {run : AtaRun δ}

/-- A status that is not busy ends the polling at once. -/
theorem poll_ready {status : BitVec 8} {result : List (PortAccess DrivePort) × δ}
    (hready : isBusy status = false)
    (h : device.poll isBusy statusPort fuel status state = .ok result) : result = ([], state) := by
  cases fuel with
  | zero => cases h
  | succ fuel =>
    rw [PortDevice.poll, if_neg (by rw [hready]; exact Bool.false_ne_true)] at h
    exact (Except.ok.inj h).symm

/-- The accesses behind the command are reads of the status. -/
theorem perform_identify (count : ℕ) (state : δ) :
    let ready := device.perform identify state
    let output := device.inb ready.2 statusPort
    let status := device.inb output.2 statusPort
    let polled := device.perform (List.replicate count (.read statusPort)) status.2
    device.perform (identify ++ List.replicate (count + 2) (.read statusPort)) state =
      (ready.1 ++ [(.read statusPort, output.1)] ++ [(.read statusPort, status.1)] ++ polled.1,
        polled.2) := by
  intro ready output status polled
  rw [PortDevice.perform_append, PortDevice.perform_read_succ, PortDevice.perform_read_succ,
    List.append_assoc, List.append_assoc]
  rfl

theorem write_nonexistent (out : Kostream) :
    out.write ([.text (ascii "trying to initialise drive 0 on bus 0"), .char 10] ++
      [.text (ascii "NONEXSISTENT_DRIVE :: drive :: "), .byte 0, .text (ascii " :: bus :: "), .byte 0,
        .char 10]) = .ok (nonexistentText, out) := by
  refine Kostream.write_append (write_line (by decide) out) ?_
  cases out with | mk mode => cases mode <;> rfl

theorem write_finished (out : Kostream) :
    out.write ([.text (ascii "trying to initialise drive 0 on bus 0"), .char 10] ++
      [.text (ascii "waiting for status \n")] ++ [.text (ascii "finished polling!"), .char 10]) =
      .ok (finishedText, out) :=
  Kostream.write_append (Kostream.write_append (write_line (by decide) out) rfl)
    (write_line (by decide) out)

theorem ends_of_run (h : initialiseAtaPio device drive bus fuel state = .ok run) :
    run.Ends device drive bus state := by
  rw [initialiseAtaPio] at h
  by_cases hfirst : bus = 0 ∧ drive = 0
  · rw [if_pos hfirst] at h
    dsimp only at h
    by_cases hnone : device.answer statusPort 0 (device.perform identify state).2 = 0
    · rw [if_pos (show (device.inb (device.perform identify state).2 statusPort).1 = 0 from hnone)] at h
      obtain rfl := Except.ok.inj h
      refine .nonexistent hfirst hnone ⟨PortDevice.perform_append identify _ state, fun out ↦ ?_⟩
      rw [hfirst.1, hfirst.2]
      exact write_nonexistent out
    · rw [if_neg (show ¬ (device.inb (device.perform identify state).2 statusPort).1 = 0 from hnone)] at h
      obtain ⟨⟨polled, last⟩, hpoll, hpure⟩ := bind_eq_ok_iff.mp h
      obtain rfl := Except.ok.inj hpure
      cases hbusy : isBusy (device.answer statusPort 1 (device.perform identify state).2) with
      | false =>
        obtain ⟨rfl, rfl⟩ := Prod.mk.inj (poll_ready hbusy hpoll)
        refine .finished 0 hfirst hnone (fun k hk ↦ absurd hk (Nat.not_lt_zero k)) hbusy ⟨?_, ?_⟩
        · exact perform_identify 0 state
        · exact write_finished
      | true =>
        obtain ⟨count, hanswers, hready, hresult⟩ := PortDevice.exists_of_poll hpoll hbusy
        obtain ⟨rfl, rfl⟩ := Prod.ext_iff.mp hresult
        refine .finished (count + 1) hfirst hnone (fun k hk ↦ ?_) hready ⟨?_, ?_⟩
        · cases k with
          | zero => exact hbusy
          | succ k => exact hanswers k (Nat.lt_of_succ_lt_succ hk)
        · exact perform_identify (count + 1) state
        · exact write_finished
  · rw [if_neg hfirst] at h
    obtain rfl := Except.ok.inj h
    exact .unsupported hfirst ⟨rfl, write_line (by decide)⟩

/-- The loop ends when some status is not busy. -/
theorem exists_poll {status : BitVec 8} (hready : isBusy status = false ∨
      ∃ count, isBusy (device.answer statusPort count state) = false) :
    ∃ fuel result, device.poll isBusy statusPort fuel status state = .ok result := by
  cases hbusy : isBusy status with
  | false =>
    refine ⟨1, ([], state), ?_⟩
    rw [PortDevice.poll, if_neg (by rw [hbusy]; exact Bool.false_ne_true)]
    rfl
  | true =>
    have hsome : ∃ count, isBusy (device.answer statusPort count state) = false :=
      hready.resolve_left fun h ↦ Bool.false_ne_true (h.symm.trans hbusy)
    have hbefore : ∀ k < Nat.find hsome, isBusy (device.answer statusPort k state) = true :=
      fun k hk ↦ Bool.eq_true_of_not_eq_false (Nat.find_min hsome hk)
    exact ⟨Nat.find hsome + 2, _, PortDevice.poll_eq hbusy hbefore (Nat.find_spec hsome) (by omega)⟩

theorem exists_run (h : ¬ (bus = 0 ∧ drive = 0) ∨
      device.answer statusPort 0 (device.perform identify state).2 = 0 ∨
      ∃ count, isBusy (device.answer statusPort (count + 1) (device.perform identify state).2) = false) :
    ∃ fuel run, initialiseAtaPio device drive bus fuel state = .ok run := by
  by_cases hfirst : bus = 0 ∧ drive = 0
  · by_cases hnone : device.answer statusPort 0 (device.perform identify state).2 = 0
    · refine ⟨0, ?_⟩
      rw [initialiseAtaPio, if_pos hfirst]
      dsimp only
      rw [if_pos (show (device.inb (device.perform identify state).2 statusPort).1 = 0 from hnone)]
      exact ⟨_, rfl⟩
    · obtain ⟨count, hcount⟩ := (h.resolve_left (not_not_intro hfirst)).resolve_left hnone
      have hready : isBusy (device.answer statusPort 1 (device.perform identify state).2) = false ∨
          ∃ count, isBusy (device.answer statusPort count
            (device.afterReads statusPort 2 (device.perform identify state).2)) = false := by
        cases count with
        | zero => exact .inl hcount
        | succ count => exact .inr ⟨count, hcount⟩
      obtain ⟨fuel, ⟨polled, last⟩, hpoll⟩ := exists_poll hready
      refine ⟨fuel, ?_⟩
      rw [initialiseAtaPio, if_pos hfirst]
      dsimp only
      rw [if_neg (show ¬ (device.inb (device.perform identify state).2 statusPort).1 = 0 from hnone)]
      exact ⟨_, bind_eq_ok_iff.mpr ⟨_, hpoll, rfl⟩⟩
  · refine ⟨0, ?_⟩
    rw [initialiseAtaPio, if_neg hfirst]
    exact ⟨_, rfl⟩

theorem AtaRun.Ends.ready_or (h : run.Ends device drive bus state) : ¬ (bus = 0 ∧ drive = 0) ∨
    device.answer statusPort 0 (device.perform identify state).2 = 0 ∨
    ∃ count, isBusy (device.answer statusPort (count + 1) (device.perform identify state).2) = false := by
  cases h with
  | unsupported hother => exact .inl hother
  | nonexistent _ hnone => exact .inr (.inl hnone)
  | finished count _ _ _ hready => exact .inr (.inr ⟨count, hready⟩)

/-- Only the commands in front of the polling and reads of the status get to the device. -/
theorem AtaRun.Ends.commands (h : run.Ends device drive bus state) :
    ∀ access ∈ run.accesses, access.1 ∈ identify ∨ access.1 = .read statusPort := by
  have hof {commands : List (PortCommand DrivePort)} {text : List (BitVec 8)}
      (his : run.Is device state commands text)
      (hcommands : ∀ command ∈ commands, command ∈ identify ∨ command = .read statusPort) :
      ∀ access ∈ run.accesses, access.1 ∈ identify ∨ access.1 = .read statusPort := by
    intro access haccess
    have hmap := device.map_fst_perform commands state
    rw [his.perform] at hmap
    refine hcommands access.1 ?_
    rw [← hmap]
    exact List.mem_map_of_mem haccess
  cases h with
  | unsupported _ his => exact hof his (List.forall_mem_nil _)
  | nonexistent _ _ his =>
    refine hof his fun command hcommand ↦ ?_
    exact (List.mem_append.mp hcommand).imp_right List.mem_singleton.mp
  | finished count _ _ _ _ his =>
    refine hof his fun command hcommand ↦ ?_
    exact (List.mem_append.mp hcommand).imp_right List.eq_of_mem_replicate

/-- For every device, the run ends exactly when the drive is not the supported one, or its status is zero
behind the command, or some later status is not busy. Then it has read up to the first such status. -/
theorem initialiseAtaPio_ends (device : PortDevice DrivePort δ) (drive bus : BitVec 8) (state : δ) :
    ((∃ fuel run, initialiseAtaPio device drive bus fuel state = .ok run) ↔ ¬ (bus = 0 ∧ drive = 0) ∨
        device.answer statusPort 0 (device.perform identify state).2 = 0 ∨
        ∃ count,
          isBusy (device.answer statusPort (count + 1) (device.perform identify state).2) = false) ∧
      ∀ fuel run, initialiseAtaPio device drive bus fuel state = .ok run →
        run.Ends device drive bus state ∧
          ∀ access ∈ run.accesses, access.1 ∈ identify ∨ access.1 = .read statusPort :=
  ⟨⟨fun ⟨_, _, hrun⟩ ↦ (ends_of_run hrun).ready_or, exists_run⟩,
    fun _ _ hrun ↦ ⟨ends_of_run hrun, (ends_of_run hrun).commands⟩⟩

end PenelopeOS.Io
