import Mathlib.Data.List.Basic
import PenelopeOS.Machine.Fault

/-!
# Devices behind ports

A device answers reads of its ports and takes writes to them, and both can change its state. What a driver
does to a device is the list of its accesses with the answers. A driver that polls a port goes on until an
answer is as it should be, so it ends exactly when some answer is.
-/

namespace PenelopeOS.Machine

/-- A device with ports of one byte. What goes on at other ports does not get to it. -/
structure PortDevice (π δ : Type) where
  outb : δ → π → BitVec 8 → δ
  inb : δ → π → BitVec 8 × δ

inductive PortCommand (π : Type) where
  | write (port : π) (value : BitVec 8)
  | read (port : π)
  deriving DecidableEq, Repr

/-- A command and what is written or answered. -/
abbrev PortAccess (π : Type) := PortCommand π × BitVec 8

namespace PortDevice

variable {π δ : Type} (device : PortDevice π δ)

def access : PortCommand π → δ → PortAccess π × δ
  | .write port value, state => ((.write port value, value), device.outb state port value)
  | .read port, state => ((.read port, (device.inb state port).1), (device.inb state port).2)

def perform : List (PortCommand π) → δ → List (PortAccess π) × δ
  | [], state => ([], state)
  | command :: commands, state =>
    let first := device.access command state
    let others := perform commands first.2
    (first.1 :: others.1, others.2)

/-- The state after a number of reads of a port. -/
def afterReads (port : π) (count : ℕ) (state : δ) : δ :=
  (device.perform (List.replicate count (.read port)) state).2

/-- The answer to a read behind others. -/
def answer (port : π) (count : ℕ) (state : δ) : BitVec 8 :=
  (device.inb (device.afterReads port count state) port).1

/-- Reads a port until the value, which is the one given at first, is no longer busy. -/
def poll (busy : BitVec 8 → Bool) (port : π) :
    ℕ → BitVec 8 → δ → Except Fault (List (PortAccess π) × δ)
  | 0, _, _ => .error .divergence
  | fuel + 1, value, state =>
    if busy value then do
      let (accesses, last) ← poll busy port fuel (device.inb state port).1 (device.inb state port).2
      return ((.read port, (device.inb state port).1) :: accesses, last)
    else return ([], state)

variable {device} {busy : BitVec 8 → Bool} {port : π} {state : δ} {value : BitVec 8}
  {commands commands' : List (PortCommand π)} {count fuel : ℕ}

theorem perform_append (commands commands' : List (PortCommand π)) (state : δ) :
    device.perform (commands ++ commands') state =
      ((device.perform commands state).1 ++
          (device.perform commands' (device.perform commands state).2).1,
        (device.perform commands' (device.perform commands state).2).2) := by
  induction commands generalizing state with
  | nil => rfl
  | cons command commands ih => simp only [List.cons_append, perform, ih]

/-- The commands are those that were given. -/
theorem map_fst_perform (device : PortDevice π δ) (commands : List (PortCommand π)) (state : δ) :
    (device.perform commands state).1.map Prod.fst = commands := by
  induction commands generalizing state with
  | nil => rfl
  | cons command commands ih =>
    simp only [perform, List.map_cons, ih]
    cases command <;> rfl

theorem perform_read_succ (port : π) (count : ℕ) (state : δ) :
    device.perform (List.replicate (count + 1) (.read port)) state =
      ((.read port, (device.inb state port).1) ::
          (device.perform (List.replicate count (.read port)) (device.inb state port).2).1,
        (device.perform (List.replicate count (.read port)) (device.inb state port).2).2) := rfl

/-- Polling from a value that is busy, up to an answer that is not. -/
theorem poll_eq (hbusy : busy value = true)
    (hanswers : ∀ k < count, busy (device.answer port k state) = true)
    (hlast : busy (device.answer port count state) = false) (hfuel : count + 1 < fuel) :
    device.poll busy port fuel value state =
      .ok (device.perform (List.replicate (count + 1) (.read port)) state) := by
  induction count generalizing fuel value state with
  | zero =>
    obtain ⟨fuel, rfl⟩ : ∃ rounds, fuel = rounds + 2 := ⟨fuel - 2, by omega⟩
    have hstop : ¬ busy (device.inb state port).1 = true := by
      rw [Bool.not_eq_true]
      exact hlast
    have hrest : device.poll busy port (fuel + 1) (device.inb state port).1 (device.inb state port).2 =
        .ok ([], (device.inb state port).2) := by
      rw [poll, if_neg hstop]
      rfl
    rw [poll, if_pos hbusy, hrest]
    rfl
  | succ count ih =>
    obtain ⟨fuel, rfl⟩ : ∃ rounds, fuel = rounds + 1 := ⟨fuel - 1, by omega⟩
    have hnext : device.poll busy port fuel (device.inb state port).1 (device.inb state port).2 = _ :=
      ih (hanswers 0 (Nat.succ_pos count)) (fun k hk ↦ hanswers (k + 1) (Nat.succ_lt_succ hk)) hlast
        (Nat.lt_of_succ_lt_succ hfuel)
    rw [poll, if_pos hbusy, hnext, perform_read_succ]
    rfl

/-- A run of the loop has read up to the first answer that is not busy. -/
theorem exists_of_poll {result : List (PortAccess π) × δ}
    (h : device.poll busy port fuel value state = .ok result) (hbusy : busy value = true) :
    ∃ count, (∀ k < count, busy (device.answer port k state) = true) ∧
      busy (device.answer port count state) = false ∧
      result = device.perform (List.replicate (count + 1) (.read port)) state := by
  induction fuel generalizing value state result with
  | zero => cases h
  | succ fuel ih =>
    rw [poll, if_pos hbusy] at h
    obtain ⟨⟨accesses, last⟩, hrest, hpure⟩ := bind_eq_ok_iff.mp h
    obtain rfl := Except.ok.inj hpure
    cases hfirst : busy (device.inb state port).1 with
    | false =>
      cases fuel with
      | zero => cases hrest
      | succ fuel =>
        rw [poll, if_neg (by rw [hfirst]; exact Bool.false_ne_true)] at hrest
        obtain ⟨rfl, rfl⟩ := Prod.mk.inj (Except.ok.inj hrest)
        exact ⟨0, fun k hk ↦ absurd hk (Nat.not_lt_zero k), hfirst, rfl⟩
    | true =>
      obtain ⟨count, hanswers, hlast, hresult⟩ := ih hrest hfirst
      refine ⟨count + 1, fun k hk ↦ ?_, hlast, ?_⟩
      · cases k with
        | zero => exact hfirst
        | succ k => exact hanswers k (by omega)
      · rw [perform_read_succ, ← hresult]

end PortDevice

end PenelopeOS.Machine
