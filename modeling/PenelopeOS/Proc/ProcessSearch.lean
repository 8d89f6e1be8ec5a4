import Mathlib.Data.Nat.ModEq
import PenelopeOS.Machine.BitField
import PenelopeOS.Machine.Fault

/-!
# The search for a free process slot

`newpid` for a table of any size, with the types of the source: the pid is a signed 32-bit number, the
counter and `NPROC` are unsigned ones, and the index into `_buf` is 64 bits wide. An index outside of
`_buf` is a fault. The rounds of the loop visit the slots in cyclic order from `last` on.
-/

namespace PenelopeOS.Proc

open Machine

/-- `proc::state` -/
inductive ProcessState where
  | free
  | current
  | ready
  | recv
  | sleep
  | susp
  | wait
  | rectimer
  deriving DecidableEq, Repr

/-- What `newpid` reads of a `processTable` with room for `NPROC` processes. -/
structure SizedProcessTable (NPROC : ℕ) where
  processState : Vector ProcessState NPROC
  last : BitVec 32

namespace SizedProcessTable

variable {NPROC : ℕ} (processes : SizedProcessTable NPROC)

/-- `_buf[newpid].processState` -/
def stateAt (newpid : BitVec 32) : Except Fault ProcessState :=
  match processes.processState[(newpid.signExtend 64).toNat]? with
  | some state => .ok state
  | none => .error .outOfBounds

/-- The `for` loop of `newpid` from round `i` on. -/
def newpidLoop : ℕ → BitVec 32 → BitVec 32 → Except Fault (BitVec 32)
  | 0, _, _ => .error .divergence
  | fuel + 1, i, newpid =>
    if i < BitVec.ofNat 32 NPROC then do
      let state ← processes.stateAt newpid
      if state = .free then return newpid
      else newpidLoop fuel (i + 1) ((newpid + 1) % BitVec.ofNat 32 NPROC)
    else return -1

/-- The counter leaves the loop after `NPROC` rounds. -/
def newpid : Except Fault (BitVec 32 × SizedProcessTable NPROC) := do
  let newpid ← processes.newpidLoop (NPROC + 1) 0 processes.last
  return (newpid, processes)

/-- The slot that is `round` places behind `last`. -/
def slotAfter (round : ℕ) : ℕ := (processes.last.toNat + round) % NPROC

def IsFree (slot : ℕ) : Prop := processes.processState[slot]? = some .free

instance (slot : ℕ) : Decidable (processes.IsFree slot) :=
  inferInstanceAs (Decidable (processes.processState[slot]? = some .free))

/-- The pid is -1 when no slot is free, and otherwise that of the free slot with the fewest slots
between `last` and it. -/
structure FindsFirst (pid : BitVec 32) : Prop where
  none_iff : pid = -1 ↔ ∀ slot < NPROC, ¬ processes.IsFree slot
  first : pid ≠ -1 → ∃ round < NPROC, pid.toInt = processes.slotAfter round ∧
    processes.IsFree (processes.slotAfter round) ∧
      ∀ earlier < round, ¬ processes.IsFree (processes.slotAfter earlier)

variable {processes} {slot round : ℕ}

/-- Every slot has its round. -/
theorem exists_slotAfter (hlast : processes.last.toNat < NPROC) (hslot : slot < NPROC) :
    ∃ round < NPROC, processes.slotAfter round = slot := by
  refine ⟨(slot + NPROC - processes.last.toNat) % NPROC, Nat.mod_lt _ (by omega), ?_⟩
  rw [slotAfter, Nat.add_mod_mod, show processes.last.toNat + (slot + NPROC - processes.last.toNat) =
    slot + NPROC by omega, Nat.add_mod_right, Nat.mod_eq_of_lt hslot]

section Rounds

variable (hNPROC : NPROC ≤ 2 ^ 31 - 1)

include hNPROC

/-- A pid in range is its own index. -/
theorem stateAt_ofNat (hslot : slot < NPROC) :
    processes.stateAt (BitVec.ofNat 32 slot) = .ok processes.processState[slot] := by
  have hmsb : (BitVec.ofNat 32 slot).msb = false := by
    rw [BitVec.msb_eq_false_iff_two_mul_lt, BitVec.toNat_ofNat]
    omega
  have hindex : ((BitVec.ofNat 32 slot).signExtend 64).toNat = slot := by
    rw [BitVec.signExtend_eq_setWidth_of_msb_false hmsb, BitVec.toNat_setWidth, BitVec.toNat_ofNat]
    omega
  rw [stateAt, hindex, Vector.getElem?_eq_getElem hslot]

theorem next_slotAfter (hlast : processes.last.toNat < NPROC) :
    (BitVec.ofNat 32 (processes.slotAfter round) + 1) % BitVec.ofNat 32 NPROC =
      BitVec.ofNat 32 (processes.slotAfter (round + 1)) := by
  have hpos : 0 < NPROC := Nat.zero_lt_of_lt hlast
  have hslot : processes.slotAfter round < NPROC := Nat.mod_lt _ hpos
  apply BitVec.eq_of_toNat_eq
  rw [BitVec.toNat_umod, ofNat_add_one, BitVec.toNat_ofNat, BitVec.toNat_ofNat, BitVec.toNat_ofNat,
    Nat.mod_eq_of_lt (show processes.slotAfter round + 1 < 2 ^ 32 by omega),
    Nat.mod_eq_of_lt (show NPROC < 2 ^ 32 by omega), slotAfter, Nat.mod_add_mod, slotAfter,
    Nat.add_assoc, Nat.mod_eq_of_lt ((Nat.mod_lt _ hpos).trans (by omega))]

/-- The rounds that are left find the first of their slots that is free. -/
theorem newpidLoop_eq (hlast : processes.last.toNat < NPROC) (remaining round : ℕ)
    (hround : round + remaining = NPROC) :
    processes.newpidLoop (remaining + 1) (BitVec.ofNat 32 round)
        (BitVec.ofNat 32 (processes.slotAfter round)) =
      .ok (match (List.range' round remaining).find? fun round ↦
          processes.IsFree (processes.slotAfter round) with
        | some round => BitVec.ofNat 32 (processes.slotAfter round)
        | none => -1) := by
  induction remaining generalizing round with
  | zero =>
    have hend : ¬ BitVec.ofNat 32 round < BitVec.ofNat 32 NPROC := by
      rw [← hround, Nat.add_zero]
      exact BitVec.lt_irrefl _
    rw [newpidLoop, if_neg hend]
    rfl
  | succ remaining ih =>
    have hlt : BitVec.ofNat 32 round < BitVec.ofNat 32 NPROC := by
      rw [BitVec.lt_def, BitVec.toNat_ofNat, BitVec.toNat_ofNat]
      omega
    have hslot : processes.slotAfter round < NPROC := Nat.mod_lt _ (by omega)
    have hfree : processes.IsFree (processes.slotAfter round) ↔
        processes.processState[processes.slotAfter round] = .free := by
      rw [IsFree, Vector.getElem?_eq_getElem hslot, Option.some.injEq]
    rw [newpidLoop, if_pos hlt, stateAt_ofNat hNPROC hslot, ok_bind, List.range'_succ]
    by_cases hstate : processes.processState[processes.slotAfter round] = .free
    · rw [if_pos hstate, List.find?_cons, decide_eq_true (hfree.mpr hstate)]
      rfl
    · rw [if_neg hstate, List.find?_cons, decide_eq_false (mt hfree.mp hstate),
        next_slotAfter hNPROC hlast, ofNat_add_one, ih (round + 1) (by omega)]

theorem newpid_eq (hlast : processes.last.toNat < NPROC) :
    processes.newpid = .ok (match (List.range' 0 NPROC).find? fun round ↦
        processes.IsFree (processes.slotAfter round) with
      | some round => BitVec.ofNat 32 (processes.slotAfter round)
      | none => -1, processes) := by
  have hstart : BitVec.ofNat 32 (processes.slotAfter 0) = processes.last := by
    rw [slotAfter, Nat.add_zero, Nat.mod_eq_of_lt hlast, BitVec.ofNat_toNat, BitVec.setWidth_eq]
  have hloop := newpidLoop_eq hNPROC hlast NPROC 0 (Nat.zero_add NPROC)
  rw [hstart] at hloop
  rw [newpid, show (0 : BitVec 32) = BitVec.ofNat 32 0 from rfl, hloop, ok_bind]
  rfl

end Rounds

end SizedProcessTable

/-- For every size of the table, every assignment of states and every `last`, the search ends without
an access outside of `_buf`, finds the first free slot if there is one, and changes nothing. -/
theorem newpid_findsFirst {NPROC : ℕ} (hNPROC : NPROC ≤ 2 ^ 31 - 1)
    (processes : SizedProcessTable NPROC)
    (hlast : 0 ≤ processes.last.toInt ∧ processes.last.toInt < NPROC) :
    ∃ pid, processes.newpid = .ok (pid, processes) ∧ processes.FindsFirst pid := by
  have hlast : processes.last.toNat < NPROC := by
    rw [BitVec.toInt_eq_toNat_cond] at hlast
    have := processes.last.isLt
    omega
  have hpos : 0 < NPROC := Nat.zero_lt_of_lt hlast
  refine ⟨_, SizedProcessTable.newpid_eq hNPROC hlast, ?_⟩
  cases hfind : (List.range' 0 NPROC).find? fun round ↦
      processes.IsFree (processes.slotAfter round) with
  | none =>
    have hnone := List.find?_eq_none.mp hfind
    refine ⟨iff_of_true rfl fun slot hslot hfree ↦ ?_, fun hne ↦ absurd rfl hne⟩
    obtain ⟨round, hround, rfl⟩ := SizedProcessTable.exists_slotAfter hlast hslot
    exact hnone round (List.mem_range'_1.mpr ⟨Nat.zero_le _, by omega⟩) (decide_eq_true hfree)
  | some round =>
    obtain ⟨hfree, hmem, hearlier⟩ := List.find?_range'_eq_some.mp hfind
    have hround : round < NPROC := by
      have := (List.mem_range'_1.mp hmem).2
      omega
    have hslot : processes.slotAfter round < 2 ^ 31 - 1 := (Nat.mod_lt _ hpos).trans_le hNPROC
    have hpid : (BitVec.ofNat 32 (processes.slotAfter round)).toInt = processes.slotAfter round := by
      rw [BitVec.toInt_eq_toNat_cond, BitVec.toNat_ofNat]
      omega
    have hne : BitVec.ofNat 32 (processes.slotAfter round) ≠ -1 := by
      intro heq
      rw [heq] at hpid
      exact absurd hpid (by simp)
    refine ⟨iff_of_false hne fun hnone ↦ hnone _ (Nat.mod_lt _ hpos) (of_decide_eq_true hfree),
      fun _ ↦ ⟨round, hround, hpid, of_decide_eq_true hfree, fun earlier hlt hfree ↦ ?_⟩⟩
    have := hearlier earlier (Nat.zero_le _) hlt
    simp [hfree] at this

/-- The search starts at the last of three slots and goes on at the first. -/
theorem newpid_findsFirst_wrapped : ∃ processes : SizedProcessTable 3,
    processes.last = 2 ∧ processes.processState = #v[.free, .free, .wait] ∧
    processes.newpid = .ok (0, processes) ∧ processes.FindsFirst 0 := by
  obtain ⟨processes, hlast, hstates, hnewpid⟩ : ∃ processes : SizedProcessTable 3,
      processes.last = 2 ∧ processes.processState = #v[.free, .free, .wait] ∧
      processes.newpid = .ok (0, processes) := ⟨⟨#v[.free, .free, .wait], 2⟩, rfl, rfl, rfl⟩
  obtain ⟨pid, hpid, hfirst⟩ := newpid_findsFirst (by decide) processes (by rw [hlast]; decide)
  obtain ⟨rfl, -⟩ := ok_pair_inj hpid hnewpid
  exact ⟨processes, hlast, hstates, hnewpid, hfirst⟩

end PenelopeOS.Proc
