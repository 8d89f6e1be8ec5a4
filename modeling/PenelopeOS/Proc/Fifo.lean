import Mathlib.Algebra.Group.Nat.Defs
import Mathlib.Data.List.Nodup
import Mathlib.Logic.Function.Basic
import PenelopeOS.Foundation.DoublyLinked
import PenelopeOS.Proc.QueueTable

/-!
# The queue table as first-in first-out queues

`Fifo` is what the table is for: at most two queues of pids, where a pid waits in one place only. An
operation that the constraints of the table do not allow has no result. The table represents such
queues when the slots of each of them, head and tail included, are linked both ways. Every operation
keeps this and answers as the queues do, so a run of the table is a run of the queues.
-/

namespace PenelopeOS.Proc

open Machine Foundation

/-- The queues are numbered in the order in which they were created. -/
structure Fifo (NPROC : ℕ) where
  created : ℕ
  queue : ℕ → List ℤ
  created_le : created ≤ 2
  empty_of_le : ∀ index, created ≤ index → queue index = []
  nodup : ∀ index, (queue index).Nodup
  disjoint : ∀ first second, first ≠ second → ∀ pid ∈ queue first, pid ∉ queue second
  isPid : ∀ index, ∀ pid ∈ queue index, 0 ≤ pid ∧ pid < NPROC

/-- Queues are named by their number instead of their id. -/
inductive QueueOp where
  | newQueue
  | pushQueue (index : ℕ) (proc : ℤ)
  | popQueue (index : ℕ)
  deriving DecidableEq, Repr

/-- The id of a queue. -/
def queueId (NPROC index : ℕ) : BitVec 16 := BitVec.ofNat 16 (NPROC + 2 * index)

theorem queueId_succ (NPROC index : ℕ) : queueId NPROC (index + 1) = queueId NPROC index + 2 := by
  apply BitVec.eq_of_toNat_eq
  have htwo : (2 : BitVec 16).toNat = 2 := rfl
  simp only [queueId, BitVec.toNat_add, BitVec.toNat_ofNat, htwo]
  omega

namespace Fifo

variable {NPROC : ℕ} (fifo : Fifo NPROC)

def empty (NPROC : ℕ) : Fifo NPROC where
  created := 0
  queue _ := []
  created_le := Nat.zero_le 2
  empty_of_le _ _ := rfl
  nodup _ := List.nodup_nil
  disjoint _ _ _ _ hmem := by cases hmem
  isPid _ _ hmem := by cases hmem

def create (h : fifo.created < 2) : Fifo NPROC where
  created := fifo.created + 1
  queue := fifo.queue
  created_le := h
  empty_of_le index hindex := fifo.empty_of_le index (by omega)
  nodup := fifo.nodup
  disjoint := fifo.disjoint
  isPid := fifo.isPid

/-- The process waits in no queue. -/
def Idle (proc : ℤ) : Prop := ∀ index < fifo.created, proc ∉ fifo.queue index

instance (proc : ℤ) : Decidable (fifo.Idle proc) :=
  inferInstanceAs (Decidable (∀ index < fifo.created, proc ∉ fifo.queue index))

variable {fifo} in
theorem Idle.not_mem {proc : ℤ} (h : fifo.Idle proc) (index : ℕ) : proc ∉ fifo.queue index := by
  by_cases hindex : index < fifo.created
  · exact h index hindex
  · rw [fifo.empty_of_le index (not_lt.mp hindex)]
    exact List.not_mem_nil

def push (index : ℕ) (proc : ℤ) (hindex : index < fifo.created) (hpid : 0 ≤ proc ∧ proc < NPROC)
    (hidle : fifo.Idle proc) : Fifo NPROC where
  created := fifo.created
  queue := Function.update fifo.queue index (fifo.queue index ++ [proc])
  created_le := fifo.created_le
  empty_of_le other hother := by
    rw [Function.update_of_ne (by omega), fifo.empty_of_le other hother]
  nodup other := by
    by_cases heq : other = index
    · subst heq
      rw [Function.update_self, List.nodup_append]
      refine ⟨fifo.nodup other, List.nodup_singleton proc, ?_⟩
      intro pid hmem pid' hmem' heq
      rw [List.mem_singleton.mp hmem'] at heq
      exact hidle.not_mem other (heq ▸ hmem)
    · rw [Function.update_of_ne heq]
      exact fifo.nodup other
  disjoint first second hne pid hmem := by
    by_cases hfirst : first = index
    · subst hfirst
      rw [Function.update_of_ne hne.symm]
      rw [Function.update_self, List.mem_append, List.mem_singleton] at hmem
      rcases hmem with hmem | rfl
      · exact fifo.disjoint first second hne pid hmem
      · exact hidle.not_mem second
    · rw [Function.update_of_ne hfirst] at hmem
      by_cases hsecond : second = index
      · subst hsecond
        rw [Function.update_self, List.mem_append, List.mem_singleton, not_or]
        refine ⟨fifo.disjoint first second hne pid hmem, ?_⟩
        rintro rfl
        exact hidle.not_mem first hmem
      · rw [Function.update_of_ne hsecond]
        exact fifo.disjoint first second hne pid hmem
  isPid other pid hmem := by
    by_cases heq : other = index
    · subst heq
      rw [Function.update_self, List.mem_append, List.mem_singleton] at hmem
      rcases hmem with hmem | rfl
      · exact fifo.isPid other pid hmem
      · exact hpid
    · rw [Function.update_of_ne heq] at hmem
      exact fifo.isPid other pid hmem

def pop (index : ℕ) : Fifo NPROC where
  created := fifo.created
  queue := Function.update fifo.queue index (fifo.queue index).tail
  created_le := fifo.created_le
  empty_of_le other hother := by
    by_cases heq : other = index
    · subst heq
      rw [Function.update_self, fifo.empty_of_le other hother, List.tail_nil]
    · rw [Function.update_of_ne heq, fifo.empty_of_le other hother]
  nodup other := by
    by_cases heq : other = index
    · subst heq
      rw [Function.update_self]
      exact (fifo.nodup other).tail
    · rw [Function.update_of_ne heq]
      exact fifo.nodup other
  disjoint first second hne pid hmem hmem' := by
    refine fifo.disjoint first second hne pid ?_ ?_
    · by_cases heq : first = index
      · subst heq
        rw [Function.update_self] at hmem
        exact List.mem_of_mem_tail hmem
      · rwa [Function.update_of_ne heq] at hmem
    · by_cases heq : second = index
      · subst heq
        rw [Function.update_self] at hmem'
        exact List.mem_of_mem_tail hmem'
      · rwa [Function.update_of_ne heq] at hmem'
  isPid other pid hmem := by
    apply fifo.isPid other pid
    by_cases heq : other = index
    · subst heq
      rw [Function.update_self] at hmem
      exact List.mem_of_mem_tail hmem
    · rwa [Function.update_of_ne heq] at hmem

/-- The answer to an operation and the queues after it, where the operation is allowed. -/
def perform : QueueOp → Option (ℤ × Fifo NPROC)
  | .newQueue =>
    if h : fifo.created < 2 then some (NPROC + 2 * fifo.created, fifo.create h) else none
  | .pushQueue index proc =>
    if h : index < fifo.created ∧ (0 ≤ proc ∧ proc < NPROC) ∧ fifo.Idle proc then
      some (proc, fifo.push index proc h.1 h.2.1 h.2.2)
    else none
  | .popQueue index =>
    if index < fifo.created then
      match fifo.queue index with
      | [] => some (-1, fifo)
      | first :: _ => some (first, fifo.pop index)
    else none

def run (fifo : Fifo NPROC) : List QueueOp → Option (List ℤ × Fifo NPROC)
  | [] => some ([], fifo)
  | op :: ops => do
    let (answer, fifo) ← fifo.perform op
    let (answers, fifo) ← fifo.run ops
    return (answer :: answers, fifo)

/-- The slots of a queue from its head to its tail. -/
def slots (index : ℕ) : List ℤ :=
  head (queueId NPROC index) :: fifo.queue index ++ [tail (queueId NPROC index)]

end Fifo

namespace QueueTable

variable {NPROC : ℕ}

def perform (table : QueueTable NPROC) : QueueOp → Except Fault (ℤ × QueueTable NPROC)
  | .newQueue => do
    let (queue, table) ← table.newQueue
    return (head queue, table)
  | .pushQueue index proc => table.pushQueue (queueId NPROC index) proc
  | .popQueue index => table.popQueue (queueId NPROC index)

def run (table : QueueTable NPROC) : List QueueOp → Except Fault (List ℤ × QueueTable NPROC)
  | [] => .ok ([], table)
  | op :: ops => do
    let (answer, table) ← table.perform op
    let (answers, table) ← table.run ops
    return (answer :: answers, table)

/-- Each queue is linked both ways through the table, and the next id is the next queue's. -/
structure Represents (table : QueueTable NPROC) (fifo : Fifo NPROC) : Prop where
  nextqid : table.nextqid = queueId NPROC fifo.created
  linked : ∀ index < fifo.created, Linked table.nextAt table.prevAt (fifo.slots index)

end QueueTable

section Refinement

variable {NPROC : ℕ} {table : QueueTable NPROC} {fifo : Fifo NPROC} {index other : ℕ} {proc : ℤ}
  (hNPROC : NPROC + 4 ≤ 2 ^ 16)

/-! ## Sentinels -/

include hNPROC

theorem head_queueId (hindex : index < 2) : head (queueId NPROC index) = NPROC + 2 * index := by
  simp only [head, queueId, BitVec.toNat_ofNat]
  omega

theorem tail_queueId (hindex : index < 2) : tail (queueId NPROC index) = NPROC + 2 * index + 1 := by
  have hone : (1 : BitVec 16).toNat = 1 := rfl
  simp only [tail, queueId, BitVec.toNat_add, BitVec.toNat_ofNat, hone]
  omega

theorem isSlot_sentinel (hindex : index < 2) :
    QueueTable.IsSlot NPROC (head (queueId NPROC index)) ∧
      QueueTable.IsSlot NPROC (tail (queueId NPROC index)) := by
  rw [head_queueId hNPROC hindex, tail_queueId hNPROC hindex]
  unfold QueueTable.IsSlot
  omega

/-- No slot belongs to a queue twice. -/
theorem nodup_slots (fifo : Fifo NPROC) (hindex : index < fifo.created) : (fifo.slots index).Nodup := by
  have htwo := hindex.trans_le fifo.created_le
  have hpid := fifo.isPid index
  have hhead := head_queueId hNPROC htwo
  have htail := tail_queueId hNPROC htwo
  simp only [Fifo.slots, List.cons_append, List.nodup_cons, List.mem_append, List.mem_singleton,
    List.nodup_append, List.not_mem_nil, not_false_eq_true, List.nodup_nil, and_true, true_and]
  refine ⟨?_, fifo.nodup index, fun pid hmem slot hslot ↦ ?_⟩
  · rintro (hmem | heq)
    · have := hpid _ hmem
      omega
    · omega
  · have := hpid pid hmem
    omega

/-- No slot belongs to two queues. -/
theorem not_mem_slots_of_ne (hindex : index < fifo.created) (hother : other < fifo.created)
    (hne : index ≠ other) {slot : ℤ} (hmem : slot ∈ fifo.slots index) : slot ∉ fifo.slots other := by
  have hpid := fifo.isPid index
  have hpid' := fifo.isPid other
  have htwo := hindex.trans_le fifo.created_le
  have htwo' := hother.trans_le fifo.created_le
  intro hmem'
  simp only [Fifo.slots, List.cons_append, List.mem_cons, List.mem_append, List.not_mem_nil,
    or_false, head_queueId hNPROC htwo, tail_queueId hNPROC htwo, head_queueId hNPROC htwo',
    tail_queueId hNPROC htwo'] at hmem hmem'
  rcases hmem with rfl | hmem | rfl
  · rcases hmem' with heq | hmem' | heq
    · omega
    · have := hpid' _ hmem'
      omega
    · omega
  · rcases hmem' with heq | hmem' | heq
    · have := hpid _ hmem
      omega
    · exact fifo.disjoint index other hne slot hmem hmem'
    · have := hpid _ hmem
      omega
  · rcases hmem' with heq | hmem' | heq
    · omega
    · have := hpid' _ hmem'
      omega
    · omega

theorem not_mem_slots_of_idle (hpid : 0 ≤ proc ∧ proc < NPROC) (hidle : fifo.Idle proc)
    (hindex : index < fifo.created) : proc ∉ fifo.slots index := by
  have htwo := hindex.trans_le fifo.created_le
  simp only [Fifo.slots, List.cons_append, List.mem_cons, List.mem_append, List.not_mem_nil,
    or_false, head_queueId hNPROC htwo, tail_queueId hNPROC htwo, not_or]
  refine ⟨?_, hidle index hindex, ?_⟩ <;> omega

/-- A slot in front of a tail is not a tail. -/
theorem ne_tail_of_mem (hindex : index < fifo.created) (hother : other < 2) {slot : ℤ}
    (hmem : slot ∈ head (queueId NPROC index) :: fifo.queue index) :
    slot ≠ tail (queueId NPROC other) := by
  have hhead := head_queueId hNPROC (hindex.trans_le fifo.created_le)
  have htail := tail_queueId hNPROC hother
  rcases List.mem_cons.mp hmem with heq | hmem
  · omega
  · have := fifo.isPid index slot hmem
    omega

/-- A slot behind a head is not a head. -/
theorem ne_head_of_mem (hindex : index < fifo.created) (hother : other < 2) {slot : ℤ}
    (hmem : slot ∈ fifo.queue index ++ [tail (queueId NPROC index)]) :
    slot ≠ head (queueId NPROC other) := by
  have htail := tail_queueId hNPROC (hindex.trans_le fifo.created_le)
  have hhead := head_queueId hNPROC hother
  rcases List.mem_append.mp hmem with hmem | hmem
  · have := fifo.isPid index slot hmem
    omega
  · have := List.mem_singleton.mp hmem
    omega

/-! ## Ends of a queue -/

section Ends

variable {next prev : ℤ → Option ℤ} (hlinked : Linked next prev (fifo.slots index))

include hlinked

omit hNPROC

/-- The slots of a queue end in its last pid, or its head, and its tail. -/
theorem exists_last : ∃ front last,
    head (queueId NPROC index) :: fifo.queue index = front ++ [last] ∧
    Linked next prev (front ++ [last, tail (queueId NPROC index)]) ∧
    next last = some (tail (queueId NPROC index)) ∧
    prev (tail (queueId NPROC index)) = some last := by
  have hne : head (queueId NPROC index) :: fifo.queue index ≠ [] := List.cons_ne_nil _ _
  have hsplit := List.dropLast_append_getLast hne
  rw [Fifo.slots, ← hsplit, List.append_assoc, List.singleton_append] at hlinked
  obtain ⟨-, hlink, -⟩ := List.isChain_append_cons_cons.mp hlinked
  exact ⟨_, _, hsplit.symm, hlinked, hlink.1, hlink.2⟩

theorem next_head : next (head (queueId NPROC index)) =
    some ((fifo.queue index).head?.getD (tail (queueId NPROC index))) := by
  unfold Fifo.slots at hlinked
  cases hqueue : fifo.queue index with
  | nil =>
    rw [hqueue] at hlinked
    exact (List.isChain_pair.mp hlinked).1
  | cons first rest =>
    rw [hqueue] at hlinked
    exact (List.isChain_cons_cons.mp hlinked).1.1

theorem prev_tail : prev (tail (queueId NPROC index)) =
    some ((fifo.queue index).getLast?.getD (head (queueId NPROC index))) := by
  obtain ⟨front, last, hsplit, -, -, hlast⟩ := exists_last hlinked
  have hgetLast := congrArg List.getLast? hsplit
  rw [List.getLast?_cons, List.getLast?_concat] at hgetLast
  rw [hlast, hgetLast]

end Ends

/-! ## Steps -/

namespace QueueTable.Represents

omit hNPROC in
/-- Slots that two assignments to each field do not touch stay linked. -/
theorem linked_assign {next prev : ℤ → Option ℤ} {nodes : List ℤ}
    (hlinked : Linked next prev nodes) {first second third fourth value value' other other' : ℤ}
    (hnext : ∀ slot ∈ nodes, slot ≠ first ∧ slot ≠ second)
    (hprev : ∀ slot ∈ nodes, slot ≠ third ∧ slot ≠ fourth) :
    Linked (assign (assign next first value) second value')
      (assign (assign prev third other) fourth other') nodes := by
  apply hlinked.frame
  · intro slot hslot
    obtain ⟨hfirst, hsecond⟩ := hnext slot (List.dropLast_subset _ hslot)
    rw [assign_of_ne hsecond, assign_of_ne hfirst]
  · intro slot hslot
    obtain ⟨hthird, hfourth⟩ := hprev slot (List.mem_of_mem_tail hslot)
    rw [assign_of_ne hfourth, assign_of_ne hthird]

omit hNPROC in
/-- A slot that is not among the others is linked in before the last one. -/
theorem linked_assign_push {next prev : ℤ → Option ℤ} {front : List ℤ} {last final proc : ℤ}
    (hlinked : Linked next prev (front ++ [last, final])) (hnodup : (front ++ [last, final]).Nodup)
    (hidle : proc ∉ front ++ [last, final]) :
    Linked (assign (assign next last proc) proc final) (assign (assign prev proc last) final proc)
      (front ++ [last, proc, final]) := by
  have hneProc (slot : ℤ) (hslot : slot ∈ front ++ [last, final]) : slot ≠ proc :=
    ne_of_mem_of_not_mem hslot hidle
  have hlastProc := hneProc last (by simp)
  have hfinalProc := hneProc final (by simp)
  simp only [List.nodup_append, List.nodup_cons, List.mem_cons, List.not_mem_nil, or_false,
    forall_eq_or_imp, forall_eq] at hnodup
  obtain ⟨-, ⟨hlastFinal, -⟩, hfront⟩ := hnodup
  refine hlinked.insert_before_last (fun slot hslot ↦ ?_) (fun slot hslot ↦ ?_) ?_ ?_
    (assign_same _ _ _) (assign_same _ _ _)
  · rw [assign_of_ne (hneProc slot (List.mem_append_left _ hslot)), assign_of_ne (hfront slot hslot).1]
  · have hmem := List.mem_of_mem_tail hslot
    have hneFinal : slot ≠ final := by
      rcases List.mem_append.mp hmem with hmem | hmem
      · exact (hfront slot hmem).2
      · rwa [List.mem_singleton.mp hmem]
    have hslots : slot ∈ front ++ [last, final] := by
      rw [← List.singleton_append, ← List.append_assoc]
      exact List.mem_append_left _ hmem
    rw [assign_of_ne hneFinal, assign_of_ne (hneProc slot hslots)]
  · rw [assign_of_ne hlastProc, assign_same]
  · rw [assign_of_ne hfinalProc.symm, assign_same]

omit hNPROC in
/-- The slot behind the first one is passed over. -/
theorem linked_assign_pop {next prev : ℤ → Option ℤ} {after : List ℤ}
    {start first second value value' : ℤ}
    (hlinked : Linked next prev (start :: first :: second :: after))
    (hnodup : (start :: first :: second :: after).Nodup) :
    Linked (assign (assign next start second) first value)
      (assign (assign prev second start) first value') (start :: second :: after) := by
  obtain ⟨hstartNot, hnodupRest⟩ := List.nodup_cons.mp hnodup
  obtain ⟨hfirstNot, hnodupAfter⟩ := List.nodup_cons.mp hnodupRest
  obtain ⟨hsecondNot, -⟩ := List.nodup_cons.mp hnodupAfter
  rw [List.mem_cons, not_or] at hstartNot
  refine hlinked.remove_second (fun slot hslot ↦ ?_) (fun slot hslot ↦ ?_) ?_ ?_
  · have hmem := List.dropLast_subset _ hslot
    have hneFirst : slot ≠ first := ne_of_mem_of_not_mem hmem hfirstNot
    have hneStart : slot ≠ start := ne_of_mem_of_not_mem hmem hstartNot.2
    rw [assign_of_ne hneFirst, assign_of_ne hneStart]
  · have hneFirst : slot ≠ first := ne_of_mem_of_not_mem (List.mem_cons_of_mem _ hslot) hfirstNot
    have hneSecond : slot ≠ second := ne_of_mem_of_not_mem hslot hsecondNot
    rw [assign_of_ne hneFirst, assign_of_ne hneSecond]
  · rw [assign_of_ne hstartNot.1, assign_same]
  · have hfirstSecond : second ≠ first := ne_of_mem_of_not_mem List.mem_cons_self hfirstNot
    rw [assign_of_ne hfirstSecond, assign_same]

omit hNPROC in
theorem zero : (QueueTable.zero NPROC).Represents (Fifo.empty NPROC) where
  nextqid := rfl
  linked _ hindex := absurd hindex (Nat.not_lt_zero _)

variable (h : table.Represents fifo)

include h

theorem newQueue (hroom : fifo.created < 2) :
    ∃ table', table.newQueue = .ok (queueId NPROC fifo.created, table') ∧
      table'.Represents (fifo.create hroom) := by
  obtain ⟨hheadSlot, htailSlot⟩ := isSlot_sentinel hNPROC hroom
  rw [← h.nextqid] at hheadSlot htailSlot
  obtain ⟨table', hrun, hholds⟩ := newQueue_spec table hheadSlot htailSlot
  rw [h.nextqid] at hrun hholds
  have hhead := head_queueId hNPROC hroom
  have htail := tail_queueId hNPROC hroom
  refine ⟨table', hrun, ?_, fun index hindex ↦ ?_⟩
  · exact hholds.nextqid.trans (queueId_succ NPROC fifo.created).symm
  · rw [hholds.next, hholds.prev]
    change index < fifo.created + 1 at hindex
    by_cases hnew : index = fifo.created
    · subst hnew
      change Linked _ _ (head _ :: fifo.queue fifo.created ++ [tail _])
      rw [fifo.empty_of_le _ le_rfl]
      refine List.isChain_pair.mpr ⟨?_, assign_same _ _ _⟩
      rw [assign_of_ne (by omega), assign_same]
    · have hold := h.linked index (by omega)
      have hfar (slot : ℤ) (hslot : slot ∈ fifo.slots index) :
          slot ≠ head (queueId NPROC fifo.created) ∧ slot ≠ tail (queueId NPROC fifo.created) := by
        have hnot := not_mem_slots_of_ne hNPROC
          (show index < (fifo.create hroom).created from hindex) (Nat.lt_succ_self _) hnew hslot
        simp only [Fifo.slots, List.cons_append, List.mem_cons, List.mem_append, not_or,
          List.not_mem_nil, or_false] at hnot
        exact ⟨hnot.1, hnot.2.2⟩
      exact linked_assign hold hfar hfar

omit hNPROC in
/-- A push onto a represented queue writes beside the slot before the tail. -/
theorem exists_pushQueue (hindex : index < fifo.created) (hproc : IsSlot NPROC proc) :
    ∃ front last table', head (queueId NPROC index) :: fifo.queue index = front ++ [last] ∧
      table.pushQueue (queueId NPROC index) proc = .ok (proc, table') ∧
      table'.Holds table.nextqid table.keyAt
        (assign (assign table.nextAt last proc) proc (tail (queueId NPROC index)))
        (assign (assign table.prevAt proc last) (tail (queueId NPROC index)) proc) := by
  obtain ⟨front, last, hsplit, -, hlastNext, hlastPrev⟩ := exists_last (h.linked index hindex)
  obtain ⟨table', hrun, hholds⟩ := pushQueue_spec hlastPrev (isSlot_of_nextAt hlastNext) hproc
  exact ⟨front, last, table', hsplit, hrun, hholds⟩

theorem pushQueue (hindex : index < fifo.created) (hpid : 0 ≤ proc ∧ proc < NPROC)
    (hidle : fifo.Idle proc) :
    ∃ table', table.pushQueue (queueId NPROC index) proc = .ok (proc, table') ∧
      table'.Represents (fifo.push index proc hindex hpid hidle) := by
  obtain ⟨front, last, table', hsplit, hrun, hholds⟩ :=
    h.exists_pushQueue hindex (show IsSlot NPROC proc from ⟨hpid.1, by omega⟩)
  have hslots : fifo.slots index = front ++ [last, tail (queueId NPROC index)] := by
    rw [Fifo.slots, hsplit, List.append_assoc, List.singleton_append]
  refine ⟨table', hrun, hholds.nextqid.trans h.nextqid, fun other hother ↦ ?_⟩
  change other < fifo.created at hother
  rw [hholds.next, hholds.prev]
  have hnotMem := not_mem_slots_of_idle hNPROC hpid hidle hother
  by_cases heq : other = index
  · subst heq
    have hnew : (fifo.push other proc hindex hpid hidle).slots other =
        front ++ [last, proc, tail (queueId NPROC other)] := by
      simp only [Fifo.slots, Fifo.push, Function.update_self]
      rw [← List.cons_append, hsplit]
      simp
    have hlinked := h.linked other hother
    have hnodup := nodup_slots hNPROC fifo hother
    rw [hslots] at hlinked hnodup hnotMem
    rw [hnew]
    exact linked_assign_push hlinked hnodup hnotMem
  · have hnew : (fifo.push index proc hindex hpid hidle).slots other = fifo.slots other := by
      simp only [Fifo.slots, Fifo.push, Function.update_of_ne heq]
    have hneProc (slot : ℤ) (hslot : slot ∈ fifo.slots other) : slot ≠ proc :=
      ne_of_mem_of_not_mem hslot hnotMem
    have hfar (slot : ℤ) (hslot : slot ∈ fifo.slots other) :
        slot ≠ last ∧ slot ≠ tail (queueId NPROC index) := by
      have hnot := not_mem_slots_of_ne hNPROC hother hindex heq hslot
      rw [hslots] at hnot
      simp only [List.mem_append, List.mem_cons, List.not_mem_nil, or_false, not_or] at hnot
      exact hnot.2
    rw [hnew]
    exact linked_assign (h.linked other hother)
      (fun slot hslot ↦ ⟨(hfar slot hslot).1, hneProc slot hslot⟩)
      fun slot hslot ↦ ⟨hneProc slot hslot, (hfar slot hslot).2⟩

omit hNPROC in
theorem popQueue_nil (hindex : index < fifo.created) (hqueue : fifo.queue index = []) :
    table.popQueue (queueId NPROC index) = .ok (-1, table) := by
  have hlinked := h.linked index hindex
  rw [Fifo.slots, hqueue] at hlinked
  exact popQueue_of_empty (List.isChain_pair.mp hlinked).1

/-- A pop of a represented queue writes beside its second slot. -/
theorem exists_popQueue {first : ℤ} {rest : List ℤ} (hindex : index < fifo.created)
    (hqueue : fifo.queue index = first :: rest) :
    ∃ second after table', rest ++ [tail (queueId NPROC index)] = second :: after ∧
      table.popQueue (queueId NPROC index) = .ok (first, table') ∧
      table'.Holds table.nextqid table.keyAt
        (assign (assign table.nextAt (head (queueId NPROC index)) second) first (-1))
        (assign (assign table.prevAt second (head (queueId NPROC index))) first (-1)) := by
  have htwo := hindex.trans_le fifo.created_le
  obtain ⟨second, after, hafter⟩ : ∃ second after,
      rest ++ [tail (queueId NPROC index)] = second :: after :=
    List.exists_cons_of_ne_nil (by simp)
  have hlinked := h.linked index hindex
  rw [Fifo.slots, hqueue, List.cons_append, List.cons_append, hafter] at hlinked
  obtain ⟨hhead, hrest⟩ := List.isChain_cons_cons.mp hlinked
  obtain ⟨hfirst, -⟩ := List.isChain_cons_cons.mp hrest
  have hmem : first ∈ fifo.queue index := by simp [hqueue]
  have hfirstTail := ne_tail_of_mem hNPROC hindex htwo (List.mem_cons_of_mem _ hmem)
  have hfirstHead := ne_head_of_mem hNPROC hindex htwo (List.mem_append_left _ hmem)
  obtain ⟨table', hrun, hholds⟩ :=
    popQueue_spec hhead.1 hfirstTail hfirstHead hfirst.1 (isSlot_of_prevAt hfirst.2)
  exact ⟨second, after, table', hafter, hrun, hholds⟩

theorem popQueue_cons {first : ℤ} {rest : List ℤ} (hindex : index < fifo.created)
    (hqueue : fifo.queue index = first :: rest) :
    ∃ table', table.popQueue (queueId NPROC index) = .ok (first, table') ∧
      table'.Represents (fifo.pop index) := by
  obtain ⟨second, after, table', hafter, hrun, hholds⟩ := h.exists_popQueue hNPROC hindex hqueue
  have hslots : fifo.slots index = head (queueId NPROC index) :: first :: second :: after := by
    rw [Fifo.slots, hqueue, List.cons_append, List.cons_append, hafter]
  refine ⟨table', hrun, hholds.nextqid.trans h.nextqid, fun other hother ↦ ?_⟩
  change other < fifo.created at hother
  rw [hholds.next, hholds.prev]
  by_cases heq : other = index
  · subst heq
    have hnew : (fifo.pop other).slots other = head (queueId NPROC other) :: second :: after := by
      simp only [Fifo.slots, Fifo.pop, Function.update_self, hqueue, List.tail_cons]
      rw [List.cons_append, hafter]
    have hlinked := h.linked other hother
    have hnodup := nodup_slots hNPROC fifo hother
    rw [hslots] at hlinked hnodup
    rw [hnew]
    exact linked_assign_pop hlinked hnodup
  · have hnew : (fifo.pop index).slots other = fifo.slots other := by
      simp only [Fifo.slots, Fifo.pop, Function.update_of_ne heq]
    have hfar (slot : ℤ) (hslot : slot ∈ fifo.slots other) :
        slot ≠ head (queueId NPROC index) ∧ slot ≠ first ∧ slot ≠ second := by
      have hnot := not_mem_slots_of_ne hNPROC hother hindex heq hslot
      rw [hslots] at hnot
      simp only [List.mem_cons, not_or] at hnot
      exact ⟨hnot.1, hnot.2.1, hnot.2.2.1⟩
    rw [hnew]
    exact linked_assign (h.linked other hother)
      (fun slot hslot ↦ ⟨(hfar slot hslot).1, (hfar slot hslot).2.1⟩)
      fun slot hslot ↦ ⟨(hfar slot hslot).2.2, (hfar slot hslot).2.1⟩

/-! ## Inspections -/

theorem isEmpty_eq (hindex : index < fifo.created) :
    table.isEmpty (queueId NPROC index) = .ok (fifo.queue index).isEmpty := by
  rw [QueueTable.isEmpty_eq (next_head (h.linked index hindex))]
  cases hqueue : fifo.queue index with
  | nil => simp
  | cons first rest =>
    have hpid := fifo.isPid index first (by simp [hqueue])
    have htail := tail_queueId hNPROC (hindex.trans_le fifo.created_le)
    have hne : first ≠ tail (queueId NPROC index) := by omega
    simp [hne]

/-! ## Runs -/

/-- An allowed operation is answered by the table as by the queues. -/
theorem perform {op : QueueOp} {answer : ℤ} {fifo' : Fifo NPROC}
    (hop : fifo.perform op = some (answer, fifo')) :
    ∃ table', table.perform op = .ok (answer, table') ∧ table'.Represents fifo' := by
  cases op with
  | newQueue =>
    simp only [Fifo.perform] at hop
    split_ifs at hop with hroom
    obtain ⟨rfl, rfl⟩ := Prod.mk.inj (Option.some.inj hop)
    obtain ⟨table', hrun, hrepresents⟩ := h.newQueue hNPROC hroom
    refine ⟨table', ?_, hrepresents⟩
    rw [QueueTable.perform, hrun, ok_bind, ← head_queueId hNPROC hroom]
    rfl
  | pushQueue index proc =>
    simp only [Fifo.perform] at hop
    split_ifs at hop with hallowed
    obtain ⟨rfl, rfl⟩ := Prod.mk.inj (Option.some.inj hop)
    exact h.pushQueue hNPROC hallowed.1 hallowed.2.1 hallowed.2.2
  | popQueue index =>
    simp only [Fifo.perform] at hop
    split_ifs at hop with hindex
    split at hop
    · obtain ⟨rfl, rfl⟩ := Prod.mk.inj (Option.some.inj hop)
      exact ⟨table, h.popQueue_nil hindex (by assumption), h⟩
    · obtain ⟨rfl, rfl⟩ := Prod.mk.inj (Option.some.inj hop)
      exact h.popQueue_cons hNPROC hindex (by assumption)

/-- A run of allowed operations is answered by the table as by the queues. -/
theorem run {ops : List QueueOp} {answers : List ℤ} {fifo' : Fifo NPROC}
    (hrun : fifo.run ops = some (answers, fifo')) :
    ∃ table', table.run ops = .ok (answers, table') ∧ table'.Represents fifo' := by
  induction ops generalizing table fifo answers with
  | nil =>
    obtain ⟨rfl, rfl⟩ := Prod.mk.inj (Option.some.inj hrun)
    exact ⟨table, rfl, h⟩
  | cons op ops ih =>
    obtain ⟨⟨answer, middle⟩, hop, hrest⟩ := Option.bind_eq_some_iff.mp hrun
    obtain ⟨⟨answers', final⟩, hops, hanswers⟩ := Option.bind_eq_some_iff.mp hrest
    obtain ⟨rfl, rfl⟩ := Prod.mk.inj (Option.some.inj hanswers)
    obtain ⟨table₁, hrun₁, hrepresents₁⟩ := h.perform hNPROC hop
    obtain ⟨table₂, hrun₂, hrepresents₂⟩ := ih hrepresents₁ hops
    refine ⟨table₂, ?_, hrepresents₂⟩
    rw [QueueTable.run, hrun₁, ok_bind]
    simp only [hrun₂, ok_bind]
    rfl

end QueueTable.Represents

end Refinement

/-- From the table before its first use, any run that the constraints allow is answered as by the
queues. Each queue is then visited forwards from its head and backwards from its tail, no pid waits
twice, the inspections agree with the queue, and a pop of an empty queue changes nothing. -/
theorem queueTable_refines_fifo {NPROC : ℕ} (hNPROC : NPROC + 4 ≤ 2 ^ 16) (ops : List QueueOp)
    (answers : List ℤ) (fifo : Fifo NPROC) (hrun : (Fifo.empty NPROC).run ops = some (answers, fifo)) :
    ∃ table, (QueueTable.zero NPROC).run ops = .ok (answers, table) ∧
      (∀ index, (fifo.queue index).Nodup) ∧
      (∀ first second, first ≠ second → ∀ pid ∈ fifo.queue first, pid ∉ fifo.queue second) ∧
      ∀ index < fifo.created,
        (head (queueId NPROC index) :: fifo.queue index ++ [tail (queueId NPROC index)]).IsChain
          (fun slot successor ↦ table.nextAt slot = some successor) ∧
        (tail (queueId NPROC index) :: (fifo.queue index).reverse ++
          [head (queueId NPROC index)]).IsChain
          (fun slot predecessor ↦ table.prevAt slot = some predecessor) ∧
        table.isEmpty (queueId NPROC index) = .ok (fifo.queue index).isEmpty ∧
        table.firstPid (queueId NPROC index) =
          .ok ((fifo.queue index).head?.getD (tail (queueId NPROC index))) ∧
        table.lastPid (queueId NPROC index) =
          .ok ((fifo.queue index).getLast?.getD (head (queueId NPROC index))) ∧
        (fifo.queue index = [] → table.popQueue (queueId NPROC index) = .ok (-1, table)) := by
  obtain ⟨table, htable, hrepresents⟩ := QueueTable.Represents.zero.run hNPROC hrun
  refine ⟨table, htable, fifo.nodup, fifo.disjoint, fun index hindex ↦ ?_⟩
  have hlinked := hrepresents.linked index hindex
  have hbackward := hlinked.backward
  have hreverse : (fifo.slots index).reverse = tail (queueId NPROC index) ::
      (fifo.queue index).reverse ++ [head (queueId NPROC index)] := by
    simp [Fifo.slots]
  refine ⟨hlinked.forward, hreverse ▸ hbackward, hrepresents.isEmpty_eq hNPROC hindex,
    QueueTable.firstPid_eq (next_head hlinked),
    QueueTable.lastPid_eq (prev_tail hlinked), hrepresents.popQueue_nil hindex⟩

/-- Process 3 moves from the first queue to the second. -/
theorem queueTable_refines_fifo_migration :
    ∃ table, (QueueTable.zero 10).run [.newQueue, .newQueue, .pushQueue 0 3, .pushQueue 0 5,
        .popQueue 0, .pushQueue 1 3] = .ok ([10, 12, 3, 5, 3, 3], table) ∧
      table.firstPid 10 = .ok 5 ∧ table.lastPid 12 = .ok 3 := by
  obtain ⟨table, hrun, -, -, hqueues⟩ := queueTable_refines_fifo (show 10 + 4 ≤ 2 ^ 16 by decide)
    [.newQueue, .newQueue, .pushQueue 0 3, .pushQueue 0 5, .popQueue 0, .pushQueue 1 3] _ _ rfl
  exact ⟨table, hrun, (hqueues 0 (by decide)).2.2.2.1, (hqueues 1 (by decide)).2.2.2.2.1⟩

end PenelopeOS.Proc
