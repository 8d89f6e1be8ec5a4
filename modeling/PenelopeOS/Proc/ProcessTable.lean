import PenelopeOS.Proc.Fifo
import PenelopeOS.Proc.ProcessSearch

/-!
# Pids of the process table in the queue table

The process table has room for 32 processes and the queue table for 10, each under the name `NPROC`.
A pid from 10 to 13 is the slot of a head or a tail in the queue table, and a larger one is no slot
at all, so a push is safe just for the pids below 10.
-/

namespace PenelopeOS.Proc

open Machine Foundation

/-- `proc::NPROC` -/
def processNPROC : ℕ := 32

/-- `proc::queue::NPROC` -/
def queueNPROC : ℕ := 10

/-- What `newpid` reads of `processTable`. -/
structure ProcessTable where
  processState : Vector ProcessState processNPROC
  last : Fin processNPROC

/-- The table for the search, with a `last` that is an index into `_buf`. -/
def ProcessTable.sized (processes : ProcessTable) : SizedProcessTable processNPROC where
  processState := processes.processState
  last := BitVec.ofNat 32 processes.last

/-- The answer of `newpid`, which never leaves `_buf`. -/
def ProcessTable.newpid (processes : ProcessTable) : ℤ :=
  match processes.sized.newpid with
  | .ok (newpid, _) => newpid.toInt
  | .error _ => -1

theorem ProcessTable.newpid_range (processes : ProcessTable) :
    processes.newpid = -1 ∨ 0 ≤ processes.newpid ∧ processes.newpid < processNPROC := by
  have hlast : processes.sized.last.toNat < processNPROC := by
    rw [sized, BitVec.toNat_ofNat]
    exact (Nat.mod_le _ _).trans_lt processes.last.isLt
  rw [newpid, SizedProcessTable.newpid_eq (by decide) hlast]
  cases (List.range' 0 processNPROC).find? fun round ↦
      processes.sized.IsFree (processes.sized.slotAfter round) with
  | none => exact Or.inl (show (-1 : BitVec 32).toInt = -1 by decide)
  | some round =>
    have hslot : processes.sized.slotAfter round < 32 := Nat.mod_lt _ (by decide)
    have hpid : (BitVec.ofNat 32 (processes.sized.slotAfter round)).toInt =
        processes.sized.slotAfter round := by
      rw [BitVec.toInt_eq_toNat_cond, BitVec.toNat_ofNat]
      omega
    refine Or.inr ?_
    change 0 ≤ (BitVec.ofNat 32 (processes.sized.slotAfter round)).toInt ∧
      (BitVec.ofNat 32 (processes.sized.slotAfter round)).toInt < 32
    omega

/-- The push stays in range, writes the slot of the process and the links of the old last slot and of
the tail, leaves every other head and tail alone, appends to its queue and keeps the other one. The
old last slot of an empty queue is its head. -/
def PushesSafely {NPROC : ℕ} (table : QueueTable NPROC) (fifo : Fifo NPROC) (index : ℕ) (pid : ℤ) :
    Prop :=
  ∃ oldlast table', table.lastPid (queueId NPROC index) = .ok oldlast ∧
    table.pushQueue (queueId NPROC index) pid = .ok (pid, table') ∧
    (∀ slot ≠ pid, slot ≠ oldlast → slot ≠ tail (queueId NPROC index) →
      table'.node? slot = table.node? slot) ∧
    (oldlast ≠ pid → table'.keyAt oldlast = table.keyAt oldlast ∧
      table'.prevAt oldlast = table.prevAt oldlast) ∧
    (∀ other < fifo.created,
      (head (queueId NPROC other) ≠ oldlast → table'.node? (head (queueId NPROC other)) =
        table.node? (head (queueId NPROC other))) ∧
      (other ≠ index → table'.node? (tail (queueId NPROC other)) =
        table.node? (tail (queueId NPROC other)))) ∧
    Linked table'.nextAt table'.prevAt
      (head (queueId NPROC index) :: (fifo.queue index ++ [pid]) ++ [tail (queueId NPROC index)]) ∧
    ∀ other < fifo.created, other ≠ index → Linked table'.nextAt table'.prevAt (fifo.slots other)

namespace QueueTable

variable {NPROC : ℕ} {table table' : QueueTable NPROC} {fifo : Fifo NPROC} {index : ℕ} {pid : ℤ}

theorem node_ext {slot : ℤ} (hkey : table'.keyAt slot = table.keyAt slot)
    (hnext : table'.nextAt slot = table.nextAt slot) (hprev : table'.prevAt slot = table.prevAt slot) :
    table'.node? slot = table.node? slot := by
  unfold keyAt at hkey
  unfold nextAt at hnext
  unfold prevAt at hprev
  cases hnode : table.node? slot with
  | none => simpa [hnode] using hkey
  | some node =>
    cases hnode' : table'.node? slot with
    | none => simp [hnode, hnode'] at hkey
    | some node' =>
      simp only [hnode, hnode', Option.map_some, Option.some.injEq] at hkey hnext hprev
      cases node
      cases node'
      simp_all

section Ends

variable {next prev : ℤ → Option ℤ} (hlinked : Linked next prev (fifo.slots index))

include hlinked

theorem exists_next_head : ∃ slot ∈ fifo.slots index,
    next (head (queueId NPROC index)) = some slot := by
  refine ⟨_, ?_, next_head hlinked⟩
  cases hqueue : fifo.queue index <;> simp [Fifo.slots, hqueue]

theorem exists_prev_tail : ∃ slot ∈ fifo.slots index,
    prev (tail (queueId NPROC index)) = some slot := by
  obtain ⟨front, last, hsplit, -, -, hlast⟩ := exists_last hlinked
  refine ⟨last, ?_, hlast⟩
  rw [Fifo.slots, hsplit]
  simp

end Ends

variable (hNPROC : NPROC + 4 ≤ 2 ^ 16) (h : table.Represents fifo) (htwo : fifo.created = 2)
  (hindex : index < fifo.created)

include hNPROC h hindex

theorem pushesSafely_of_lt (hpid : 0 ≤ pid ∧ pid < NPROC) (hidle : fifo.Idle pid) :
    PushesSafely table fifo index pid := by
  obtain ⟨front, last, hsplit, -, hlastNext, hlastPrev⟩ := exists_last (h.linked index hindex)
  obtain ⟨table', hrun, hholds⟩ := pushQueue_spec hlastPrev (isSlot_of_nextAt hlastNext)
    (show IsSlot NPROC pid from ⟨hpid.1, by omega⟩)
  obtain ⟨table'', hrun', hrepresents⟩ := h.pushQueue hNPROC hindex hpid hidle
  obtain ⟨-, rfl⟩ := ok_pair_inj hrun hrun'
  have hkey (slot : ℤ) : table'.keyAt slot = table.keyAt slot := congrFun hholds.key slot
  have hnode (slot : ℤ) (hpidNe : slot ≠ pid) (hlastNe : slot ≠ last)
      (htailNe : slot ≠ tail (queueId NPROC index)) : table'.node? slot = table.node? slot := by
    refine node_ext (hkey slot) ?_ ?_
    · rw [hholds.next, assign_of_ne hpidNe, assign_of_ne hlastNe]
    · rw [hholds.prev, assign_of_ne htailNe, assign_of_ne hpidNe]
  have hindexTwo := hindex.trans_le fifo.created_le
  have htail := tail_queueId hNPROC hindexTwo
  have hlastMem : last ∈ head (queueId NPROC index) :: fifo.queue index := by simp [hsplit]
  have hlastRange : last = head (queueId NPROC index) ∨ last < NPROC := by
    rcases List.mem_cons.mp hlastMem with heq | hmem
    · exact Or.inl heq
    · exact Or.inr (fifo.isPid index last hmem).2
  have hhead := head_queueId hNPROC hindexTwo
  refine ⟨last, table', lastPid_eq hlastPrev, hrun, hnode, fun hlastNe ↦ ⟨hkey last, ?_⟩,
    fun other hother ↦ ⟨fun hheadNe ↦ ?_, fun hotherNe ↦ ?_⟩, ?_, fun other hother hotherNe ↦ ?_⟩
  · rw [hholds.prev, assign_of_ne (by omega), assign_of_ne hlastNe]
  · have hotherHead := head_queueId hNPROC (hother.trans_le fifo.created_le)
    exact hnode _ (by omega) hheadNe (by omega)
  · have hotherTail := tail_queueId hNPROC (hother.trans_le fifo.created_le)
    exact hnode _ (by omega) (by omega) (by omega)
  · have hlinked := hrepresents.linked index hindex
    simpa only [Fifo.slots, Fifo.push, Function.update_self] using hlinked
  · have hlinked := hrepresents.linked other hother
    simpa only [Fifo.slots, Fifo.push, Function.update_of_ne hotherNe] using hlinked

omit h in
/-- The head and the tail of a queue cannot be among its elements as well. -/
theorem ne_sentinel_of_linked {next prev : ℤ → Option ℤ}
    (hlinked : Linked next prev
      (head (queueId NPROC index) :: (fifo.queue index ++ [pid]) ++ [tail (queueId NPROC index)])) :
    pid ≠ head (queueId NPROC index) ∧
      (prev (tail (queueId NPROC index)) = some pid → pid ≠ tail (queueId NPROC index)) := by
  have hindexTwo := hindex.trans_le fifo.created_le
  have hne : head (queueId NPROC index) :: fifo.queue index ≠ [] := List.cons_ne_nil _ _
  have hsplit := List.dropLast_append_getLast hne
  have hlast := List.getLast_mem hne
  generalize (head (queueId NPROC index) :: fifo.queue index).getLast hne = last at hsplit hlast
  generalize (head (queueId NPROC index) :: fifo.queue index).dropLast = front at hsplit
  have hjoined : head (queueId NPROC index) :: (fifo.queue index ++ [pid]) ++
      [tail (queueId NPROC index)] = front ++ last :: pid :: [tail (queueId NPROC index)] := by
    rw [← List.cons_append, ← hsplit]
    simp
  have hchain := hlinked
  rw [hjoined] at hchain
  obtain ⟨-, ⟨-, hprevPid⟩, hrest⟩ := List.isChain_append_cons_cons.mp hchain
  obtain ⟨hnextPid, -⟩ := List.isChain_pair.mp hrest
  have hheadNe : head (queueId NPROC index) ≠ tail (queueId NPROC index) :=
    ne_tail_of_mem hNPROC hindex hindexTwo List.mem_cons_self
  constructor
  · rintro rfl
    cases hqueue : fifo.queue index with
    | nil =>
      rw [hqueue] at hlinked
      have hlink := (List.isChain_cons_cons.mp hlinked).1.1
      rw [hnextPid] at hlink
      exact hheadNe (Option.some.inj hlink).symm
    | cons first rest =>
      rw [hqueue] at hlinked
      have hlink := (List.isChain_cons_cons.mp hlinked).1.1
      rw [hnextPid] at hlink
      have hmem : first ∈ head (queueId NPROC index) :: fifo.queue index := by simp [hqueue]
      exact ne_tail_of_mem hNPROC hindex hindexTwo hmem (Option.some.inj hlink).symm
  · rintro hprevTail rfl
    rw [hprevPid] at hprevTail
    exact ne_tail_of_mem hNPROC hindex hindexTwo hlast (Option.some.inj hprevTail)

include htwo

/-- A head or a tail that is pushed as a process loses one of the links of its own queue. -/
theorem lt_of_pushesSafely (hpos : 0 ≤ pid) (hsafe : PushesSafely table fifo index pid) :
    pid < NPROC := by
  by_contra hlarge
  obtain ⟨front, last, hsplit, -, hlastNext, hlastPrev⟩ := exists_last (h.linked index hindex)
  obtain ⟨oldlast, table', -, hrun, -, -, -, hlinked, hothers⟩ := hsafe
  have hslot : IsSlot NPROC pid := by
    by_contra hslot
    rw [pushQueue_eq_error hlastPrev (isSlot_of_nextAt hlastNext) hslot] at hrun
    cases hrun
  obtain ⟨table'', hrun', hholds⟩ := pushQueue_spec hlastPrev (isSlot_of_nextAt hlastNext) hslot
  obtain ⟨-, rfl⟩ := ok_pair_inj hrun hrun'
  have hnextPid : table'.nextAt pid = some (tail (queueId NPROC index)) := by
    rw [hholds.next, assign_same]
  have hprevTail : table'.prevAt (tail (queueId NPROC index)) = some pid := by
    rw [hholds.prev, assign_same]
  obtain ⟨hneHead, hneTail⟩ := ne_sentinel_of_linked hNPROC hindex hlinked
  have hprevPid : table'.prevAt pid = some last := by
    rw [hholds.prev, assign_of_ne (hneTail hprevTail), assign_same]
  -- so the slot is the head or the tail of the other queue
  obtain ⟨other, hother, hotherNe, hsentinel⟩ : ∃ other < fifo.created, other ≠ index ∧
      (pid = head (queueId NPROC other) ∨ pid = tail (queueId NPROC other)) := by
    have hhead := head_queueId hNPROC (hindex.trans_le fifo.created_le)
    have htail := tail_queueId hNPROC (hindex.trans_le fifo.created_le)
    have hneTail := hneTail hprevTail
    refine ⟨1 - index, by omega, by omega, ?_⟩
    rw [head_queueId hNPROC (by omega), tail_queueId hNPROC (by omega)]
    unfold IsSlot at hslot
    omega
  have hfar (slot : ℤ) (hmem : slot ∈ fifo.slots index) : slot ∉ fifo.slots other :=
    not_mem_slots_of_ne hNPROC hindex hother hotherNe.symm hmem
  rcases hsentinel with rfl | rfl
  · obtain ⟨slot, hmem, hnext⟩ := exists_next_head (hothers other hother hotherNe)
    rw [hnextPid] at hnext
    apply hfar (tail (queueId NPROC index)) (by simp [Fifo.slots])
    rwa [Option.some.inj hnext]
  · obtain ⟨slot, hmem, hprev⟩ := exists_prev_tail (hothers other hother hotherNe)
    rw [hprevPid] at hprev
    refine hfar last ?_ ?_
    · rw [Fifo.slots, hsplit]
      simp
    · rwa [Option.some.inj hprev]

end QueueTable

/-- In every state that a run with two queues reaches, a pid that `newpid` found free and that waits
in no queue is pushed safely exactly when it is below the `NPROC` of the queue table. -/
theorem pushesSafely_newpid_iff (ops : List QueueOp) (answers : List ℤ) (fifo : Fifo queueNPROC)
    (hrun : (Fifo.empty queueNPROC).run ops = some (answers, fifo)) (htwo : fifo.created = 2)
    (processes : ProcessTable) (hfound : processes.newpid ≠ -1) (hidle : fifo.Idle processes.newpid)
    (index : ℕ) (hindex : index < 2) :
    ∃ table, (QueueTable.zero queueNPROC).run ops = .ok (answers, table) ∧
      (PushesSafely table fifo index processes.newpid ↔ processes.newpid < queueNPROC) := by
  have hNPROC : queueNPROC + 4 ≤ 2 ^ 16 := by decide
  obtain ⟨table, htable, hrepresents⟩ := QueueTable.Represents.zero.run hNPROC hrun
  have hpos : 0 ≤ processes.newpid :=
    (processes.newpid_range.resolve_left hfound).1
  have hcreated : index < fifo.created := htwo ▸ hindex
  refine ⟨table, htable, fun hsafe ↦ ?_, fun hlt ↦ ?_⟩
  · exact QueueTable.lt_of_pushesSafely hNPROC hrepresents htwo hcreated hpos hsafe
  · exact QueueTable.pushesSafely_of_lt hNPROC hrepresents hcreated ⟨hpos, hlt⟩ hidle

/-- A process table in which the processes before `pid` run and the others are free. -/
def filledBelow (pid : ℕ) : ProcessTable where
  processState := Vector.ofFn fun slot ↦ if slot.val < pid then .current else .free
  last := ⟨0, by decide⟩

theorem pushesSafely_newpid_zero :
    ∃ table, (QueueTable.zero queueNPROC).run [.newQueue, .newQueue] = .ok ([10, 12], table) ∧
      (PushesSafely table
        (((Fifo.empty queueNPROC).create (by decide)).create (by decide)) 0 0) := by
  have hnewpid : (filledBelow 0).newpid = 0 := by decide +kernel
  obtain ⟨table, hrun, hiff⟩ := pushesSafely_newpid_iff [.newQueue, .newQueue] [10, 12]
    (((Fifo.empty queueNPROC).create (by decide)).create (by decide)) rfl rfl (filledBelow 0)
    (by rw [hnewpid]; decide) (by rw [hnewpid]; decide) 0 (by decide)
  exact ⟨table, hrun, hnewpid ▸ hiff.mpr (by rw [hnewpid]; decide)⟩

/-- With ten processes running the next pid is the head of the first queue. -/
theorem not_pushesSafely_ten : (filledBelow 10).newpid = 10 ∧
    ∃ table, (QueueTable.zero queueNPROC).run [.newQueue, .newQueue] = .ok ([10, 12], table) ∧
      ¬ PushesSafely table
        (((Fifo.empty queueNPROC).create (by decide)).create (by decide)) 0 10 := by
  have hNPROC : queueNPROC + 4 ≤ 2 ^ 16 := by decide
  refine ⟨by decide +kernel, ?_⟩
  obtain ⟨table, htable, hrepresents⟩ := QueueTable.Represents.zero.run hNPROC
    (show (Fifo.empty queueNPROC).run [.newQueue, .newQueue] = some ([10, 12],
      ((Fifo.empty queueNPROC).create (by decide)).create (by decide)) from rfl)
  refine ⟨table, htable, fun hsafe ↦ ?_⟩
  have hlt := QueueTable.lt_of_pushesSafely hNPROC hrepresents rfl (by decide) (by decide) hsafe
  exact absurd hlt (by decide)

end PenelopeOS.Proc
