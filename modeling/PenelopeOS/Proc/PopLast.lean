import PenelopeOS.Proc.Fifo

/-!
# Whether `popLast` removes the last element

The body of `popLast` is that of `popFirst`: it answers with the first pid, takes that one out of the
forward chain and leaves the predecessor of the tail as it was. So it meets its name on the empty
queue only; with a single element the answer is right and the backward chain is not.
-/

namespace PenelopeOS.Proc

open Machine Foundation

variable {NPROC : ℕ} {table : QueueTable NPROC} {fifo : Fifo NPROC} {index : ℕ}

/-- The last pid is the answer, and the queue without it is linked both ways beside the others. On an
empty queue nothing changes. -/
structure PopsLast (table : QueueTable NPROC) (fifo : Fifo NPROC) (index : ℕ) : Prop where
  empty : fifo.queue index = [] → table.popLast (queueId NPROC index) = .ok (-1, table)
  last : ∀ front pid, fifo.queue index = front ++ [pid] →
    table.lastPid (queueId NPROC index) = .ok pid ∧
    ∃ table', table.popLast (queueId NPROC index) = .ok (pid, table') ∧
      Linked table'.nextAt table'.prevAt
        (head (queueId NPROC index) :: front ++ [tail (queueId NPROC index)]) ∧
      ∀ other < fifo.created, other ≠ index → Linked table'.nextAt table'.prevAt (fifo.slots other)

namespace QueueTable.Represents

variable (h : table.Represents fifo) (hindex : index < fifo.created)

include h hindex

theorem popLast_nil (hqueue : fifo.queue index = []) :
    table.popLast (queueId NPROC index) = .ok (-1, table) := by
  have hnext := next_head (h.linked index hindex)
  rw [hqueue] at hnext
  exact popFirst_of_empty hnext

/-- The answer of a queue with elements is the first of them, and no predecessor is written. -/
theorem exists_popLast (hNPROC : NPROC + 4 ≤ 2 ^ 16) {first : ℤ} {rest : List ℤ}
    (hqueue : fifo.queue index = first :: rest) :
    ∃ table', table.popLast (queueId NPROC index) = .ok (first, table') ∧
      table'.prevAt = table.prevAt := by
  have hnext := next_head (h.linked index hindex)
  rw [hqueue, List.head?_cons, Option.getD_some] at hnext
  have hmem : first ∈ fifo.queue index := by simp [hqueue]
  have hpid := fifo.isPid index first hmem
  have hne := ne_tail_of_mem hNPROC hindex (hindex.trans_le fifo.created_le)
    (List.mem_cons_of_mem _ hmem)
  obtain ⟨node, hnode⟩ := exists_node table (show IsSlot NPROC first from ⟨hpid.1, by omega⟩)
  have hsecond : table.nextAt first = some node.next := by rw [nextAt, hnode, Option.map_some]
  obtain ⟨table', hrun, hholds⟩ := popFirst_spec hnext hne hsecond
  exact ⟨table', hrun, hholds.prev⟩

/-- The predecessor of the tail stays the pid that was to be removed. -/
theorem popsLast_iff (hNPROC : NPROC + 4 ≤ 2 ^ 16) :
    PopsLast table fifo index ↔ fifo.queue index = [] := by
  constructor
  · intro hpops
    rcases List.eq_nil_or_concat' (fifo.queue index) with hempty | ⟨front, pid, hqueue⟩
    · exact hempty
    exfalso
    obtain ⟨hlast, table', hrun, hlinked, -⟩ := hpops.last front pid hqueue
    obtain ⟨first, rest, hfirst⟩ := List.exists_cons_of_ne_nil
      (show fifo.queue index ≠ [] by simp [hqueue])
    obtain ⟨table'', hrun', hprev⟩ := h.exists_popLast hindex hNPROC hfirst
    obtain ⟨-, rfl⟩ := ok_pair_inj hrun hrun'
    -- the tail would have to follow a slot other than the removed pid
    obtain ⟨slots, before, hsplit⟩ : ∃ slots before,
        head (queueId NPROC index) :: front = slots ++ [before] :=
      (List.eq_nil_or_concat' _).resolve_left (List.cons_ne_nil _ _)
    rw [hsplit, List.append_assoc, List.singleton_append] at hlinked
    obtain ⟨-, hlink, -⟩ := List.isChain_append_cons_cons.mp hlinked
    have htail := prev_tail (h.linked index hindex)
    rw [hqueue, List.getLast?_concat, Option.getD_some, ← hprev, hlink.2] at htail
    have hbefore : before ∈ head (queueId NPROC index) :: front := by simp [hsplit]
    have hnodup := nodup_slots hNPROC fifo hindex
    rw [Fifo.slots, hqueue, ← List.cons_append, ← Option.some.inj htail] at hnodup
    exact (List.nodup_append.mp (List.nodup_append.mp hnodup).1).2.2 before hbefore before
      (List.mem_singleton_self before) rfl
  · intro hempty
    refine ⟨h.popLast_nil hindex, fun front pid hqueue ↦ ?_⟩
    simp [hempty] at hqueue

end QueueTable.Represents

/-- In every state that a run reaches, `popLast` meets its name exactly on the empty queues. -/
theorem popsLast_iff_of_run (hNPROC : NPROC + 4 ≤ 2 ^ 16) {ops : List QueueOp} {answers : List ℤ}
    (hrun : (Fifo.empty NPROC).run ops = some (answers, fifo)) :
    ∃ table, (QueueTable.zero NPROC).run ops = .ok (answers, table) ∧
      ∀ index < fifo.created, (PopsLast table fifo index ↔ fifo.queue index = []) := by
  obtain ⟨table, htable, hrepresents⟩ := QueueTable.Represents.zero.run hNPROC hrun
  exact ⟨table, htable, fun index hindex ↦ hrepresents.popsLast_iff hindex hNPROC⟩

/-- A queue that lost its only process. -/
theorem popsLast_emptied : ∃ table fifo, (QueueTable.zero 10).run [.newQueue, .pushQueue 0 3,
    .popQueue 0] = .ok ([10, 3, 3], table) ∧ PopsLast table fifo 0 := by
  obtain ⟨fifo, hfifo, hcreated, hqueue⟩ : ∃ fifo, (Fifo.empty 10).run
      [.newQueue, .pushQueue 0 3, .popQueue 0] = some ([10, 3, 3], fifo) ∧ fifo.created = 1 ∧
      fifo.queue 0 = [] := ⟨_, rfl, rfl, rfl⟩
  obtain ⟨table, hrun, hpops⟩ := popsLast_iff_of_run (by decide) hfifo
  exact ⟨table, fifo, hrun, (hpops 0 (hcreated.symm ▸ Nat.one_pos)).mpr hqueue⟩

/-- Process 3 is removed from the queue of 3 and 5. -/
theorem not_popsLast_two : ∃ table fifo, (QueueTable.zero 10).run [.newQueue, .pushQueue 0 3,
    .pushQueue 0 5] = .ok ([10, 3, 5], table) ∧ fifo.queue 0 = [3, 5] ∧
      (table.popLast 10).map Prod.fst = .ok 3 ∧ ¬ PopsLast table fifo 0 := by
  obtain ⟨fifo, hfifo, hcreated, hqueue⟩ : ∃ fifo, (Fifo.empty 10).run
      [.newQueue, .pushQueue 0 3, .pushQueue 0 5] = some ([10, 3, 5], fifo) ∧ fifo.created = 1 ∧
      fifo.queue 0 = [3, 5] := ⟨_, rfl, rfl, rfl⟩
  obtain ⟨table, hrun, hrepresents⟩ := QueueTable.Represents.zero.run (by decide) hfifo
  have hindex : 0 < fifo.created := hcreated.symm ▸ Nat.one_pos
  refine ⟨table, fifo, hrun, hqueue, ?_, fun hpops ↦ ?_⟩
  · obtain ⟨table', hpop, -⟩ := hrepresents.exists_popLast hindex (by decide) hqueue
    exact congrArg (Except.map Prod.fst) hpop
  · have hempty := (hrepresents.popsLast_iff hindex (by decide)).mp hpops
    rw [hqueue] at hempty
    cases hempty

end PenelopeOS.Proc
