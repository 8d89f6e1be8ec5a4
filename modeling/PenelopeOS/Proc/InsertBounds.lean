import PenelopeOS.Foundation.Run
import PenelopeOS.Proc.PriorityQueue

/-!
# Whether `insert` stays inside `_buf`

Only the keys of tails are ever written, so every process has the key zero, and the predecessor of a
head is -1. A walk with the key zero or along an empty queue therefore runs off behind the tail. Any
other walk stops at the head, and the process is to be linked behind the slot -1. No insertion into a
queue that `newQueue` returned stays in bounds.
-/

namespace PenelopeOS.Proc

open Machine Foundation

variable {NPROC : ℕ}

/-- The table, and the queues that its users believe it holds. -/
structure TableState (NPROC : ℕ) where
  table : QueueTable NPROC
  fifo : Fifo NPROC

inductive TableEvent where
  | perform (op : QueueOp)
  | insert (index : ℕ) (proc : ℤ) (key : BitVec 32)

/-- The queues after the process was put somewhere into one of them. -/
structure Fifo.Inserted (fifo fifo' : Fifo NPROC) (index : ℕ) (proc : ℤ) : Prop where
  created : fifo'.created = fifo.created
  queue : (fifo'.queue index).Perm (proc :: fifo.queue index)
  others : ∀ other ≠ index, fifo'.queue other = fifo.queue other

/-- A step is an operation that ends without a fault. A negative process is refused. -/
inductive TableStep : TableState NPROC → TableEvent → TableState NPROC → Prop
  | perform {table table' : QueueTable NPROC} {fifo fifo' : Fifo NPROC} {op : QueueOp} {answer : ℤ}
      (hop : fifo.perform op = some (answer, fifo')) (hrun : table.perform op = .ok (answer, table')) :
      TableStep ⟨table, fifo⟩ (.perform op) ⟨table', fifo'⟩
  | insert {table table' : QueueTable NPROC} {fifo fifo' : Fifo NPROC} {index : ℕ} {proc : ℤ}
      {key : BitVec 32} (hindex : index < fifo.created)
      (hrun : table.insert proc (queueId NPROC index) key = .ok (true, table'))
      (hinserted : fifo.Inserted fifo' index proc) :
      TableStep ⟨table, fifo⟩ (.insert index proc key) ⟨table', fifo'⟩
  | refuse {table table' : QueueTable NPROC} {fifo : Fifo NPROC} {index : ℕ} {proc : ℤ}
      {key : BitVec 32} (hindex : index < fifo.created)
      (hrun : table.insert proc (queueId NPROC index) key = .ok (false, table')) :
      TableStep ⟨table, fifo⟩ (.insert index proc key) ⟨table', fifo⟩

/-- A run from the table before its first use. -/
abbrev TableRun : List (TableState NPROC × TableEvent) → TableState NPROC → Prop :=
  Run TableStep ⟨QueueTable.zero NPROC, Fifo.empty NPROC⟩

/-- The insertion ends without an access outside of `_buf`, the process is between the head and the
tail of its queue, and every queue is linked both ways. -/
def InsertsInBounds (state : TableState NPROC) (index : ℕ) (proc : ℤ) (key : BitVec 32) : Prop :=
  ∃ table' fifo', state.table.insert proc (queueId NPROC index) key = .ok (true, table') ∧
    state.fifo.Inserted fifo' index proc ∧ table'.Represents fifo'

/-! ## Keys and sentinels -/

namespace QueueTable

/-- The processes have the key zero, the tails have the largest key, and no link leads out of a queue. -/
structure Unkeyed (table : QueueTable NPROC) (created : ℕ) : Prop where
  key_pid : ∀ pid : ℤ, 0 ≤ pid → pid < NPROC → table.keyAt pid = some 0
  key_tail : ∀ index < created, table.keyAt (tail (queueId NPROC index)) = some (-1)
  prev_head : ∀ index < created, table.prevAt (head (queueId NPROC index)) = some (-1)
  next_tail : ∀ index < created, table.nextAt (tail (queueId NPROC index)) = some (-1)

variable {table table' : QueueTable NPROC} {fifo : Fifo NPROC} {index created : ℕ} {proc answer : ℤ}
  {key : BitVec 32}

theorem insert_of_neg (hneg : proc < 0) (queue : BitVec 16) :
    table.insert proc queue key = .ok (false, table) := by
  rw [insert, if_pos hneg]
  rfl

/-- A queue has no more elements than there are processes. -/
theorem length_queue_le (fifo : Fifo NPROC) (index : ℕ) : (fifo.queue index).length ≤ NPROC := by
  have hsubset : fifo.queue index ⊆ (List.range NPROC).map Nat.cast := by
    intro pid hmem
    obtain ⟨hlow, hhigh⟩ := fifo.isPid index pid hmem
    exact List.mem_map.mpr ⟨pid.toNat, List.mem_range.mpr (by omega), by omega⟩
  have hlength := (fifo.nodup index).length_le_of_subset hsubset
  rwa [List.length_map, List.length_range] at hlength

namespace Unkeyed

theorem zero : (QueueTable.zero NPROC).Unkeyed 0 where
  key_pid pid hlow hhigh := by
    have hrange : pid.toNat < NPROC + 4 := by omega
    rw [keyAt, node?, if_neg (Int.not_lt.mpr hlow), QueueTable.zero,
      Vector.getElem?_eq_getElem hrange, Vector.getElem_replicate]
    rfl
  key_tail index hindex := absurd hindex (Nat.not_lt_zero index)
  prev_head index hindex := absurd hindex (Nat.not_lt_zero index)
  next_tail index hindex := absurd hindex (Nat.not_lt_zero index)

/-- A step that writes no key, no predecessor of a head and no successor of a tail. -/
theorem frame (h : table.Unkeyed created) (hkey : table'.keyAt = table.keyAt)
    (hprev : ∀ index < created, table'.prevAt (head (queueId NPROC index)) =
      table.prevAt (head (queueId NPROC index)))
    (hnext : ∀ index < created, table'.nextAt (tail (queueId NPROC index)) =
      table.nextAt (tail (queueId NPROC index))) : table'.Unkeyed created where
  key_pid pid hlow hhigh := by rw [hkey, h.key_pid pid hlow hhigh]
  key_tail index hindex := by rw [hkey, h.key_tail index hindex]
  prev_head index hindex := by rw [hprev index hindex, h.prev_head index hindex]
  next_tail index hindex := by rw [hnext index hindex, h.next_tail index hindex]

section Step

variable (hNPROC : NPROC + 4 ≤ 2 ^ 16)

include hNPROC

theorem newQueue {queue : BitVec 16} (h : table.Unkeyed created) (hroom : created < 2)
    (hnextqid : table.nextqid = queueId NPROC created)
    (hrun : table.newQueue = .ok (queue, table')) : table'.Unkeyed (created + 1) := by
  obtain ⟨hheadSlot, htailSlot⟩ := isSlot_sentinel hNPROC hroom
  rw [← hnextqid] at hheadSlot htailSlot
  obtain ⟨table'', hrun', hholds⟩ := newQueue_spec table hheadSlot htailSlot
  obtain ⟨-, rfl⟩ := ok_pair_inj hrun hrun'
  rw [hnextqid] at hholds
  have hhead := head_queueId hNPROC hroom
  have htail := tail_queueId hNPROC hroom
  refine ⟨fun pid hlow hhigh ↦ ?_, fun index hindex ↦ ?_, fun index hindex ↦ ?_, fun index hindex ↦ ?_⟩
  · rw [hholds.key, assign_of_ne (by omega), h.key_pid pid hlow hhigh]
  · rw [hholds.key]
    by_cases hnew : index = created
    · rw [hnew, assign_same]
    · have hother := tail_queueId hNPROC (show index < 2 by omega)
      rw [assign_of_ne (by omega), h.key_tail index (by omega)]
  · have hother := head_queueId hNPROC (show index < 2 by omega)
    rw [hholds.prev, assign_of_ne (by omega)]
    by_cases hnew : index = created
    · rw [hnew, assign_same]
    · rw [assign_of_ne (by omega), h.prev_head index (by omega)]
  · have hother := tail_queueId hNPROC (show index < 2 by omega)
    rw [hholds.next]
    by_cases hnew : index = created
    · rw [hnew, assign_same]
    · rw [assign_of_ne (by omega), assign_of_ne (by omega), h.next_tail index (by omega)]

variable (h : table.Unkeyed fifo.created) (hrepresents : table.Represents fifo)

include h hrepresents

theorem pushQueue (hindex : index < fifo.created) (hpid : 0 ≤ proc ∧ proc < NPROC)
    (hrun : table.pushQueue (queueId NPROC index) proc = .ok (answer, table')) :
    table'.Unkeyed fifo.created := by
  have htwo := hindex.trans_le fifo.created_le
  obtain ⟨front, last, table'', hsplit, hrun', hholds⟩ :=
    hrepresents.exists_pushQueue hindex (show IsSlot NPROC proc from ⟨hpid.1, by omega⟩)
  obtain ⟨-, rfl⟩ := ok_pair_inj hrun hrun'
  have hlastMem : last ∈ head (queueId NPROC index) :: fifo.queue index := by simp [hsplit]
  refine h.frame hholds.key (fun other hother ↦ ?_) fun other hother ↦ ?_
  · have hhead := head_queueId hNPROC (hother.trans_le fifo.created_le)
    have htail := tail_queueId hNPROC htwo
    rw [hholds.prev, assign_of_ne (by omega), assign_of_ne (by omega)]
  · have htail := tail_queueId hNPROC (hother.trans_le fifo.created_le)
    have hne := ne_tail_of_mem hNPROC hindex (hother.trans_le fifo.created_le) hlastMem
    rw [hholds.next, assign_of_ne (by omega), assign_of_ne hne.symm]

theorem popQueue_cons {first : ℤ} {rest : List ℤ} (hindex : index < fifo.created)
    (hqueue : fifo.queue index = first :: rest)
    (hrun : table.popQueue (queueId NPROC index) = .ok (answer, table')) :
    table'.Unkeyed fifo.created := by
  have htwo := hindex.trans_le fifo.created_le
  obtain ⟨second, after, table'', hafter, hrun', hholds⟩ :=
    hrepresents.exists_popQueue hNPROC hindex hqueue
  have hpid := fifo.isPid index first (by simp [hqueue])
  have hsecondMem : second ∈ fifo.queue index ++ [tail (queueId NPROC index)] := by
    rw [hqueue, List.cons_append, hafter]
    simp
  obtain ⟨-, rfl⟩ := ok_pair_inj hrun hrun'
  refine h.frame hholds.key (fun other hother ↦ ?_) fun other hother ↦ ?_
  · have hother' := hother.trans_le fifo.created_le
    have hotherHead := head_queueId hNPROC hother'
    have hne := ne_head_of_mem hNPROC hindex hother' hsecondMem
    rw [hholds.prev, assign_of_ne (by omega), assign_of_ne hne.symm]
  · have htail := tail_queueId hNPROC (hother.trans_le fifo.created_le)
    have hhead := head_queueId hNPROC htwo
    rw [hholds.next, assign_of_ne (by omega), assign_of_ne (by omega)]

theorem perform {fifo' : Fifo NPROC} {op : QueueOp} {answer' : ℤ}
    (hop : fifo.perform op = some (answer, fifo'))
    (hrun : table.perform op = .ok (answer', table')) : table'.Unkeyed fifo'.created := by
  cases op with
  | newQueue =>
    simp only [Fifo.perform] at hop
    split_ifs at hop with hroom
    obtain ⟨-, rfl⟩ := Prod.mk.inj (Option.some.inj hop)
    obtain ⟨⟨queue, table''⟩, hnew, hanswer⟩ := bind_eq_ok_iff.mp hrun
    obtain ⟨-, rfl⟩ := Prod.mk.inj (Except.ok.inj hanswer)
    exact h.newQueue hNPROC hroom hrepresents.nextqid hnew
  | pushQueue index proc =>
    simp only [Fifo.perform] at hop
    split_ifs at hop with hallowed
    obtain ⟨-, rfl⟩ := Prod.mk.inj (Option.some.inj hop)
    have hkeys : table'.Unkeyed fifo.created :=
      h.pushQueue hNPROC hrepresents hallowed.1 hallowed.2.1 hrun
    exact hkeys
  | popQueue index =>
    simp only [Fifo.perform] at hop
    split_ifs at hop with hindex
    cases hqueue : fifo.queue index with
    | nil =>
      rw [hqueue] at hop
      obtain ⟨-, rfl⟩ := Prod.mk.inj (Option.some.inj hop)
      have hpop := hrepresents.popQueue_nil hindex hqueue
      obtain ⟨-, rfl⟩ := ok_pair_inj hpop hrun
      exact h
    | cons first rest =>
      rw [hqueue] at hop
      obtain ⟨-, rfl⟩ := Prod.mk.inj (Option.some.inj hop)
      have hkeys : table'.Unkeyed fifo.created := h.popQueue_cons hNPROC hrepresents hindex hqueue hrun
      exact hkeys

omit hNPROC

/-- The walk leaves `_buf` behind the tail, or it does not leave the head. -/
theorem insertWalk_eq (hindex : index < fifo.created) (key : BitVec 32) :
    table.insertWalk key (NPROC + 5) (head (queueId NPROC index)) =
      if key = 0 ∨ fifo.queue index = [] then .error .outOfBounds
      else .ok (head (queueId NPROC index)) := by
  have hlinked := hrepresents.linked index hindex
  have hkeyOf (pid : ℤ) (hmem : pid ∈ fifo.queue index) : table.keyAt pid = some 0 :=
    h.key_pid pid (fifo.isPid index pid hmem).1 (fifo.isPid index pid hmem).2
  split_ifs with hpasses
  · have hlength : (fifo.queue index ++ [tail (queueId NPROC index)]).length < NPROC + 5 := by
      rw [List.length_append, List.length_singleton]
      have := length_queue_le fifo index
      omega
    have hlast : (head (queueId NPROC index) ::
        (fifo.queue index ++ [tail (queueId NPROC index)])).getLast? =
        some (tail (queueId NPROC index)) := by
      rw [← List.cons_append, List.getLast?_concat]
    refine insertWalk_eq_error hlinked.forward (fun slot hslot ↦ ?_) hlast
      (h.next_tail index hindex) hlength
    rcases List.mem_append.mp hslot with hmem | hmem
    · rcases hpasses with rfl | hempty
      · exact ⟨0, hkeyOf slot hmem, le_refl 0⟩
      · simp [hempty] at hmem
    · rw [List.mem_singleton.mp hmem]
      exact ⟨-1, h.key_tail index hindex, key_le_tail key⟩
  · rw [not_or] at hpasses
    obtain ⟨first, rest, hqueue⟩ := List.exists_cons_of_ne_nil hpasses.2
    have hfirst : first ∈ fifo.queue index := by simp [hqueue]
    have hnext := next_head hlinked
    rw [hqueue, List.head?_cons, Option.getD_some] at hnext
    obtain ⟨node, hread, hnode⟩ := exists_read_next hnext
    obtain ⟨node', hread', hnode'⟩ := exists_read_key (hkeyOf first hfirst)
    have hstop : ¬ key ≤ node'.key := by
      rw [hnode']
      exact fun hle ↦ hpasses.1 (BitVec.le_zero_iff.mp hle)
    rw [insertWalk, hread, ok_bind, hnode, hread', ok_bind, if_neg hstop]
    rfl

/-- The process would be linked behind the slot before the head, which is none. -/
theorem insert_eq_error (hindex : index < fifo.created) (hpos : 0 ≤ proc) (key : BitVec 32) :
    table.insert proc (queueId NPROC index) key = .error .outOfBounds := by
  rw [insert, if_neg (Int.not_lt.mpr hpos), h.insertWalk_eq hrepresents hindex]
  split_ifs with hpasses
  · rfl
  · obtain ⟨node, hread, hnode⟩ := exists_read_prev (h.prev_head index hindex)
    have hbefore : ¬ IsSlot NPROC (-1) := fun hslot ↦ absurd hslot.1 (by decide)
    simp only [hread, hnode, writeNext, write_eq_error hbefore, ok_bind, error_bind]

end Step

end Unkeyed

end QueueTable

/-! ## Runs -/

variable {moves : List (TableState NPROC × TableEvent)} {state state' : TableState NPROC}
  {index : ℕ} {proc : ℤ}

/-- What every state that is reached satisfies. -/
structure TableState.Valid (state : TableState NPROC) : Prop where
  represents : state.table.Represents state.fifo
  unkeyed : state.table.Unkeyed state.fifo.created

/-- A valid table takes the queue operations, and of the insertions only those that are refused. -/
theorem TableState.Valid.step {event : TableEvent} (h : state.Valid) (hNPROC : NPROC + 4 ≤ 2 ^ 16)
    (hstep : TableStep state event state') : state'.Valid := by
  cases hstep with
  | @perform table table' fifo fifo' op answer hop hrun =>
    obtain ⟨table'', hrun', hrepresents⟩ := h.represents.perform hNPROC hop
    obtain ⟨-, rfl⟩ := ok_pair_inj hrun hrun'
    exact ⟨hrepresents, h.unkeyed.perform hNPROC h.represents hop hrun⟩
  | @insert table table' fifo fifo' index proc key hindex hrun hinserted =>
    exfalso
    by_cases hneg : proc < 0
    · cases (QueueTable.insert_of_neg hneg _).symm.trans hrun
    · have hpos := Int.not_lt.mp hneg
      cases (h.unkeyed.insert_eq_error h.represents hindex hpos key).symm.trans hrun
  | @refuse table table' fifo index proc key hindex hrun =>
    by_cases hneg : proc < 0
    · obtain ⟨-, rfl⟩ := ok_pair_inj (QueueTable.insert_of_neg hneg _) hrun
      exact h
    · have hpos := Int.not_lt.mp hneg
      cases (h.unkeyed.insert_eq_error h.represents hindex hpos key).symm.trans hrun

theorem valid_of_tableRun (hNPROC : NPROC + 4 ≤ 2 ^ 16) (run : TableRun moves state) : state.Valid :=
  run.invariant TableState.Valid (fun _ _ ↦ True)
    ⟨QueueTable.Represents.zero, QueueTable.Unkeyed.zero⟩
    (fun _ _ _ h _ hstep ↦ h.step hNPROC hstep) fun _ _ ↦ trivial

/-- A run of the queues is a run of the table. -/
theorem QueueTable.Represents.exists_tableRun {table : QueueTable NPROC} {fifo fifo' : Fifo NPROC}
    {ops : List QueueOp} {answers : List ℤ} (h : table.Represents fifo) (hNPROC : NPROC + 4 ≤ 2 ^ 16)
    (hrun : fifo.run ops = some (answers, fifo')) :
    ∃ moves table', Run TableStep ⟨table, fifo⟩ moves ⟨table', fifo'⟩ ∧
      moves.map Prod.snd = ops.map .perform := by
  induction ops generalizing table fifo answers with
  | nil =>
    obtain ⟨rfl, rfl⟩ := Prod.mk.inj (Option.some.inj hrun)
    exact ⟨[], table, .nil, rfl⟩
  | cons op ops ih =>
    obtain ⟨⟨answer, middle⟩, hop, hrest⟩ := Option.bind_eq_some_iff.mp hrun
    obtain ⟨⟨answers', final⟩, hops, hanswers⟩ := Option.bind_eq_some_iff.mp hrest
    obtain ⟨-, rfl⟩ := Prod.mk.inj (Option.some.inj hanswers)
    obtain ⟨table₁, hrun₁, hrepresents₁⟩ := h.perform hNPROC hop
    obtain ⟨moves, table₂, hrun₂, hmoves⟩ := ih hrepresents₁ hops
    exact ⟨_, table₂, hrun₂.cons (.perform hop hrun₁), by rw [List.map_cons, hmoves, List.map_cons]⟩

theorem not_insertsInBounds_of_error {key : BitVec 32}
    (herror : state.table.insert proc (queueId NPROC index) key = .error .outOfBounds) :
    ¬ InsertsInBounds state index proc key := by
  rintro ⟨table', fifo', hrun, -⟩
  rw [herror] at hrun
  cases hrun

/-- In every state that is reached, the insertion of any process with any key into any queue that was
created accesses a slot outside of `_buf`. -/
theorem not_insertsInBounds (hNPROC : NPROC + 4 ≤ 2 ^ 16) (run : TableRun moves state)
    (hindex : index < state.fifo.created) (hpos : 0 ≤ proc) (key : BitVec 32) :
    state.table.insert proc (queueId NPROC index) key = .error .outOfBounds ∧
      ¬ InsertsInBounds state index proc key := by
  have hvalid := valid_of_tableRun hNPROC run
  have herror := hvalid.unkeyed.insert_eq_error hvalid.represents hindex hpos key
  exact ⟨herror, not_insertsInBounds_of_error herror⟩

/-- Process 4 is inserted with the smallest key into the second queue, where process 3 waits. -/
theorem not_insertsInBounds_keyZero :
    ∃ moves, ∃ state : TableState 10, TableRun moves state ∧ state.fifo.queue 1 = [3] ∧
      state.table.insert 4 (queueId 10 1) 0 = .error .outOfBounds ∧ ¬ InsertsInBounds state 1 4 0 := by
  obtain ⟨fifo, hfifo, hcreated, hqueue⟩ : ∃ fifo, (Fifo.empty 10).run
      [.newQueue, .newQueue, .pushQueue 1 3] = some ([10, 12, 3], fifo) ∧ fifo.created = 2 ∧
      fifo.queue 1 = [3] := ⟨_, rfl, rfl, rfl⟩
  obtain ⟨moves, table, hrun, -⟩ := QueueTable.Represents.zero.exists_tableRun (by decide) hfifo
  have hindex : 1 < fifo.created := hcreated.symm ▸ by decide
  exact ⟨moves, _, hrun, hqueue, not_insertsInBounds (by decide) hrun hindex (by decide) 0⟩

/-- Process 4 is inserted with key 7 into the first queue, where process 3 waits. The walk stops at the
head, and the successor of the slot before the first one is to be written. -/
theorem exists_not_insertsInBounds :
    ∃ moves, ∃ state : TableState 10, TableRun moves state ∧
      moves.map Prod.snd = [.perform .newQueue, .perform (.pushQueue 0 3)] ∧
      state.fifo.created = 1 ∧ state.fifo.Idle 4 ∧
      state.table.insertWalk 7 15 10 = .ok 10 ∧ ¬ InsertsInBounds state 0 4 7 := by
  obtain ⟨fifo, hfifo, hcreated, hqueue, hidle⟩ : ∃ fifo, (Fifo.empty 10).run
      [.newQueue, .pushQueue 0 3] = some ([10, 3], fifo) ∧ fifo.created = 1 ∧ fifo.queue 0 = [3] ∧
      fifo.Idle 4 := ⟨_, rfl, rfl, rfl, by decide⟩
  obtain ⟨moves, table, hrun, hmoves⟩ := QueueTable.Represents.zero.exists_tableRun (by decide) hfifo
  obtain ⟨hrepresents, hunkeyed⟩ := valid_of_tableRun (by decide) hrun
  have hindex : 0 < fifo.created := hcreated.symm ▸ Nat.one_pos
  refine ⟨moves, _, hrun, hmoves, hcreated, hidle, ?_, not_insertsInBounds_of_error ?_⟩
  · have hwalk := hunkeyed.insertWalk_eq hrepresents hindex 7
    rwa [hqueue, if_neg (by decide)] at hwalk
  · exact hunkeyed.insert_eq_error hrepresents hindex (by decide) 7

end PenelopeOS.Proc
