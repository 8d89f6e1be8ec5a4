import PenelopeOS.Proc.Fifo

/-!
# Whether `insert` makes a priority queue

The walk of `insert` goes on while the key is at most the next key, and the key of a tail is the
largest of all. So the walk goes past the tail of an empty queue and reads the slot before the first
one. A queue that starts empty therefore never takes an element, and only pops can be run on it.
-/

namespace PenelopeOS.Proc

open Machine

inductive PriorityOp where
  | insert (proc : ℤ) (key : BitVec 32)
  | popQueue
  deriving DecidableEq, Repr

variable {NPROC : ℕ}

/-- The chain of the queue stores the given pids with their keys, and the keys ascend along it. -/
def Ordered (table : QueueTable NPROC) (queue : BitVec 16) (contents : List (ℤ × BitVec 32)) :
    Prop :=
  ∃ entries : List (ℤ × BitVec 32), entries.Perm contents ∧
    (head queue :: entries.map Prod.fst ++ [tail queue]).IsChain
      (fun slot successor ↦ table.nextAt slot = some successor) ∧
    (∀ entry ∈ entries, table.keyAt entry.1 = some entry.2) ∧
    entries.Pairwise fun first second ↦ first.2 ≤ second.2

/-- The queue is ordered in every state of the run, every insertion succeeds, and every pop answers
with a pid of minimal key, or with -1 when the queue is empty. -/
def MeetsContract (queue : BitVec 16) :
    List PriorityOp → QueueTable NPROC → List (ℤ × BitVec 32) → Prop
  | [], table, contents => Ordered table queue contents
  | .insert proc key :: ops, table, contents => Ordered table queue contents ∧
      ∃ table', table.insert proc queue key = .ok (true, table') ∧
        MeetsContract queue ops table' ((proc, key) :: contents)
  | .popQueue :: ops, table, contents => Ordered table queue contents ∧
      ∃ pid table', table.popQueue queue = .ok (pid, table') ∧
        ((contents = [] ∧ pid = -1 ∧ MeetsContract queue ops table' []) ∨
          ∃ key, (pid, key) ∈ contents ∧ (∀ entry ∈ contents, key ≤ entry.2) ∧
            MeetsContract queue ops table' (contents.erase (pid, key)))

namespace QueueTable

variable {table : QueueTable NPROC} {queue : BitVec 16} {proc : ℤ} {key : BitVec 32}

/-- A read of the key of a slot. -/
theorem exists_read_key {slot : ℤ} (h : table.keyAt slot = some key) :
    ∃ node, table.read slot = .ok node ∧ node.key = key := by
  obtain ⟨node, hnode, hkey⟩ := Option.map_eq_some_iff.mp h
  exact ⟨node, by rw [read, hnode], hkey⟩

/-- An empty queue as `newQueue` leaves it. -/
structure Fresh (table : QueueTable NPROC) (queue : BitVec 16) : Prop where
  next_head : table.nextAt (head queue) = some (tail queue)
  next_tail : table.nextAt (tail queue) = some (-1)
  key_tail : table.keyAt (tail queue) = some (-1)

/-- No key is larger than the key of a tail. -/
theorem key_le_tail (key : BitVec 32) : key ≤ -1 := by
  have hlt := key.isLt
  rw [BitVec.le_def]
  change key.toNat ≤ 2 ^ 32 - 1
  omega

/-- While no key along the chain is smaller the walk goes on, and behind the last slot it reads the
slot before the first one. -/
theorem insertWalk_eq_error {nodes : List ℤ} {curr last : ℤ} {fuel : ℕ}
    (hchain : (curr :: nodes).IsChain fun slot successor ↦ table.nextAt slot = some successor)
    (hkeys : ∀ slot ∈ nodes, ∃ slotKey, table.keyAt slot = some slotKey ∧ key ≤ slotKey)
    (hlast : (curr :: nodes).getLast? = some last) (hnext : table.nextAt last = some (-1))
    (hfuel : nodes.length < fuel) : table.insertWalk key fuel curr = .error .outOfBounds := by
  induction nodes generalizing curr fuel with
  | nil =>
    obtain ⟨fuel, rfl⟩ := Nat.exists_eq_add_one_of_ne_zero (Nat.ne_zero_of_lt hfuel)
    obtain rfl : curr = last := Option.some.inj hlast
    obtain ⟨node, hread, hnode⟩ := exists_read_next hnext
    have hbefore : table.read (-1) = .error .outOfBounds :=
      read_eq_error fun hslot ↦ absurd hslot.1 (by decide)
    rw [insertWalk, hread, ok_bind, hnode, hbefore, error_bind]
  | cons successor nodes ih =>
    obtain ⟨fuel, rfl⟩ := Nat.exists_eq_add_one_of_ne_zero (Nat.ne_zero_of_lt hfuel)
    obtain ⟨hlink, hchain⟩ := List.isChain_cons_cons.mp hchain
    obtain ⟨⟨slotKey, hkey, hle⟩, hkeys⟩ := List.forall_mem_cons.mp hkeys
    obtain ⟨node, hread, hnode⟩ := exists_read_next hlink
    obtain ⟨node', hread', rfl⟩ := exists_read_key hkey
    rw [List.getLast?_cons_cons] at hlast
    have hrest := ih hchain hkeys hlast (Nat.lt_of_succ_lt_succ hfuel)
    rw [insertWalk, hread, ok_bind, hnode, hread', ok_bind, if_pos hle, ok_bind, hnode, hrest]

/-- No key keeps the walk from passing the tail of an empty queue. -/
theorem insertWalk_of_fresh (h : table.Fresh queue) :
    table.insertWalk key (NPROC + 5) (head queue) = .error .outOfBounds := by
  refine insertWalk_eq_error (List.isChain_pair.mpr h.next_head) ?_ rfl h.next_tail
    (by simp only [List.length_singleton]; omega)
  exact List.forall_mem_singleton.mpr ⟨-1, h.key_tail, key_le_tail key⟩

theorem insert_of_fresh (h : table.Fresh queue) (result : QueueTable NPROC) :
    table.insert proc queue key ≠ .ok (true, result) := by
  unfold insert
  split_ifs with hneg
  · intro heq
    cases heq
  · rw [insertWalk_of_fresh h, error_bind]
    intro heq
    cases heq

theorem ordered_of_fresh (h : table.Fresh queue) : Ordered table queue [] :=
  ⟨[], List.Perm.refl _, List.isChain_pair.mpr h.next_head, List.forall_mem_nil _, List.Pairwise.nil⟩

/-- The first queue of a table is created fresh. -/
theorem exists_newQueue_fresh (hNPROC : NPROC + 4 ≤ 2 ^ 16) :
    ∃ table, (zero NPROC).newQueue = .ok (queueId NPROC 0, table) ∧ table.Fresh (queueId NPROC 0) := by
  obtain ⟨hheadSlot, htailSlot⟩ := isSlot_sentinel hNPROC (show 0 < 2 by decide)
  have hhead := head_queueId hNPROC (show 0 < 2 by decide)
  have htail := tail_queueId hNPROC (show 0 < 2 by decide)
  obtain ⟨table, hrun, hholds⟩ := newQueue_spec (zero NPROC) hheadSlot htailSlot
  refine ⟨table, hrun, ?_, ?_, ?_⟩
  · rw [hholds.next]
    change assign (assign _ (head (queueId NPROC 0)) (tail (queueId NPROC 0)))
      (tail (queueId NPROC 0)) (-1) (head (queueId NPROC 0)) = _
    rw [assign_of_ne (by omega), assign_same]
  · rw [hholds.next]
    exact assign_same _ _ _
  · rw [hholds.key]
    exact assign_same _ _ _

end QueueTable

/-- On an empty queue exactly the runs of pops meet the contract. -/
theorem meetsContract_iff_of_fresh {table : QueueTable NPROC} {queue : BitVec 16}
    (h : table.Fresh queue) (ops : List PriorityOp) :
    MeetsContract queue ops table [] ↔ ∀ op ∈ ops, op = .popQueue := by
  induction ops with
  | nil => exact iff_of_true (QueueTable.ordered_of_fresh h) (by simp)
  | cons op ops ih =>
    rw [List.forall_mem_cons]
    cases op with
    | insert proc key =>
      refine iff_of_false ?_ fun hops ↦ by cases hops.1
      rintro ⟨-, table', hinsert, -⟩
      exact QueueTable.insert_of_fresh h table' hinsert
    | popQueue =>
      have hpop := QueueTable.popQueue_of_empty h.next_head
      rw [← ih, eq_self, true_and]
      constructor
      · rintro ⟨-, pid, table', hrun, hresult⟩
        obtain ⟨rfl, rfl⟩ := ok_pair_inj hpop hrun
        rcases hresult with ⟨-, -, hrest⟩ | ⟨key, hmem, -⟩
        · exact hrest
        · cases hmem
      · intro hrest
        exact ⟨QueueTable.ordered_of_fresh h, -1, table, hpop, Or.inl ⟨rfl, rfl, hrest⟩⟩

/-- From a queue that `newQueue` returned on an unused table, a run meets the contract of a priority
queue exactly when it inserts nothing. -/
theorem meetsContract_iff (hNPROC : NPROC + 4 ≤ 2 ^ 16) (ops : List PriorityOp) :
    ∃ queue table, (QueueTable.zero NPROC).newQueue = .ok (queue, table) ∧
      (MeetsContract queue ops table [] ↔ ∀ op ∈ ops, op = .popQueue) := by
  obtain ⟨table, hrun, hfresh⟩ := QueueTable.exists_newQueue_fresh hNPROC
  exact ⟨_, table, hrun, meetsContract_iff_of_fresh hfresh ops⟩

theorem meetsContract_iff_pop :
    ∃ queue table, (QueueTable.zero 10).newQueue = .ok (queue, table) ∧
      (MeetsContract queue [.popQueue] table [] ↔ ∀ op ∈ [PriorityOp.popQueue], op = .popQueue) :=
  meetsContract_iff (by decide) [.popQueue]

/-- Inserting process 3 with key 7 into the first queue of the table reads out of bounds. -/
theorem not_meetsContract_insert :
    ∃ queue table, (QueueTable.zero 10).newQueue = .ok (queue, table) ∧
      faultOf (table.insert 3 queue 7) = some .outOfBounds ∧
      ¬ MeetsContract queue [.insert 3 7] table [] := by
  obtain ⟨table, hrun, hfresh⟩ := QueueTable.exists_newQueue_fresh (show 10 + 4 ≤ 2 ^ 16 by decide)
  refine ⟨_, table, hrun, ?_, ?_⟩
  · unfold QueueTable.insert
    rw [if_neg (by decide), QueueTable.insertWalk_of_fresh hfresh]
    rfl
  · rintro ⟨-, table', hinsert, -⟩
    exact QueueTable.insert_of_fresh hfresh table' hinsert

end PenelopeOS.Proc
