import Mathlib.Tactic.SplitIfs
import Mathlib.Data.Int.Init
import PenelopeOS.Machine.Fault

/-!
# The queue table

The definitions of `queuetable.cpp`, for a table of any number `NPROC` of processes. The slots of
`_buf` from 0 on belong to the processes, and each queue takes two slots after them for its head and
its tail. Links are slot numbers, and -1 is no slot. Queue ids are 16 bits wide, so the slot of a
tail is computed in 16 bits too. An index outside `_buf` is a fault.
-/

namespace PenelopeOS.Proc

open Machine

/-- `node` -/
structure Node where
  key : BitVec 32
  next : ℤ
  prev : ℤ
  deriving DecidableEq, Repr

structure QueueTable (NPROC : ℕ) where
  nextqid : BitVec 16
  buf : Vector Node (NPROC + 4)
  deriving DecidableEq

/-- The slot of the head of a queue, which is its id. -/
def head (queue : BitVec 16) : ℤ := queue.toNat

/-- The slot of the tail of a queue. -/
def tail (queue : BitVec 16) : ℤ := (queue + 1).toNat

namespace QueueTable

variable {NPROC : ℕ} (table : QueueTable NPROC)

/-- `_queueTable` before its first use -/
def zero (NPROC : ℕ) : QueueTable NPROC where
  nextqid := BitVec.ofNat 16 NPROC
  buf := Vector.replicate _ ⟨0, 0, 0⟩

/-- `_buf[slot]`, where there is one. -/
def node? (slot : ℤ) : Option Node := if slot < 0 then none else table.buf[slot.toNat]?

/-- `_buf[slot]` -/
def read (slot : ℤ) : Except Fault Node :=
  match table.node? slot with
  | some node => .ok node
  | none => .error .outOfBounds

/-- An assignment to some fields of `_buf[slot]`. -/
def write (slot : ℤ) (change : Node → Node) : Except Fault (QueueTable NPROC) :=
  match table.node? slot with
  | some node => .ok { table with buf := table.buf.setIfInBounds slot.toNat (change node) }
  | none => .error .outOfBounds

/-- `_buf[slot].key = value` -/
def writeKey (slot : ℤ) (value : BitVec 32) : Except Fault (QueueTable NPROC) :=
  table.write slot fun node ↦ { node with key := value }

/-- `_buf[slot].next = value` -/
def writeNext (slot value : ℤ) : Except Fault (QueueTable NPROC) :=
  table.write slot fun node ↦ { node with next := value }

/-- `_buf[slot].prev = value` -/
def writePrev (slot value : ℤ) : Except Fault (QueueTable NPROC) :=
  table.write slot fun node ↦ { node with prev := value }

def isEmpty (queue : BitVec 16) : Except Fault Bool := do
  let node ← table.read (head queue)
  return node.next = tail queue

def firstPid (queue : BitVec 16) : Except Fault ℤ := do
  let node ← table.read (head queue)
  return node.next

def lastPid (queue : BitVec 16) : Except Fault ℤ := do
  let node ← table.read (tail queue)
  return node.prev

def popFirst (queue : BitVec 16) : Except Fault (ℤ × QueueTable NPROC) := do
  if ← table.isEmpty queue then return (-1, table)
  else
    let evicted ← table.firstPid queue
    let table ← table.writeNext (head queue) (← table.read evicted).next
    return (evicted, table)

/-- The body is that of `popFirst`, word for word. -/
def popLast (queue : BitVec 16) : Except Fault (ℤ × QueueTable NPROC) := table.popFirst queue

def pushQueue (queue : BitVec 16) (proc : ℤ) : Except Fault (ℤ × QueueTable NPROC) := do
  let oldlast := (← table.read (tail queue)).prev
  let table ← table.writeNext oldlast proc
  let table ← table.writePrev proc oldlast
  let table ← table.writeNext proc (tail queue)
  let table ← table.writePrev (tail queue) proc
  return (proc, table)

def popQueue (queue : BitVec 16) : Except Fault (ℤ × QueueTable NPROC) := do
  if ← table.isEmpty queue then return (-1, table)
  else
    let evicted ← table.firstPid queue
    let table ← table.writeNext (head queue) (← table.read evicted).next
    let table ← table.writePrev (← table.read evicted).next (head queue)
    let table ← table.writeNext evicted (-1)
    let table ← table.writePrev evicted (-1)
    return (evicted, table)

/-- The `while` loop of `insert`, which ends with the node to insert before. -/
def insertWalk (key : BitVec 32) : ℕ → ℤ → Except Fault ℤ
  | 0, _ => .error .divergence
  | fuel + 1, curr => do
    let successor ← table.read (← table.read curr).next
    if key ≤ successor.key then insertWalk key fuel (← table.read curr).next else return curr

/-- The walk never writes, so after more steps than there are slots it goes in circles. -/
def insert (proc : ℤ) (queue : BitVec 16) (key : BitVec 32) :
    Except Fault (Bool × QueueTable NPROC) := do
  if proc < 0 then return (false, table)
  else
    let curr ← table.insertWalk key (NPROC + 5) (head queue)
    let prev := (← table.read curr).prev
    let table ← table.writeNext prev proc
    let table ← table.writePrev proc prev
    let table ← table.writeNext proc curr
    let table ← table.writePrev curr proc
    return (true, table)

def newQueue : Except Fault (BitVec 16 × QueueTable NPROC) := do
  let newqueue := table.nextqid
  let table := { table with nextqid := table.nextqid + 2 }
  let table ← table.writeNext (head newqueue) (tail newqueue)
  let table ← table.writePrev (head newqueue) (-1)
  let table ← table.writeNext (tail newqueue) (-1)
  let table ← table.writeKey (tail newqueue) (-1)
  let table ← table.writePrev (tail newqueue) (head newqueue)
  return (newqueue, table)

/-! ## Slots and links -/

/-- The number is that of a slot of `_buf`. -/
def IsSlot (NPROC : ℕ) (slot : ℤ) : Prop := 0 ≤ slot ∧ slot < NPROC + 4

def keyAt (slot : ℤ) : Option (BitVec 32) := (table.node? slot).map Node.key

def nextAt (slot : ℤ) : Option ℤ := (table.node? slot).map Node.next

def prevAt (slot : ℤ) : Option ℤ := (table.node? slot).map Node.prev

/-- What the fields of the slots and the next queue id are. -/
structure Holds (nextqid : BitVec 16) (key : ℤ → Option (BitVec 32)) (next prev : ℤ → Option ℤ) :
    Prop where
  nextqid : table.nextqid = nextqid
  key : table.keyAt = key
  next : table.nextAt = next
  prev : table.prevAt = prev

theorem holds_self : table.Holds table.nextqid table.keyAt table.nextAt table.prevAt :=
  ⟨rfl, rfl, rfl, rfl⟩

/-- The fields after an assignment to the one at `slot`. -/
def assign {α : Type} (field : ℤ → Option α) (slot : ℤ) (value : α) : ℤ → Option α :=
  fun other ↦ if other = slot then some value else field other

@[simp]
theorem assign_same {α : Type} (field : ℤ → Option α) (slot : ℤ) (value : α) :
    assign field slot value slot = some value := if_pos rfl

theorem assign_of_ne {α : Type} {field : ℤ → Option α} {slot other : ℤ} {value : α}
    (h : other ≠ slot) : assign field slot value other = field other := if_neg h

variable {table} {slot value : ℤ} {change : Node → Node} {node : Node} {nextqid : BitVec 16}
  {key : ℤ → Option (BitVec 32)} {next prev : ℤ → Option ℤ}

theorem exists_node (table : QueueTable NPROC) (h : IsSlot NPROC slot) :
    ∃ node, table.node? slot = some node := by
  obtain ⟨hlow, hhigh⟩ := h
  have hrange : slot.toNat < NPROC + 4 := by omega
  exact ⟨_, (if_neg (Int.not_lt.mpr hlow)).trans (Vector.getElem?_eq_getElem hrange)⟩

theorem isSlot_of_node (h : table.node? slot = some node) : IsSlot NPROC slot := by
  unfold node? at h
  split_ifs at h with hneg
  obtain ⟨hrange, -⟩ := Vector.getElem?_eq_some_iff.mp h
  exact ⟨Int.not_lt.mp hneg, by omega⟩

theorem isSlot_of_nextAt (h : table.nextAt slot = some value) : IsSlot NPROC slot := by
  obtain ⟨node, hnode, -⟩ := Option.map_eq_some_iff.mp h
  exact isSlot_of_node hnode

theorem isSlot_of_prevAt (h : table.prevAt slot = some value) : IsSlot NPROC slot := by
  obtain ⟨node, hnode, -⟩ := Option.map_eq_some_iff.mp h
  exact isSlot_of_node hnode

/-- A read of the successor of a slot. -/
theorem exists_read_next (h : table.nextAt slot = some value) :
    ∃ node, table.read slot = .ok node ∧ node.next = value := by
  obtain ⟨node, hnode, hnext⟩ := Option.map_eq_some_iff.mp h
  exact ⟨node, by rw [read, hnode], hnext⟩

/-- A read of the predecessor of a slot. -/
theorem exists_read_prev (h : table.prevAt slot = some value) :
    ∃ node, table.read slot = .ok node ∧ node.prev = value := by
  obtain ⟨node, hnode, hprev⟩ := Option.map_eq_some_iff.mp h
  exact ⟨node, by rw [read, hnode], hprev⟩

theorem node_eq_none (h : ¬ IsSlot NPROC slot) : table.node? slot = none := by
  cases hnode : table.node? slot with
  | none => rfl
  | some node => exact absurd (isSlot_of_node hnode) h

theorem read_eq_error (h : ¬ IsSlot NPROC slot) : table.read slot = .error .outOfBounds := by
  rw [read, node_eq_none h]

theorem write_eq_error (h : ¬ IsSlot NPROC slot) : table.write slot change = .error .outOfBounds := by
  rw [write, node_eq_none h]

/-- A write to a slot changes that slot and no other. -/
theorem exists_write (table : QueueTable NPROC) (h : IsSlot NPROC slot) (change : Node → Node) :
    ∃ node table', table.node? slot = some node ∧ table.write slot change = .ok table' ∧
      table'.nextqid = table.nextqid ∧ table'.node? slot = some (change node) ∧
      ∀ other ≠ slot, table'.node? other = table.node? other := by
  obtain ⟨node, hnode⟩ := exists_node table h
  refine ⟨node, { table with buf := table.buf.setIfInBounds slot.toNat (change node) }, hnode, ?_,
    rfl, ?_, fun other hother ↦ ?_⟩
  · rw [write, hnode]
  · obtain ⟨hlow, hhigh⟩ := h
    have hrange : slot.toNat < NPROC + 4 := by omega
    rw [node?, if_neg (Int.not_lt.mpr hlow)]
    simp [hrange]
  · unfold node?
    split_ifs with hneg
    · rfl
    · have hne : slot.toNat ≠ other.toNat := by have := h.1; omega
      exact Vector.getElem?_setIfInBounds_ne hne

section Write

variable (hslot : IsSlot NPROC slot) (h : table.Holds nextqid key next prev)

include hslot h

theorem exists_writeKey (value : BitVec 32) : ∃ table', table.writeKey slot value = .ok table' ∧
    table'.Holds nextqid (assign key slot value) next prev := by
  obtain ⟨node, table', hnode, hrun, hnextqid, hslot', hother⟩ :=
    exists_write table hslot fun node ↦ { node with key := value }
  refine ⟨table', hrun, hnextqid.trans h.nextqid, ?_, ?_, ?_⟩ <;> funext other <;>
    by_cases heq : other = slot
  · rw [heq, keyAt, hslot', assign_same, Option.map_some]
  · rw [keyAt, hother other heq, assign_of_ne heq, ← h.key, keyAt]
  · rw [heq, nextAt, hslot', ← h.next, nextAt, hnode, Option.map_some, Option.map_some]
  · rw [nextAt, hother other heq, ← h.next, nextAt]
  · rw [heq, prevAt, hslot', ← h.prev, prevAt, hnode, Option.map_some, Option.map_some]
  · rw [prevAt, hother other heq, ← h.prev, prevAt]

theorem exists_writeNext (value : ℤ) : ∃ table', table.writeNext slot value = .ok table' ∧
    table'.Holds nextqid key (assign next slot value) prev := by
  obtain ⟨node, table', hnode, hrun, hnextqid, hslot', hother⟩ :=
    exists_write table hslot fun node ↦ { node with next := value }
  refine ⟨table', hrun, hnextqid.trans h.nextqid, ?_, ?_, ?_⟩ <;> funext other <;>
    by_cases heq : other = slot
  · rw [heq, keyAt, hslot', ← h.key, keyAt, hnode, Option.map_some, Option.map_some]
  · rw [keyAt, hother other heq, ← h.key, keyAt]
  · rw [heq, nextAt, hslot', assign_same, Option.map_some]
  · rw [nextAt, hother other heq, assign_of_ne heq, ← h.next, nextAt]
  · rw [heq, prevAt, hslot', ← h.prev, prevAt, hnode, Option.map_some, Option.map_some]
  · rw [prevAt, hother other heq, ← h.prev, prevAt]

theorem exists_writePrev (value : ℤ) : ∃ table', table.writePrev slot value = .ok table' ∧
    table'.Holds nextqid key next (assign prev slot value) := by
  obtain ⟨node, table', hnode, hrun, hnextqid, hslot', hother⟩ :=
    exists_write table hslot fun node ↦ { node with prev := value }
  refine ⟨table', hrun, hnextqid.trans h.nextqid, ?_, ?_, ?_⟩ <;> funext other <;>
    by_cases heq : other = slot
  · rw [heq, keyAt, hslot', ← h.key, keyAt, hnode, Option.map_some, Option.map_some]
  · rw [keyAt, hother other heq, ← h.key, keyAt]
  · rw [heq, nextAt, hslot', ← h.next, nextAt, hnode, Option.map_some, Option.map_some]
  · rw [nextAt, hother other heq, ← h.next, nextAt]
  · rw [heq, prevAt, hslot', assign_same, Option.map_some]
  · rw [prevAt, hother other heq, assign_of_ne heq, ← h.prev, prevAt]

end Write

/-! ## What the operations do to the links -/

variable {queue : BitVec 16} {proc oldlast first second : ℤ}

/-- A push writes the links of the process, the successor of the old last slot and the predecessor of
the tail. -/
theorem pushQueue_spec (hlast : table.prevAt (tail queue) = some oldlast)
    (hlastSlot : IsSlot NPROC oldlast) (hproc : IsSlot NPROC proc) :
    ∃ table', table.pushQueue queue proc = .ok (proc, table') ∧
      table'.Holds table.nextqid table.keyAt
        (assign (assign table.nextAt oldlast proc) proc (tail queue))
        (assign (assign table.prevAt proc oldlast) (tail queue) proc) := by
  obtain ⟨node, hread, rfl⟩ := exists_read_prev hlast
  obtain ⟨table₁, hrun₁, hholds₁⟩ := exists_writeNext hlastSlot table.holds_self proc
  obtain ⟨table₂, hrun₂, hholds₂⟩ := exists_writePrev hproc hholds₁ node.prev
  obtain ⟨table₃, hrun₃, hholds₃⟩ := exists_writeNext hproc hholds₂ (tail queue)
  obtain ⟨table₄, hrun₄, hholds₄⟩ := exists_writePrev (isSlot_of_prevAt hlast) hholds₃ proc
  refine ⟨table₄, ?_, hholds₄⟩
  simp only [pushQueue, hread, hrun₁, hrun₂, hrun₃, hrun₄, ok_bind]
  rfl

/-- A process that has no slot is noticed only after the first write. -/
theorem pushQueue_eq_error (hlast : table.prevAt (tail queue) = some oldlast)
    (hlastSlot : IsSlot NPROC oldlast) (hproc : ¬ IsSlot NPROC proc) :
    table.pushQueue queue proc = .error .outOfBounds := by
  obtain ⟨node, hread, rfl⟩ := exists_read_prev hlast
  obtain ⟨table₁, hrun₁, -⟩ := exists_writeNext hlastSlot table.holds_self proc
  simp only [pushQueue, hread, hrun₁, ok_bind, writePrev, write_eq_error hproc, error_bind]

theorem isEmpty_eq (hnext : table.nextAt (head queue) = some first) :
    table.isEmpty queue = .ok (decide (first = tail queue)) := by
  obtain ⟨node, hread, rfl⟩ := exists_read_next hnext
  rw [isEmpty, hread, ok_bind]
  rfl

theorem firstPid_eq (hnext : table.nextAt (head queue) = some first) :
    table.firstPid queue = .ok first := by
  obtain ⟨node, hread, rfl⟩ := exists_read_next hnext
  rw [firstPid, hread, ok_bind]
  rfl

theorem lastPid_eq (hprev : table.prevAt (tail queue) = some oldlast) :
    table.lastPid queue = .ok oldlast := by
  obtain ⟨node, hread, rfl⟩ := exists_read_prev hprev
  rw [lastPid, hread, ok_bind]
  rfl

theorem popQueue_of_empty (hnext : table.nextAt (head queue) = some (tail queue)) :
    table.popQueue queue = .ok (-1, table) := by
  simp only [popQueue, isEmpty_eq hnext, ok_bind, decide_true, if_true]
  rfl

/-- A pop writes the successor of the head, the predecessor of the second slot and the links of the
first one. -/
theorem popQueue_spec (hfirst : table.nextAt (head queue) = some first) (hne : first ≠ tail queue)
    (hhead : first ≠ head queue) (hsecond : table.nextAt first = some second)
    (hsecondSlot : IsSlot NPROC second) :
    ∃ table', table.popQueue queue = .ok (first, table') ∧
      table'.Holds table.nextqid table.keyAt
        (assign (assign table.nextAt (head queue) second) first (-1))
        (assign (assign table.prevAt second (head queue)) first (-1)) := by
  obtain ⟨node, hread, rfl⟩ := exists_read_next hsecond
  obtain ⟨table₁, hrun₁, hholds₁⟩ :=
    exists_writeNext (isSlot_of_nextAt hfirst) table.holds_self node.next
  have hagain : table₁.nextAt first = some node.next := by
    rw [hholds₁.next, assign_of_ne hhead, hsecond]
  obtain ⟨node', hread', hnode'⟩ := exists_read_next hagain
  obtain ⟨table₂, hrun₂, hholds₂⟩ := exists_writePrev hsecondSlot hholds₁ (head queue)
  obtain ⟨table₃, hrun₃, hholds₃⟩ := exists_writeNext (isSlot_of_nextAt hsecond) hholds₂ (-1)
  obtain ⟨table₄, hrun₄, hholds₄⟩ := exists_writePrev (isSlot_of_nextAt hsecond) hholds₃ (-1)
  refine ⟨table₄, ?_, hholds₄⟩
  simp only [popQueue, isEmpty_eq hfirst, firstPid_eq hfirst, hread, hrun₁, hread', hnode', hrun₂,
    hrun₃, hrun₄, ok_bind, decide_eq_true_eq, if_neg hne]
  rfl

theorem popFirst_of_empty (hnext : table.nextAt (head queue) = some (tail queue)) :
    table.popFirst queue = .ok (-1, table) := by
  simp only [popFirst, isEmpty_eq hnext, ok_bind, decide_true, if_true]
  rfl

/-- `popFirst` writes the successor of the head and nothing else. -/
theorem popFirst_spec (hfirst : table.nextAt (head queue) = some first) (hne : first ≠ tail queue)
    (hsecond : table.nextAt first = some second) :
    ∃ table', table.popFirst queue = .ok (first, table') ∧
      table'.Holds table.nextqid table.keyAt (assign table.nextAt (head queue) second) table.prevAt := by
  obtain ⟨node, hread, rfl⟩ := exists_read_next hsecond
  obtain ⟨table', hrun, hholds⟩ :=
    exists_writeNext (isSlot_of_nextAt hfirst) table.holds_self node.next
  refine ⟨table', ?_, hholds⟩
  simp only [popFirst, isEmpty_eq hfirst, firstPid_eq hfirst, hread, hrun, ok_bind, decide_eq_true_eq,
    if_neg hne]
  rfl

/-- A new queue is a head and a tail that point at each other. -/
theorem newQueue_spec (table : QueueTable NPROC) (hhead : IsSlot NPROC (head table.nextqid))
    (htail : IsSlot NPROC (tail table.nextqid)) :
    ∃ table', table.newQueue = .ok (table.nextqid, table') ∧
      table'.Holds (table.nextqid + 2) (assign table.keyAt (tail table.nextqid) (-1))
        (assign (assign table.nextAt (head table.nextqid) (tail table.nextqid))
          (tail table.nextqid) (-1))
        (assign (assign table.prevAt (head table.nextqid) (-1)) (tail table.nextqid)
          (head table.nextqid)) := by
  have hstart : { table with nextqid := table.nextqid + 2 }.Holds (table.nextqid + 2) table.keyAt
      table.nextAt table.prevAt := ⟨rfl, rfl, rfl, rfl⟩
  obtain ⟨table₁, hrun₁, hholds₁⟩ := exists_writeNext hhead hstart (tail table.nextqid)
  obtain ⟨table₂, hrun₂, hholds₂⟩ := exists_writePrev hhead hholds₁ (-1)
  obtain ⟨table₃, hrun₃, hholds₃⟩ := exists_writeNext htail hholds₂ (-1)
  obtain ⟨table₄, hrun₄, hholds₄⟩ := exists_writeKey htail hholds₃ (-1)
  obtain ⟨table₅, hrun₅, hholds₅⟩ := exists_writePrev htail hholds₄ (head table.nextqid)
  refine ⟨table₅, ?_, hholds₅⟩
  simp only [newQueue, hrun₁, hrun₂, hrun₃, hrun₄, hrun₅, ok_bind]
  rfl

end QueueTable

end PenelopeOS.Proc
