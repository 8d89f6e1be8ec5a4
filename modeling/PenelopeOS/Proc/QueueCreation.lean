import PenelopeOS.Proc.Fifo

/-!
# How many queues `newQueue` creates

The id of a new queue is taken from a counter that is compared with nothing, and `_buf` has room for
the heads and tails of two queues. The third creation of a run writes behind `_buf`, or into the slots
of the processes when the counter has wrapped by then.
-/

namespace PenelopeOS.Proc

open Machine Foundation

variable {NPROC : ℕ} {table table' : QueueTable NPROC} {fifo fifo' : Fifo NPROC} {queue : BitVec 16}

/-- A queue without elements in two slots of its own, behind those of the processes. -/
structure FreshQueue (table : QueueTable NPROC) (fifo : Fifo NPROC) (queue : BitVec 16) : Prop where
  distinct : head queue ≠ tail queue
  isSlot : QueueTable.IsSlot NPROC (head queue) ∧ QueueTable.IsSlot NPROC (tail queue)
  behind : NPROC ≤ head queue ∧ NPROC ≤ tail queue
  unused : ∀ other < fifo.created, ∀ slot ∈ [head queue, tail queue],
    slot ≠ head (queueId NPROC other) ∧ slot ≠ tail (queueId NPROC other)
  empty : table.isEmpty queue = .ok true

/-- The creation returns a fresh queue, or an id of no slot together with the old slots, and the
queues that exist keep their elements. -/
def CreationSafe (table : QueueTable NPROC) (fifo : Fifo NPROC) : Prop :=
  ∃ queue table', table.newQueue = .ok (queue, table') ∧
    (FreshQueue table' fifo queue ∨
      ¬ QueueTable.IsSlot NPROC (head queue) ∧ table'.buf = table.buf) ∧
    ∀ index < fifo.created, Linked table'.nextAt table'.prevAt (fifo.slots index)

/-- The queues after a call, where a creation for which there is no room creates none. -/
def Fifo.attempt (fifo : Fifo NPROC) : QueueOp → Option (Fifo NPROC)
  | .newQueue => some (if h : fifo.created < 2 then fifo.create h else fifo)
  | op => (fifo.perform op).map Prod.snd

/-- The constraints of the table allow all pushes and pops of the calls. -/
def Fifo.Allows (fifo : Fifo NPROC) : List QueueOp → Prop
  | [] => True
  | op :: ops => ∃ fifo', fifo.attempt op = some fifo' ∧ fifo'.Allows ops

/-- Every creation among the calls is safe in the state in which it happens. -/
def CreationsSafe : List QueueOp → QueueTable NPROC → Fifo NPROC → Prop
  | [], _, _ => True
  | op :: ops, table, fifo => (op = .newQueue → CreationSafe table fifo) ∧
      ∀ answer table' fifo', table.perform op = .ok (answer, table') →
        fifo.attempt op = some fifo' → CreationsSafe ops table' fifo'

/-- Pushes and pops create no queue. -/
theorem Fifo.created_of_perform {op : QueueOp} {result : ℤ × Fifo NPROC} (hop : op ≠ .newQueue)
    (hperform : fifo.perform op = some result) : result.2.created = fifo.created := by
  cases op with
  | newQueue => exact absurd rfl hop
  | pushQueue index proc =>
    simp only [perform] at hperform
    split_ifs at hperform with hallowed
    rw [← Option.some.inj hperform]
    rfl
  | popQueue index =>
    simp only [perform] at hperform
    split_ifs at hperform with hindex
    split at hperform
    · rw [← Option.some.inj hperform]
    · rw [← Option.some.inj hperform]
      rfl

namespace QueueTable

/-- A creation that ends has written the slot of the counter. -/
theorem newQueue_eq_ok (hrun : table.newQueue = .ok (queue, table')) :
    queue = table.nextqid ∧ IsSlot NPROC (head queue) := by
  obtain ⟨table₁, hrun₁, hrun⟩ := bind_eq_ok_iff.mp hrun
  obtain ⟨table₂, -, hrun⟩ := bind_eq_ok_iff.mp hrun
  obtain ⟨table₃, -, hrun⟩ := bind_eq_ok_iff.mp hrun
  obtain ⟨table₄, -, hrun⟩ := bind_eq_ok_iff.mp hrun
  obtain ⟨table₅, -, hrun⟩ := bind_eq_ok_iff.mp hrun
  obtain ⟨rfl, -⟩ := Prod.mk.inj (Except.ok.inj hrun)
  refine ⟨rfl, by_contra fun hslot ↦ ?_⟩
  rw [writeNext, write_eq_error hslot] at hrun₁
  cases hrun₁

namespace Represents

variable (hNPROC : NPROC + 4 ≤ 2 ^ 16) (h : table.Represents fifo)

include hNPROC h

theorem creationSafe_of_lt (hroom : fifo.created < 2) : CreationSafe table fifo := by
  obtain ⟨table', hrun, hrepresents⟩ := h.newQueue hNPROC hroom
  have hhead := head_queueId hNPROC hroom
  have htail := tail_queueId hNPROC hroom
  have hcreated : fifo.created < (fifo.create hroom).created := Nat.lt_succ_self _
  have hempty : table'.isEmpty (queueId NPROC fifo.created) = .ok true := by
    rw [hrepresents.isEmpty_eq hNPROC hcreated]
    change Except.ok (fifo.queue fifo.created).isEmpty = _
    rw [fifo.empty_of_le _ le_rfl]
    rfl
  refine ⟨_, table', hrun, Or.inl ⟨by omega, isSlot_sentinel hNPROC hroom, by omega,
    fun other hother slot hslot ↦ ?_, hempty⟩, fun index hindex ↦ ?_⟩
  · have hotherHead := head_queueId hNPROC (hother.trans hroom)
    have hotherTail := tail_queueId hNPROC (hother.trans hroom)
    rcases List.mem_pair.mp hslot with rfl | rfl
    · omega
    · omega
  · exact hrepresents.linked index (hindex.trans hcreated)

omit hNPROC in
/-- The counter has run past the last slot, or around to the first one. -/
theorem not_creationSafe (hfull : fifo.created = 2) : ¬ CreationSafe table fifo := by
  rintro ⟨queue, table', hrun, hsafe, -⟩
  obtain ⟨rfl, hslot⟩ := newQueue_eq_ok hrun
  rcases hsafe with hfresh | ⟨hfailure, -⟩
  · have hbehind := hfresh.behind.1
    have hrange := hslot.2
    rw [h.nextqid, hfull] at hbehind hrange
    simp only [head, queueId, BitVec.toNat_ofNat] at hbehind hrange
    omega
  · exact hfailure hslot

omit hNPROC h in
theorem creationsSafe_cons {op : QueueOp} {ops : List QueueOp} {answer : ℤ}
    (hrun : table.perform op = .ok (answer, table')) (hattempt : fifo.attempt op = some fifo') :
    CreationsSafe (op :: ops) table fifo ↔
      (op = .newQueue → CreationSafe table fifo) ∧ CreationsSafe ops table' fifo' := by
  refine and_congr_right fun _ ↦ ⟨fun hrest ↦ hrest answer table' fifo' hrun hattempt, ?_⟩
  intro hrest answer' table'' fifo'' hrun' hattempt'
  obtain ⟨-, rfl⟩ := ok_pair_inj hrun hrun'
  obtain rfl := Option.some.inj (hattempt.symm.trans hattempt')
  exact hrest

/-- There is room for the creations that a list of calls asks for, or one of them is unsafe. -/
theorem creationsSafe_iff {ops : List QueueOp} (hallowed : fifo.Allows ops) :
    CreationsSafe ops table fifo ↔ fifo.created + ops.count .newQueue ≤ 2 := by
  induction ops generalizing table fifo with
  | nil => exact iff_of_true trivial fifo.created_le
  | cons op ops ih =>
    obtain ⟨fifo', hattempt, hrest⟩ := hallowed
    by_cases hop : op = .newQueue
    · subst hop
      rw [List.count_cons_self]
      by_cases hroom : fifo.created < 2
      · obtain ⟨table', hrun, hrepresents⟩ := h.perform hNPROC
          (show fifo.perform .newQueue = some (_, fifo.create hroom) from dif_pos hroom)
        obtain rfl : fifo.create hroom = fifo' := by
          rw [Fifo.attempt, dif_pos hroom] at hattempt
          exact Option.some.inj hattempt
        have hsafe := h.creationSafe_of_lt hNPROC hroom
        have hcreated : (fifo.create hroom).created = fifo.created + 1 := rfl
        rw [creationsSafe_cons hrun hattempt, and_iff_right fun _ ↦ hsafe, ih hrepresents hrest,
          hcreated]
        omega
      · have hfull : fifo.created = 2 := by have := fifo.created_le; omega
        refine iff_of_false (fun hsafe ↦ ?_) (by omega)
        exact h.not_creationSafe hfull (hsafe.1 rfl)
    · obtain ⟨⟨answer, after⟩, hperform, rfl⟩ : ∃ result, fifo.perform op = some result ∧
          result.2 = fifo' := by
        cases op with
        | newQueue => exact absurd rfl hop
        | pushQueue index proc => exact Option.map_eq_some_iff.mp hattempt
        | popQueue index => exact Option.map_eq_some_iff.mp hattempt
      obtain ⟨table', hrun, hrepresents⟩ := h.perform hNPROC hperform
      have hcreated : after.created = fifo.created := Fifo.created_of_perform hop hperform
      rw [creationsSafe_cons hrun hattempt, and_iff_right fun heq ↦ absurd heq hop,
        ih hrepresents hrest, hcreated, List.count_cons_of_ne hop]

end Represents

end QueueTable

/-- Among calls with any number of creations, in any order with pushes and pops, every creation is safe
exactly when there are at most two of them. -/
theorem creationsSafe_iff_count (hNPROC : NPROC + 4 ≤ 2 ^ 16) {ops : List QueueOp}
    (hallowed : (Fifo.empty NPROC).Allows ops) :
    CreationsSafe ops (QueueTable.zero NPROC) (Fifo.empty NPROC) ↔ ops.count .newQueue ≤ 2 := by
  rw [QueueTable.Represents.zero.creationsSafe_iff hNPROC hallowed]
  change 0 + _ ≤ 2 ↔ _
  rw [Nat.zero_add]

/-- Two queues with a push in between. -/
theorem creationsSafe_two :
    CreationsSafe [.newQueue, .pushQueue 0 3, .newQueue] (QueueTable.zero 10) (Fifo.empty 10) := by
  have hallowed : (Fifo.empty 10).Allows [.newQueue, .pushQueue 0 3, .newQueue] :=
    ⟨_, rfl, _, rfl, _, rfl, trivial⟩
  exact (creationsSafe_iff_count (by decide) hallowed).mpr (by decide)

/-- A third queue is written behind the table. -/
theorem not_creationsSafe_three :
    (Fifo.empty 10).Allows [.newQueue, .newQueue, .newQueue] ∧
      ((QueueTable.zero 10).newQueue >>= fun result ↦ result.2.newQueue >>= fun result ↦
        result.2.newQueue).map Prod.fst = .error .outOfBounds ∧
      ¬ CreationsSafe [.newQueue, .newQueue, .newQueue] (QueueTable.zero 10) (Fifo.empty 10) := by
  have hallowed : (Fifo.empty 10).Allows [.newQueue, .newQueue, .newQueue] :=
    ⟨_, rfl, _, rfl, _, rfl, trivial⟩
  refine ⟨hallowed, by decide, fun hsafe ↦ ?_⟩
  rw [QueueTable.Represents.zero.creationsSafe_iff (by decide) hallowed] at hsafe
  exact absurd hsafe (by decide)

end PenelopeOS.Proc
