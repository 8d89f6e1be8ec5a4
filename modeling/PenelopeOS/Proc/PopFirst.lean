import PenelopeOS.Proc.ForwardChains

/-!
# Whether `popFirst` can stand in for `popQueue`

Both answer with the first process and take it out of the forward chain. `popQueue` also points the
slot behind it back at the head, which `popFirst` does not: its process stays on the backward chain,
and a later push finds it there. The states are those that a run with both of them reaches, so stale
links may be around already.
-/

namespace PenelopeOS.Proc

open Machine QueueTable

variable {NPROC : ℕ}

/-- The states of the table, with the number of its queues, that calls without a fault lead to. A
process is pushed when it is on the forward chain of no queue. -/
inductive QueueTable.Reachable : ℕ → QueueTable NPROC → Prop
  | zero : Reachable 0 (QueueTable.zero NPROC)
  | newQueue {created : ℕ} {table table' : QueueTable NPROC} {queue : BitVec 16}
      (before : Reachable created table) (hroom : created < 2)
      (hrun : table.newQueue = .ok (queue, table')) : Reachable (created + 1) table'
  | pushQueue {created index : ℕ} {table table' : QueueTable NPROC} {proc answer : ℤ}
      (before : Reachable created table) (hindex : index < created) (hpid : IsPid NPROC proc)
      (hidle : ¬ Ahead NPROC created table.nextAt proc)
      (hrun : table.pushQueue (queueId NPROC index) proc = .ok (answer, table')) :
      Reachable created table'
  | popQueue {created index : ℕ} {table table' : QueueTable NPROC} {answer : ℤ}
      (before : Reachable created table) (hindex : index < created)
      (hrun : table.popQueue (queueId NPROC index) = .ok (answer, table')) : Reachable created table'
  | popFirst {created index : ℕ} {table table' : QueueTable NPROC} {answer : ℤ}
      (before : Reachable created table) (hindex : index < created)
      (hrun : table.popFirst (queueId NPROC index) = .ok (answer, table')) : Reachable created table'

/-- No queue shows a difference, and neither do later pushes and pops. -/
structure ObservablyEqual (created : ℕ) (table table' : QueueTable NPROC) : Prop where
  forward : ∀ index < created, follow table.nextAt (head (queueId NPROC index)) =
    follow table'.nextAt (head (queueId NPROC index))
  backward : ∀ index < created, follow table.prevAt (tail (queueId NPROC index)) =
    follow table'.prevAt (tail (queueId NPROC index))
  isEmpty : ∀ index < created, table.isEmpty (queueId NPROC index) =
    table'.isEmpty (queueId NPROC index)
  firstPid : ∀ index < created, table.firstPid (queueId NPROC index) =
    table'.firstPid (queueId NPROC index)
  lastPid : ∀ index < created, table.lastPid (queueId NPROC index) =
    table'.lastPid (queueId NPROC index)
  answers : ∀ ops : List QueueOp, .newQueue ∉ ops →
    (table.run ops).map Prod.fst = (table'.run ops).map Prod.fst

def Interchangeable (created : ℕ) (table : QueueTable NPROC) (index : ℕ) : Prop :=
  ∃ pid popped popped', table.popFirst (queueId NPROC index) = .ok (pid, popped) ∧
    table.popQueue (queueId NPROC index) = .ok (pid, popped') ∧ ObservablyEqual created popped popped'

theorem ObservablyEqual.refl (created : ℕ) (table : QueueTable NPROC) :
    ObservablyEqual created table table where
  forward _ _ := rfl
  backward _ _ := rfl
  isEmpty _ _ := rfl
  firstPid _ _ := rfl
  lastPid _ _ := rfl
  answers _ _ := rfl

namespace QueueTable

variable {table table' : QueueTable NPROC} {created index : ℕ} {queue : BitVec 16}
  {first second proc answer : ℤ}

theorem not_isSlot_neg_one : ¬ IsSlot NPROC (-1) := fun h ↦ absurd h.1 (by decide)

theorem nextAt_neg_one (table : QueueTable NPROC) : table.nextAt (-1) = none := by
  rw [nextAt, node_eq_none not_isSlot_neg_one, Option.map_none]

/-- What is no slot cannot be removed. -/
theorem popFirst_eq_error (hfirst : table.nextAt (head queue) = some first)
    (hne : first ≠ tail queue) (hslot : ¬ IsSlot NPROC first) :
    table.popFirst queue = .error .outOfBounds := by
  simp only [popFirst, isEmpty_eq hfirst, firstPid_eq hfirst, read_eq_error hslot, ok_bind, error_bind,
    decide_eq_true_eq, if_neg hne]

theorem popQueue_eq_error (hfirst : table.nextAt (head queue) = some first)
    (hne : first ≠ tail queue) (hslot : ¬ IsSlot NPROC first) :
    table.popQueue queue = .error .outOfBounds := by
  simp only [popQueue, isEmpty_eq hfirst, firstPid_eq hfirst, read_eq_error hslot, ok_bind, error_bind,
    decide_eq_true_eq, if_neg hne]

/-- `popQueue` also needs a slot behind the first one. -/
theorem popQueue_eq_error_of_second (hfirst : table.nextAt (head queue) = some first)
    (hne : first ≠ tail queue) (hhead : first ≠ head queue) (hsecond : table.nextAt first = some second)
    (hslot : ¬ IsSlot NPROC second) : table.popQueue queue = .error .outOfBounds := by
  obtain ⟨node, hread, rfl⟩ := exists_read_next hsecond
  obtain ⟨table₁, hrun₁, hholds₁⟩ :=
    exists_writeNext (isSlot_of_nextAt hfirst) table.holds_self node.next
  have hagain : table₁.nextAt first = some node.next := by
    rw [hholds₁.next, assign_of_ne hhead, hsecond]
  obtain ⟨node', hread', hnode'⟩ := exists_read_next hagain
  simp only [popQueue, isEmpty_eq hfirst, firstPid_eq hfirst, hread, hrun₁, hread', hnode', writePrev,
    write_eq_error hslot, ok_bind, error_bind, decide_eq_true_eq, if_neg hne]

/-- What holds of the table in every state that is reached. -/
structure Kept (table : QueueTable NPROC) (created : ℕ) : Prop where
  created_le : created ≤ 2
  nextqid : table.nextqid = queueId NPROC created
  chained : ∃ waiting, Chained NPROC created waiting table.nextAt table.prevAt

section Sentinels

variable (hNPROC : NPROC + 4 ≤ 2 ^ 16)

include hNPROC

theorem isHead_head (hindex : index < created) (hcreated : created ≤ 2) :
    IsHead NPROC created (head (queueId NPROC index)) :=
  ⟨index, hindex, head_queueId hNPROC (hindex.trans_le hcreated)⟩

theorem isTail_tail (hindex : index < created) (hcreated : created ≤ 2) :
    IsTail NPROC created (tail (queueId NPROC index)) :=
  ⟨index, hindex, tail_queueId hNPROC (hindex.trans_le hcreated)⟩

theorem exists_index_of_isTail (hcreated : created ≤ 2) {slot : ℤ} (h : IsTail NPROC created slot) :
    ∃ index < created, slot = tail (queueId NPROC index) := by
  obtain ⟨index, hindex, hslot⟩ := h
  exact ⟨index, hindex, hslot.trans (tail_queueId hNPROC (hindex.trans_le hcreated)).symm⟩

/-- What the head of a queue leads to: its tail, a process in front of a slot, a slot in front of none,
or no slot. -/
theorem first_cases {waiting : Set ℤ} (h : Chained NPROC created waiting table.nextAt table.prevAt)
    (hindex : index < created) (hcreated : created ≤ 2) :
    table.nextAt (head (queueId NPROC index)) = some (tail (queueId NPROC index)) ∨
    ∃ first, table.nextAt (head (queueId NPROC index)) = some first ∧
      first ≠ tail (queueId NPROC index) ∧ first ≠ head (queueId NPROC index) ∧
      ((∃ second, first ∈ waiting ∧ table.nextAt first = some second ∧ IsSlot NPROC second) ∨
        table.nextAt first = some (-1) ∨ ¬ IsSlot NPROC first) := by
  have hhead := isHead_head hNPROC hindex hcreated
  obtain ⟨first, hfirst, hcases⟩ := h.next_head _ hhead
  by_cases hempty : first = tail (queueId NPROC index)
  · exact Or.inl (hempty ▸ hfirst)
  refine Or.inr ⟨first, hfirst, hempty, ?_, ?_⟩
  · rintro rfl
    rcases hcases with hmem | htail | heq
    · exact (h.isPid _ hmem).not_isHead hhead
    · exact htail.not_isHead hhead
    · rw [heq, h.next_none] at hfirst
      cases hfirst
  · rcases hcases with hmem | htail | rfl
    · obtain ⟨second, hsecond, hback, -⟩ := h.linked first hmem
      exact Or.inl ⟨second, hmem, hsecond, isSlot_of_prevAt hback⟩
    · exact Or.inr (Or.inl (h.next_tail first htail))
    · exact Or.inr (Or.inr not_isSlot_neg_one)

namespace Kept

theorem popFirst (h : table.Kept created) (hindex : index < created)
    (hrun : table.popFirst (queueId NPROC index) = .ok (answer, table')) : table'.Kept created := by
  obtain ⟨hcreated, hnextqid, waiting, hchained⟩ := h
  have hhead := isHead_head hNPROC hindex hcreated
  rcases first_cases hNPROC hchained hindex hcreated with hempty | ⟨first, hfirst, hne, hhead', hcases⟩
  · obtain ⟨-, rfl⟩ := ok_pair_inj hrun (popFirst_of_empty hempty)
    exact ⟨hcreated, hnextqid, waiting, hchained⟩
  rcases hcases with ⟨second, hmem, hsecond, -⟩ | hnone | hslot
  · obtain ⟨popped, hrun', hholds⟩ := popFirst_spec hfirst hne hsecond
    obtain ⟨-, rfl⟩ := ok_pair_inj hrun hrun'
    refine ⟨hcreated, hholds.nextqid.trans hnextqid, waiting \ {first}, ?_⟩
    rw [hholds.next, hholds.prev]
    exact hchained.pop hhead hfirst hmem hsecond (assign_same _ _ _)
      (fun slot hslot _ ↦ assign_of_ne hslot) (fun _ _ _ ↦ rfl) (Or.inl rfl)
  · obtain ⟨popped, hrun', hholds⟩ := popFirst_spec hfirst hne hnone
    obtain ⟨-, rfl⟩ := ok_pair_inj hrun hrun'
    refine ⟨hcreated, hholds.nextqid.trans hnextqid, waiting, ?_⟩
    rw [hholds.next, hholds.prev]
    exact hchained.skip hhead
  · rw [popFirst_eq_error hfirst hne hslot] at hrun
    cases hrun

theorem popQueue (h : table.Kept created) (hindex : index < created)
    (hrun : table.popQueue (queueId NPROC index) = .ok (answer, table')) : table'.Kept created := by
  obtain ⟨hcreated, hnextqid, waiting, hchained⟩ := h
  have hhead := isHead_head hNPROC hindex hcreated
  rcases first_cases hNPROC hchained hindex hcreated with hempty | ⟨first, hfirst, hne, hhead', hcases⟩
  · obtain ⟨-, rfl⟩ := ok_pair_inj hrun (popQueue_of_empty hempty)
    exact ⟨hcreated, hnextqid, waiting, hchained⟩
  rcases hcases with ⟨second, hmem, hsecond, hslot⟩ | hnone | hslot
  · obtain ⟨popped, hrun', hholds⟩ := popQueue_spec hfirst hne hhead' hsecond hslot
    obtain ⟨-, rfl⟩ := ok_pair_inj hrun hrun'
    refine ⟨hcreated, hholds.nextqid.trans hnextqid, waiting \ {first}, ?_⟩
    rw [hholds.next, hholds.prev]
    refine hchained.pop hhead hfirst hmem hsecond ?_ (fun slot hslotHead hslotFirst ↦ ?_)
      (fun slot hslotFirst hslotSecond ↦ ?_) (Or.inr ?_)
    · rw [assign_of_ne hhead'.symm, assign_same]
    · rw [assign_of_ne hslotFirst, assign_of_ne hslotHead]
    · rw [assign_of_ne hslotFirst, assign_of_ne hslotSecond]
    · rw [assign_of_ne (hchained.ne_of_next hmem hsecond), assign_same]
  · rw [popQueue_eq_error_of_second hfirst hne hhead' hnone not_isSlot_neg_one] at hrun
    cases hrun
  · rw [popQueue_eq_error hfirst hne hslot] at hrun
    cases hrun

theorem pushQueue (h : table.Kept created) (hindex : index < created) (hpid : IsPid NPROC proc)
    (hidle : ¬ Ahead NPROC created table.nextAt proc)
    (hrun : table.pushQueue (queueId NPROC index) proc = .ok (answer, table')) :
    table'.Kept created := by
  obtain ⟨hcreated, hnextqid, waiting, hchained⟩ := h
  have htail := isTail_tail hNPROC hindex hcreated
  obtain ⟨oldlast, hlast, hcases⟩ := hchained.prev_tail _ htail
  have hlastSlot : IsSlot NPROC oldlast := by
    rcases hcases with hcases | ⟨other, hother, heq⟩
    · exact ⟨hcases.1, by have := hcases.2; omega⟩
    · exact ⟨by omega, by omega⟩
  obtain ⟨pushed, hrun', hholds⟩ :=
    pushQueue_spec hlast hlastSlot (show IsSlot NPROC proc from ⟨hpid.1, by have := hpid.2; omega⟩)
  obtain ⟨-, rfl⟩ := ok_pair_inj hrun hrun'
  have hpushed := hchained.restrict.push htail hpid (fun hmem ↦ hidle hmem.2) hlast
  rw [pushNext, pushPrev, ← hholds.next, ← hholds.prev] at hpushed
  exact ⟨hcreated, hholds.nextqid.trans hnextqid, _, hpushed⟩

theorem newQueue (h : table.Kept created) (hroom : created < 2)
    (hrun : table.newQueue = .ok (queue, table')) : table'.Kept (created + 1) := by
  obtain ⟨hcreated, hnextqid, waiting, hchained⟩ := h
  obtain ⟨hheadSlot, htailSlot⟩ := isSlot_sentinel hNPROC hroom
  rw [← hnextqid] at hheadSlot htailSlot
  obtain ⟨grown, hrun', hholds⟩ := newQueue_spec table hheadSlot htailSlot
  obtain ⟨-, rfl⟩ := ok_pair_inj hrun hrun'
  refine ⟨hroom, hholds.nextqid.trans ?_, waiting, ?_⟩
  · rw [hnextqid, queueId_succ]
  · rw [hholds.next, hholds.prev, hnextqid]
    have hhead := head_queueId hNPROC hroom
    have htail := tail_queueId hNPROC hroom
    exact hchained.create hhead (by omega)

omit hNPROC in
theorem zero : (QueueTable.zero NPROC).Kept 0 :=
  ⟨Nat.zero_le 2, rfl, ∅, chained_zero (nextAt_neg_one _)⟩

end Kept

end Sentinels

theorem Reachable.kept (hNPROC : NPROC + 4 ≤ 2 ^ 16) (h : table.Reachable created) :
    table.Kept created := by
  induction h with
  | zero => exact .zero
  | newQueue _ hroom hrun ih => exact ih.newQueue hNPROC hroom hrun
  | pushQueue _ hindex hpid hidle hrun ih => exact ih.pushQueue hNPROC hindex hpid hidle hrun
  | popQueue _ hindex hrun ih => exact ih.popQueue hNPROC hindex hrun
  | popFirst _ hindex hrun ih => exact ih.popFirst hNPROC hindex hrun

/-- On a queue with elements the backward chain that passes the second slot tells the results apart,
unless one of the calls was a fault. -/
theorem Kept.not_interchangeable (hNPROC : NPROC + 4 ≤ 2 ^ 16) (h : table.Kept created)
    (hindex : index < created)
    (hempty : table.nextAt (head (queueId NPROC index)) ≠ some (tail (queueId NPROC index))) :
    ¬ Interchangeable created table index := by
  rintro ⟨pid, popped, popped', hrun, hrun', hequal⟩
  obtain ⟨hcreated, -, waiting, hchained⟩ := h
  obtain ⟨first, hfirst, hne, hhead, hcases⟩ :=
    (first_cases hNPROC hchained hindex hcreated).resolve_left hempty
  rcases hcases with ⟨second, hmem, hsecond, hslot⟩ | hnone | hslot
  · obtain ⟨table₁, hrun₁, hholds⟩ := popFirst_spec hfirst hne hsecond
    obtain ⟨-, rfl⟩ := ok_pair_inj hrun hrun₁
    obtain ⟨table₂, hrun₂, hholds'⟩ := popQueue_spec hfirst hne hhead hsecond hslot
    obtain ⟨-, rfl⟩ := ok_pair_inj hrun' hrun₂
    have hsecondFirst := hchained.ne_of_next hmem hsecond
    have hprev : popped.prevAt second = some first := by
      rw [hholds.prev]
      exact (hchained.linked_of_next hmem hsecond).1
    have hprev' : popped'.prevAt second = some (head (queueId NPROC index)) := by
      rw [hholds'.prev, assign_of_ne hsecondFirst, assign_same]
    obtain ⟨start, hstart, steps, hsteps, hsteps'⟩ := hchained.exists_follow_prev hmem hsecond
      (fun slot hslotFirst hslotSecond ↦ show popped'.prevAt slot = table.prevAt slot by
        rw [hholds'.prev, assign_of_ne hslotFirst, assign_of_ne hslotSecond])
    rw [← hholds.prev] at hsteps
    obtain ⟨other, hother, rfl⟩ := exists_index_of_isTail hNPROC hcreated hstart
    have hsame := congrFun (hequal.backward other hother) (steps + 1)
    rw [follow_succ hsteps, follow_succ hsteps', hprev, hprev'] at hsame
    exact hhead (Option.some.inj hsame)
  · rw [popQueue_eq_error_of_second hfirst hne hhead hnone not_isSlot_neg_one] at hrun'
    cases hrun'
  · rw [popFirst_eq_error hfirst hne hslot] at hrun
    cases hrun

end QueueTable

variable {table : QueueTable NPROC} {created index : ℕ}

/-- In every state that is reached, the two removals can stand in for each other exactly on the empty
queues. -/
theorem interchangeable_iff_isEmpty (hNPROC : NPROC + 4 ≤ 2 ^ 16) (h : table.Reachable created)
    (hindex : index < created) :
    Interchangeable created table index ↔ table.isEmpty (queueId NPROC index) = .ok true := by
  have hkept := h.kept hNPROC
  obtain ⟨waiting, hchained⟩ := hkept.chained
  obtain ⟨first, hfirst, -⟩ := hchained.next_head _ (isHead_head hNPROC hindex hkept.created_le)
  rw [isEmpty_eq hfirst, Except.ok.injEq, decide_eq_true_eq]
  constructor
  · intro hinterchangeable
    by_contra hne
    refine hkept.not_interchangeable hNPROC hindex (fun hempty ↦ hne ?_) hinterchangeable
    exact Option.some.inj (hfirst.symm.trans hempty)
  · rintro rfl
    exact ⟨-1, table, table, popFirst_of_empty hfirst, popQueue_of_empty hfirst, .refl created table⟩

/-- A new queue is empty. -/
theorem interchangeable_created : ∃ table : QueueTable 10, table.Reachable 1 ∧
    Interchangeable 1 table 0 := by
  obtain ⟨table, hrun, hempty⟩ : ∃ table, (QueueTable.zero 10).newQueue = .ok (10, table) ∧
      table.isEmpty (queueId 10 0) = .ok true := ⟨_, rfl, rfl⟩
  have hreachable := Reachable.newQueue .zero (by decide) hrun
  exact ⟨table, hreachable,
    (interchangeable_iff_isEmpty (by decide) hreachable (by decide)).mpr hempty⟩

/-- Process 3 is removed from the queue that it is alone in. Afterwards it is still the last pid, and a
process that is pushed then cannot be removed. -/
theorem not_interchangeable_three : ∃ table popped popped' : QueueTable 10, table.Reachable 1 ∧
    table.popFirst (queueId 10 0) = .ok (3, popped) ∧
    table.popQueue (queueId 10 0) = .ok (3, popped') ∧
    popped.lastPid (queueId 10 0) = .ok 3 ∧ popped'.lastPid (queueId 10 0) = .ok 10 ∧
    (popped.run [.pushQueue 0 5, .popQueue 0]).map Prod.fst = .ok [5, -1] ∧
    (popped'.run [.pushQueue 0 5, .popQueue 0]).map Prod.fst = .ok [5, 5] ∧
    ¬ Interchangeable 1 table 0 := by
  obtain ⟨created, table, popped, popped', hcreate, hhead, htail, hpush, hempty, hpopFirst, hpopQueue,
      hlast, hlast', hanswers, hanswers'⟩ : ∃ created table popped popped' : QueueTable 10,
      (QueueTable.zero 10).newQueue = .ok (10, created) ∧ created.nextAt 10 = some 11 ∧
      created.nextAt 11 = some (-1) ∧ created.pushQueue (queueId 10 0) 3 = .ok (3, table) ∧
      table.isEmpty (queueId 10 0) = .ok false ∧
      table.popFirst (queueId 10 0) = .ok (3, popped) ∧
      table.popQueue (queueId 10 0) = .ok (3, popped') ∧
      popped.lastPid (queueId 10 0) = .ok 3 ∧ popped'.lastPid (queueId 10 0) = .ok 10 ∧
      (popped.run [.pushQueue 0 5, .popQueue 0]).map Prod.fst = .ok [5, -1] ∧
      (popped'.run [.pushQueue 0 5, .popQueue 0]).map Prod.fst = .ok [5, 5] :=
    ⟨_, _, _, _, rfl, rfl, rfl, rfl, rfl, rfl, rfl, rfl, rfl, rfl, rfl⟩
  have hidle : ¬ Ahead 10 1 created.nextAt 3 := by
    intro hahead
    have hslots : (3 : ℤ) = 10 ∨ (3 : ℤ) = 11 ∨ (3 : ℤ) = -1 := by
      refine hahead.induct (fun slot ⟨index, hindex, hslot⟩ ↦ Or.inl (by omega)) ?_
      rintro slot other (rfl | rfl | rfl) hnext
      · exact Or.inr (Or.inl (Option.some.inj (hnext.symm.trans hhead)))
      · exact Or.inr (Or.inr (Option.some.inj (hnext.symm.trans htail)))
      · cases hnext.symm.trans (nextAt_neg_one created)
    omega
  have hreachable : table.Reachable 1 :=
    .pushQueue (.newQueue .zero (by decide) hcreate) (by decide) ⟨by decide, by decide⟩ hidle hpush
  refine ⟨table, popped, popped', hreachable, hpopFirst, hpopQueue, hlast, hlast', hanswers, hanswers',
    fun hinterchangeable ↦ ?_⟩
  have htrue := (interchangeable_iff_isEmpty (by decide) hreachable (by decide)).mp hinterchangeable
  cases htrue.symm.trans hempty

end PenelopeOS.Proc
