import Mathlib.Data.Set.Insert
import PenelopeOS.Proc.Fifo

/-!
# Forward chains

`popFirst` repairs no back link, so after it the table need not represent queues any more, and a chain
may even end at the tail of another queue. What every operation keeps is stated along the forward
chains: a waiting process is linked both ways with its successor, no two slots lead to the same
process, and ranks that fall from process to process keep the chains from going in circles.
-/

namespace PenelopeOS.Proc

open Machine QueueTable

/-- The slot that is reached from `start` in the given number of steps. -/
def follow (link : ℤ → Option ℤ) (start : ℤ) : ℕ → Option ℤ
  | 0 => some start
  | steps + 1 => (follow link start steps).bind link

theorem follow_succ {link : ℤ → Option ℤ} {start slot : ℤ} {steps : ℕ}
    (h : follow link start steps = some slot) : follow link start (steps + 1) = link slot := by
  rw [follow, h, Option.bind_some]

variable (NPROC created : ℕ)

def IsPid (slot : ℤ) : Prop := 0 ≤ slot ∧ slot < NPROC

/-- The slot is the head of a queue. -/
def IsHead (slot : ℤ) : Prop := ∃ index : ℕ, index < created ∧ slot = NPROC + 2 * index

/-- The slot is the tail of a queue. -/
def IsTail (slot : ℤ) : Prop := ∃ index : ℕ, index < created ∧ slot = NPROC + 2 * index + 1

/-- The slot is on the forward chain of a queue. -/
def Ahead (next : ℤ → Option ℤ) (slot : ℤ) : Prop :=
  ∃ start, IsHead NPROC created start ∧ ∃ steps, follow next start steps = some slot

/-- The processes of a set that holds those of all forward chains are linked one behind the other. A
head leads to a process, to a tail, or to no slot once a tail was taken for a process. -/
structure Chained (waiting : Set ℤ) (next prev : ℤ → Option ℤ) : Prop where
  isPid : ∀ slot ∈ waiting, IsPid NPROC slot
  next_none : next (-1) = none
  next_tail : ∀ slot, IsTail NPROC created slot → next slot = some (-1)
  next_head : ∀ slot, IsHead NPROC created slot → ∃ first, next slot = some first ∧
    (first ∈ waiting ∨ IsTail NPROC created first ∨ first = -1)
  prev_tail : ∀ slot, IsTail NPROC created slot → ∃ last, prev slot = some last ∧
    (IsPid NPROC last ∨ IsHead NPROC created last)
  linked : ∀ slot ∈ waiting, ∃ successor, next slot = some successor ∧ prev successor = some slot ∧
    (successor ∈ waiting ∨ IsTail NPROC created successor)
  injective : ∀ slot other successor, slot ∈ waiting ∨ IsHead NPROC created slot →
    other ∈ waiting ∨ IsHead NPROC created other → next slot = some successor →
    next other = some successor → successor ∈ waiting → slot = other
  ranked : ∃ rank : ℤ → ℕ, ∀ slot ∈ waiting, ∀ successor ∈ waiting, next slot = some successor →
    rank successor < rank slot

variable {NPROC created} {waiting : Set ℤ} {next next' prev prev' : ℤ → Option ℤ}
  {slot other first second start proc oldlast : ℤ}

namespace Ahead

theorem head (h : IsHead NPROC created slot) : Ahead NPROC created next slot := ⟨slot, h, 0, rfl⟩

theorem step (h : Ahead NPROC created next slot) (hnext : next slot = some other) :
    Ahead NPROC created next other := by
  obtain ⟨start, hstart, steps, hsteps⟩ := h
  exact ⟨start, hstart, steps + 1, (follow_succ hsteps).trans hnext⟩

/-- What holds of the heads and passes from a slot to its successor holds along the chains. -/
@[elab_as_elim]
theorem induct {motive : ℤ → Prop} (h : Ahead NPROC created next slot)
    (hhead : ∀ slot, IsHead NPROC created slot → motive slot)
    (hstep : ∀ slot other, motive slot → next slot = some other → motive other) : motive slot := by
  obtain ⟨start, hstart, steps, hsteps⟩ := h
  induction steps generalizing slot with
  | zero => exact Option.some.inj hsteps ▸ hhead start hstart
  | succ steps ih =>
    obtain ⟨before, hbefore, hnext⟩ := Option.bind_eq_some_iff.mp hsteps
    exact hstep before slot (ih hbefore) hnext

end Ahead

theorem IsPid.not_isHead (h : IsPid NPROC slot) : ¬ IsHead NPROC created slot := by
  rintro ⟨index, -, hslot⟩
  have := h.2
  omega

theorem IsPid.not_isTail (h : IsPid NPROC slot) : ¬ IsTail NPROC created slot := by
  rintro ⟨index, -, hslot⟩
  have := h.2
  omega

theorem IsTail.not_isHead (h : IsTail NPROC created slot) : ¬ IsHead NPROC created slot := by
  rintro ⟨other, -, hother⟩
  obtain ⟨index, -, hslot⟩ := h
  omega

theorem isHead_succ_iff : IsHead NPROC (created + 1) slot ↔
    IsHead NPROC created slot ∨ slot = NPROC + 2 * created :=
  Nat.exists_lt_succ_right

theorem isTail_succ_iff : IsTail NPROC (created + 1) slot ↔
    IsTail NPROC created slot ∨ slot = NPROC + 2 * created + 1 :=
  Nat.exists_lt_succ_right

/-! ## Links after a push -/

def pushNext (next : ℤ → Option ℤ) (oldlast proc tail : ℤ) : ℤ → Option ℤ :=
  assign (assign next oldlast proc) proc tail

def pushPrev (prev : ℤ → Option ℤ) (oldlast proc tail : ℤ) : ℤ → Option ℤ :=
  assign (assign prev proc oldlast) tail proc

theorem pushNext_proc {tail : ℤ} : pushNext next oldlast proc tail proc = some tail :=
  assign_same _ _ _

theorem pushNext_oldlast {tail : ℤ} (h : oldlast ≠ proc) :
    pushNext next oldlast proc tail oldlast = some proc :=
  (assign_of_ne h).trans (assign_same _ _ _)

theorem pushNext_of_ne {tail : ℤ} (hproc : slot ≠ proc) (hold : slot ≠ oldlast) :
    pushNext next oldlast proc tail slot = next slot :=
  (assign_of_ne hproc).trans (assign_of_ne hold)

/-! ## What calls do to the chains -/

/-- Before the first queue there is nothing to link. -/
theorem chained_zero (hnext : next (-1) = none) : Chained NPROC 0 ∅ next prev where
  isPid _ hslot := hslot.elim
  next_none := hnext
  next_tail _ := fun ⟨_, hindex, _⟩ ↦ absurd hindex (Nat.not_lt_zero _)
  next_head _ := fun ⟨_, hindex, _⟩ ↦ absurd hindex (Nat.not_lt_zero _)
  prev_tail _ := fun ⟨_, hindex, _⟩ ↦ absurd hindex (Nat.not_lt_zero _)
  linked _ hslot := hslot.elim
  injective _ _ _ _ _ _ _ hmem := hmem.elim
  ranked := ⟨fun _ ↦ 0, fun _ hslot ↦ hslot.elim⟩

namespace Chained

variable (h : Chained NPROC created waiting next prev)

include h

theorem linked_of_next (hslot : slot ∈ waiting) (hnext : next slot = some other) :
    prev other = some slot ∧ (other ∈ waiting ∨ IsTail NPROC created other) := by
  obtain ⟨successor, hsuccessor, hlinked⟩ := h.linked slot hslot
  rwa [Option.some.inj (hnext.symm.trans hsuccessor)]

theorem ne_of_next (hslot : slot ∈ waiting) (hnext : next slot = some other) : other ≠ slot := by
  rintro rfl
  obtain ⟨rank, hrank⟩ := h.ranked
  exact Nat.lt_irrefl _ (hrank other hslot other hslot hnext)

/-- What follows a head or a waiting process. -/
theorem mem_of_next (hslot : slot ∈ waiting ∨ IsHead NPROC created slot)
    (hnext : next slot = some other) : other ∈ waiting ∨ IsTail NPROC created other ∨ other = -1 := by
  rcases hslot with hwaiting | hhead
  · exact (h.linked_of_next hwaiting hnext).2.imp_right Or.inl
  · obtain ⟨first, hfirst, hcases⟩ := h.next_head slot hhead
    rwa [Option.some.inj (hnext.symm.trans hfirst)]

/-- The processes that are on no chain need not be counted as waiting. -/
theorem restrict :
    Chained NPROC created {slot ∈ waiting | Ahead NPROC created next slot} next prev where
  isPid slot hslot := h.isPid slot hslot.1
  next_none := h.next_none
  next_tail := h.next_tail
  next_head slot hslot := by
    obtain ⟨first, hfirst, hcases⟩ := h.next_head slot hslot
    exact ⟨first, hfirst, hcases.imp_left fun hmem ↦ ⟨hmem, (Ahead.head hslot).step hfirst⟩⟩
  prev_tail := h.prev_tail
  linked slot hslot := by
    obtain ⟨successor, hnext, hprev, hcases⟩ := h.linked slot hslot.1
    exact ⟨successor, hnext, hprev, hcases.imp_left fun hmem ↦ ⟨hmem, hslot.2.step hnext⟩⟩
  injective slot other successor hslot hother hnext hnext' hmem :=
    h.injective slot other successor (hslot.imp_left And.left) (hother.imp_left And.left) hnext hnext'
      hmem.1
  ranked := by
    obtain ⟨rank, hrank⟩ := h.ranked
    exact ⟨rank, fun slot hslot successor hmem ↦ hrank slot hslot.1 successor hmem.1⟩

section Push

variable {tail : ℤ} (htail : IsTail NPROC created tail) (hpid : IsPid NPROC proc)
  (hidle : proc ∉ waiting)

theorem last_cases (htail : IsTail NPROC created tail) (hlast : prev tail = some oldlast) :
    IsPid NPROC oldlast ∨ IsHead NPROC created oldlast := by
  obtain ⟨last, hprev, hcases⟩ := h.prev_tail tail htail
  exact Option.some.inj (hlast.symm.trans hprev) ▸ hcases

include htail hpid

/-- The process leads to the tail and not to a process. -/
theorem ne_proc_of_push (hother : other ∈ insert proc waiting)
    (hnext : pushNext next oldlast proc tail slot = some other) : slot ≠ proc := by
  rintro rfl
  rw [pushNext_proc] at hnext
  have hotherPid := Set.forall_mem_insert.mpr ⟨hpid, h.isPid⟩ other hother
  exact hotherPid.not_isTail (Option.some.inj hnext ▸ htail)

include hidle

/-- A process comes behind the old last slot now, or it came behind the same slot before. -/
theorem cases_of_push (hslot : slot ∈ insert proc waiting ∨ IsHead NPROC created slot)
    (hother : other ∈ insert proc waiting)
    (hnext : pushNext next oldlast proc tail slot = some other) :
    slot = oldlast ∧ other = proc ∨
      (slot ∈ waiting ∨ IsHead NPROC created slot) ∧ next slot = some other ∧ other ∈ waiting := by
  have hproc := h.ne_proc_of_push htail hpid hother hnext
  by_cases hslotOld : slot = oldlast
  · rw [hslotOld, pushNext_oldlast (hslotOld ▸ hproc)] at hnext
    exact Or.inl ⟨hslotOld, (Option.some.inj hnext).symm⟩
  rw [pushNext_of_ne hproc hslotOld] at hnext
  have hsource := hslot.imp_left fun hslot ↦ hslot.resolve_left hproc
  refine Or.inr ⟨hsource, hnext, hother.resolve_left ?_⟩
  rintro rfl
  rcases h.mem_of_next hsource hnext with hwaiting | hend | rfl
  · exact hidle hwaiting
  · exact hpid.not_isTail hend
  · exact absurd hpid.1 (by decide)

/-- The new process gets the lowest rank. -/
theorem ranked_push : ∃ rank : ℤ → ℕ, ∀ slot ∈ insert proc waiting, ∀ successor ∈ insert proc waiting,
    pushNext next oldlast proc tail slot = some successor → rank successor < rank slot := by
  obtain ⟨rank, hrank⟩ := h.ranked
  refine ⟨fun slot ↦ if slot = proc then 0 else rank slot + 1, fun slot hslot successor hmem hnext ↦ ?_⟩
  have hproc := h.ne_proc_of_push htail hpid hmem hnext
  simp only [if_neg hproc]
  rcases h.cases_of_push htail hpid hidle (Or.inl hslot) hmem hnext with
    ⟨-, rfl⟩ | ⟨-, hnext, hmem⟩
  · rw [if_pos rfl]
    exact Nat.succ_pos _
  · rw [if_neg (ne_of_mem_of_not_mem hmem hidle)]
    exact Nat.succ_lt_succ (hrank slot (hslot.resolve_left hproc) successor hmem hnext)

/-- A waiting process and its successor stay linked, unless the process is put in between them. -/
theorem linked_push (hlast : prev tail = some oldlast) (hslot : slot ∈ insert proc waiting) :
    ∃ successor, pushNext next oldlast proc tail slot = some successor ∧
      pushPrev prev oldlast proc tail successor = some slot ∧
      (successor ∈ insert proc waiting ∨ IsTail NPROC created successor) := by
  have hne : proc ≠ tail := fun heq ↦ hpid.not_isTail (heq ▸ htail)
  by_cases hproc : slot = proc
  · exact ⟨tail, hproc ▸ pushNext_proc, hproc ▸ assign_same _ _ _, Or.inr htail⟩
  by_cases hslotOld : slot = oldlast
  · refine ⟨proc, hslotOld ▸ pushNext_oldlast (hslotOld ▸ hproc), ?_, Or.inl (Set.mem_insert _ _)⟩
    rw [pushPrev, assign_of_ne hne, assign_same, hslotOld]
  obtain ⟨successor, hnext, hprev, hcases⟩ := h.linked slot (hslot.resolve_left hproc)
  refine ⟨successor, (pushNext_of_ne hproc hslotOld).trans hnext, ?_,
    hcases.imp_left (Set.mem_insert_of_mem _)⟩
  -- the tail came behind the old last slot only, and nothing came before the process
  rw [pushPrev, assign_of_ne, assign_of_ne, hprev]
  · rintro rfl
    exact hcases.elim hidle hpid.not_isTail
  · rintro rfl
    exact hslotOld (Option.some.inj (hprev.symm.trans hlast))

/-- A push links a process in between the tail and its predecessor, wherever that one is. -/
theorem push (hlast : prev tail = some oldlast) :
    Chained NPROC created (insert proc waiting) (pushNext next oldlast proc tail)
      (pushPrev prev oldlast proc tail) := by
  have hcases := h.last_cases htail hlast
  refine ⟨Set.forall_mem_insert.mpr ⟨hpid, h.isPid⟩, ?_, fun slot hslot ↦ ?_, fun slot hslot ↦ ?_,
    fun slot hslot ↦ ?_, fun slot hslot ↦ h.linked_push htail hpid hidle hlast hslot,
    fun slot other successor hslot hother hnext hnext' hmem ↦ ?_, h.ranked_push htail hpid hidle⟩
  · rw [pushNext_of_ne, h.next_none]
    · rintro rfl
      exact absurd hpid.1 (by decide)
    · rintro rfl
      rcases hcases with hcases | ⟨index, -, hindex⟩
      · exact absurd hcases.1 (by decide)
      · omega
  · rw [pushNext_of_ne, h.next_tail slot hslot]
    · rintro rfl
      exact hpid.not_isTail hslot
    · rintro rfl
      rcases hcases with hcases | hcases
      · exact hcases.not_isTail hslot
      · exact hslot.not_isHead hcases
  · have hproc : slot ≠ proc := fun heq ↦ hpid.not_isHead (heq ▸ hslot)
    by_cases hslotOld : slot = oldlast
    · exact ⟨proc, hslotOld ▸ pushNext_oldlast (hslotOld ▸ hproc), Or.inl (Set.mem_insert _ _)⟩
    · rw [pushNext_of_ne hproc hslotOld]
      obtain ⟨first, hfirst, hcases⟩ := h.next_head slot hslot
      exact ⟨first, hfirst, hcases.imp_left (Set.mem_insert_of_mem _)⟩
  · by_cases heq : slot = tail
    · exact ⟨proc, heq ▸ assign_same _ _ _, Or.inl hpid⟩
    · rw [pushPrev, assign_of_ne heq, assign_of_ne fun heq ↦ hpid.not_isTail (heq ▸ hslot)]
      exact h.prev_tail slot hslot
  · rcases h.cases_of_push htail hpid hidle hslot hmem hnext with ⟨rfl, rfl⟩ | ⟨hslot, hnext, hmem⟩
    · rcases h.cases_of_push htail hpid hidle hother hmem hnext' with ⟨rfl, -⟩ | ⟨-, -, hwaiting⟩
      · rfl
      · exact absurd hwaiting hidle
    · rcases h.cases_of_push htail hpid hidle hother (Set.mem_insert_of_mem _ hmem) hnext' with
        ⟨-, hproc⟩ | ⟨hother, hnext', -⟩
      · exact absurd (hproc ▸ hmem) hidle
      · exact h.injective slot other successor hslot hother hnext hnext' hmem

end Push

section Pop

variable {head : ℤ} (hhead : IsHead NPROC created head) (hfirst : next head = some first)
  (hfirstMem : first ∈ waiting)

theorem ne_head_of_mem (hhead : IsHead NPROC created head) (hslot : slot ∈ waiting) : slot ≠ head := by
  rintro rfl
  exact (h.isPid slot hslot).not_isHead hhead

include hhead hfirst hfirstMem

/-- Only the head leads to the first process. -/
theorem next_ne_first (hslot : slot ∈ waiting ∨ IsHead NPROC created slot) (hne : slot ≠ head) :
    next slot ≠ some first := by
  intro hnext
  exact hne (h.injective slot head first hslot (Or.inr hhead) hnext hfirst hfirstMem)

variable (hsecond : next first = some second) (hnextHead : next' head = some second)
  (hnext : ∀ slot, slot ≠ head → slot ≠ first → next' slot = next slot)

include hsecond hnextHead hnext

omit hhead hfirst hsecond in
/-- The head leads to the second slot now, and every other slot to the same one as before. -/
theorem cases_of_pop (hslot : slot ∈ waiting \ {first} ∨ IsHead NPROC created slot)
    (hlink : next' slot = some other) :
    slot = head ∧ other = second ∨
      (slot ∈ waiting ∨ IsHead NPROC created slot) ∧ slot ≠ first ∧ next slot = some other := by
  by_cases hslotHead : slot = head
  · rw [hslotHead, hnextHead] at hlink
    exact Or.inl ⟨hslotHead, (Option.some.inj hlink).symm⟩
  have hslotFirst : slot ≠ first := by
    rintro rfl
    exact hslot.elim (fun hslot ↦ hslot.2 rfl) (h.isPid slot hfirstMem).not_isHead
  rw [hnext slot hslotHead hslotFirst] at hlink
  exact Or.inr ⟨hslot.imp_left And.left, hslotFirst, hlink⟩

omit hhead hfirst in
theorem injective_pop {successor : ℤ} (hslot : slot ∈ waiting \ {first} ∨ IsHead NPROC created slot)
    (hother : other ∈ waiting \ {first} ∨ IsHead NPROC created other)
    (hlink : next' slot = some successor) (hlink' : next' other = some successor)
    (hmem : successor ∈ waiting) : slot = other := by
  rcases h.cases_of_pop hfirstMem hnextHead hnext hslot hlink with
    ⟨hslotHead, rfl⟩ | ⟨hsource, hslotFirst, hlink⟩
  · rcases h.cases_of_pop hfirstMem hnextHead hnext hother hlink' with
      ⟨hotherHead, -⟩ | ⟨hsource, hotherFirst, hlink'⟩
    · rw [hslotHead, hotherHead]
    · exact absurd (h.injective other first _ hsource (Or.inl hfirstMem) hlink' hsecond hmem) hotherFirst
  · rcases h.cases_of_pop hfirstMem hnextHead hnext hother hlink' with
      ⟨-, rfl⟩ | ⟨hsource', -, hlink'⟩
    · exact absurd (h.injective slot first _ hsource (Or.inl hfirstMem) hlink hsecond hmem) hslotFirst
    · exact h.injective slot other successor hsource hsource' hlink hlink' hmem

/-- The first process of a chain is passed over. Whether the slot behind it points back to the head
does not matter, and neither do the links of that process. -/
theorem pop (hprev : ∀ slot, slot ≠ first → slot ≠ second → prev' slot = prev slot)
    (hprevSecond : prev' second = prev second ∨ prev' second = some head) :
    Chained NPROC created (waiting \ {first}) next' prev' := by
  have hfirstPid := h.isPid first hfirstMem
  obtain ⟨hback, hcases⟩ := h.linked_of_next hfirstMem hsecond
  have hrest : ∀ slot, slot ∈ waiting ∨ IsTail NPROC created slot → slot ≠ first →
      slot ∈ waiting \ {first} ∨ IsTail NPROC created slot :=
    fun slot hslot hslotFirst ↦ hslot.imp_left fun hslot ↦ ⟨hslot, hslotFirst⟩
  refine ⟨fun slot hslot ↦ h.isPid slot hslot.1, ?_, fun slot hslot ↦ ?_, fun slot hslot ↦ ?_,
    fun slot hslot ↦ ?_, fun slot hslot ↦ ?_, fun slot other successor hslot hother hlink hlink' hmem ↦
      h.injective_pop hfirstMem hsecond hnextHead hnext hslot hother hlink hlink' hmem.1, ?_⟩
  · rw [hnext, h.next_none]
    · rintro rfl
      obtain ⟨index, -, hindex⟩ := hhead
      omega
    · rintro rfl
      exact absurd hfirstPid.1 (by decide)
  · rw [hnext, h.next_tail slot hslot]
    · rintro rfl
      exact hslot.not_isHead hhead
    · rintro rfl
      exact hfirstPid.not_isTail hslot
  · by_cases hslotHead : slot = head
    · have hsecondCases := hrest second hcases (h.ne_of_next hfirstMem hsecond)
      exact ⟨second, hslotHead ▸ hnextHead, hsecondCases.imp_right Or.inl⟩
    obtain ⟨other, hother, hcases⟩ := h.next_head slot hslot
    refine ⟨other, ?_, hcases.imp_left fun hwaiting ↦ ⟨hwaiting, ?_⟩⟩
    · rwa [hnext slot hslotHead fun heq ↦ hfirstPid.not_isHead (heq ▸ hslot)]
    · rintro rfl
      exact h.next_ne_first hhead hfirst hfirstMem (Or.inr hslot) hslotHead hother
  · by_cases hslotSecond : slot = second
    · subst hslotSecond
      rcases hprevSecond with heq | heq
      · exact ⟨first, heq.trans hback, Or.inl hfirstPid⟩
      · exact ⟨head, heq, Or.inr hhead⟩
    · rw [hprev slot (fun heq ↦ hfirstPid.not_isTail (heq ▸ hslot)) hslotSecond]
      exact h.prev_tail slot hslot
  · obtain ⟨hslot, hslotFirst⟩ := hslot
    obtain ⟨successor, hsuccessor, hprevSuccessor, hcases⟩ := h.linked slot hslot
    have hslotHead := h.ne_head_of_mem hhead hslot
    have hsuccessorFirst : successor ≠ first := by
      rintro rfl
      exact h.next_ne_first hhead hfirst hfirstMem (Or.inl hslot) hslotHead hsuccessor
    refine ⟨successor, (hnext slot hslotHead hslotFirst).trans hsuccessor, ?_,
      hrest successor hcases hsuccessorFirst⟩
    rw [hprev successor hsuccessorFirst, hprevSuccessor]
    rintro rfl
    exact hslotFirst (Option.some.inj (hprevSuccessor.symm.trans hback))
  · obtain ⟨rank, hrank⟩ := h.ranked
    refine ⟨rank, fun slot hslot successor hmem hlink ↦ hrank slot hslot.1 successor hmem.1 ?_⟩
    rwa [hnext slot (h.ne_head_of_mem hhead hslot.1) hslot.2] at hlink

end Pop

/-- A head may lead nowhere. -/
theorem skip {head : ℤ} (hhead : IsHead NPROC created head) :
    Chained NPROC created waiting (assign next head (-1)) prev := by
  have hsource : ∀ slot, ∀ successor ∈ waiting, assign next head (-1) slot = some successor →
      next slot = some successor := by
    intro slot successor hmem hlink
    rwa [assign_of_ne] at hlink
    rintro rfl
    rw [assign_same] at hlink
    exact absurd (h.isPid successor hmem).1 (Option.some.inj hlink ▸ by decide)
  refine ⟨h.isPid, ?_, fun slot hslot ↦ ?_, fun slot hslot ↦ ?_, h.prev_tail, fun slot hslot ↦ ?_,
    fun slot other successor hslot hother hlink hlink' hmem ↦ ?_, ?_⟩
  · rw [assign_of_ne, h.next_none]
    obtain ⟨index, -, hindex⟩ := hhead
    omega
  · rw [assign_of_ne, h.next_tail slot hslot]
    rintro rfl
    exact hslot.not_isHead hhead
  · by_cases heq : slot = head
    · exact ⟨-1, heq ▸ assign_same _ _ _, Or.inr (Or.inr rfl)⟩
    · rw [assign_of_ne heq]
      exact h.next_head slot hslot
  · rw [assign_of_ne (h.ne_head_of_mem hhead hslot)]
    exact h.linked slot hslot
  · exact h.injective slot other successor hslot hother (hsource slot successor hmem hlink)
      (hsource other successor hmem hlink') hmem
  · obtain ⟨rank, hrank⟩ := h.ranked
    exact ⟨rank, fun slot hslot successor hmem hlink ↦
      hrank slot hslot successor hmem (hsource slot successor hmem hlink)⟩

section Create

variable {head tail : ℤ} (hhead : head = NPROC + 2 * created) (htail : tail = head + 1)

omit h in
include hhead htail in
theorem ne_new (hslot : IsPid NPROC slot ∨ IsHead NPROC created slot ∨ IsTail NPROC created slot) :
    slot ≠ head ∧ slot ≠ tail := by
  rcases hslot with hpid | ⟨index, hindex, hslot⟩ | ⟨index, hindex, hslot⟩
  · have := hpid.2
    omega
  · omega
  · omega

omit h in
theorem createNext_of_ne (hslot : slot ≠ head ∧ slot ≠ tail) :
    assign (assign next head tail) tail (-1) slot = next slot :=
  (assign_of_ne hslot.2).trans (assign_of_ne hslot.1)

omit h in
theorem createPrev_of_ne (hslot : slot ≠ head ∧ slot ≠ tail) :
    assign (assign prev head (-1)) tail head slot = prev slot :=
  (assign_of_ne hslot.2).trans (assign_of_ne hslot.1)

include hhead htail

/-- Nothing that waits comes behind the new head. -/
theorem source_of_create (hslot : slot ∈ waiting ∨ IsHead NPROC (created + 1) slot)
    (hother : other ∈ waiting) (hlink : assign (assign next head tail) tail (-1) slot = some other) :
    (slot ∈ waiting ∨ IsHead NPROC created slot) ∧ next slot = some other := by
  rcases hslot.imp_right isHead_succ_iff.mp with hslot | hslot | hslot
  · have hne := ne_new hhead htail (Or.inl (h.isPid slot hslot))
    exact ⟨Or.inl hslot, by rwa [createNext_of_ne hne] at hlink⟩
  · have hne := ne_new hhead htail (Or.inr (Or.inl hslot))
    exact ⟨Or.inr hslot, by rwa [createNext_of_ne hne] at hlink⟩
  · rw [hslot, ← hhead, assign_of_ne (by omega), assign_same] at hlink
    exact absurd (Option.some.inj hlink).symm (ne_new hhead htail (Or.inl (h.isPid _ hother))).2

/-- A new queue is behind the others and empty. -/
theorem create : Chained NPROC (created + 1) waiting (assign (assign next head tail) tail (-1))
    (assign (assign prev head (-1)) tail head) := by
  have hnewHead : IsHead NPROC (created + 1) head := isHead_succ_iff.mpr (Or.inr hhead)
  have hnewTail : IsTail NPROC (created + 1) tail := isTail_succ_iff.mpr (Or.inr (by omega))
  refine ⟨h.isPid, ?_, fun slot hslot ↦ ?_, fun slot hslot ↦ ?_, fun slot hslot ↦ ?_,
    fun slot hslot ↦ ?_, fun slot other successor hslot hother hlink hlink' hmem ↦ ?_, ?_⟩
  · rw [createNext_of_ne (by omega), h.next_none]
  · rcases isTail_succ_iff.mp hslot with hslot | hslot
    · rw [createNext_of_ne (ne_new hhead htail (Or.inr (Or.inr hslot))), h.next_tail slot hslot]
    · rw [show slot = tail by omega, assign_same]
  · rcases isHead_succ_iff.mp hslot with hslot | hslot
    · rw [createNext_of_ne (ne_new hhead htail (Or.inr (Or.inl hslot)))]
      obtain ⟨first, hfirst, hcases⟩ := h.next_head slot hslot
      exact ⟨first, hfirst, hcases.imp_right (Or.imp_left fun hend ↦ isTail_succ_iff.mpr (Or.inl hend))⟩
    · refine ⟨tail, ?_, Or.inr (Or.inl hnewTail)⟩
      rw [hslot, ← hhead, assign_of_ne (by omega), assign_same]
  · rcases isTail_succ_iff.mp hslot with hslot | hslot
    · rw [createPrev_of_ne (ne_new hhead htail (Or.inr (Or.inr hslot)))]
      obtain ⟨last, hlast, hcases⟩ := h.prev_tail slot hslot
      exact ⟨last, hlast, hcases.imp_right fun hstart ↦ isHead_succ_iff.mpr (Or.inl hstart)⟩
    · rw [show slot = tail by omega, assign_same]
      exact ⟨head, rfl, Or.inr hnewHead⟩
  · obtain ⟨successor, hlink, hback, hcases⟩ := h.linked slot hslot
    have hsuccessor := ne_new hhead htail (hcases.imp (h.isPid successor) Or.inr)
    refine ⟨successor, ?_, ?_, hcases.imp_right fun hend ↦ isTail_succ_iff.mpr (Or.inl hend)⟩
    · rw [createNext_of_ne (ne_new hhead htail (Or.inl (h.isPid slot hslot))), hlink]
    · rw [createPrev_of_ne hsuccessor, hback]
  · obtain ⟨hslot, hlink⟩ := h.source_of_create hhead htail hslot hmem hlink
    obtain ⟨hother, hlink'⟩ := h.source_of_create hhead htail hother hmem hlink'
    exact h.injective slot other successor hslot hother hlink hlink' hmem
  · obtain ⟨rank, hrank⟩ := h.ranked
    exact ⟨rank, fun slot hslot successor hmem hlink ↦
      hrank slot hslot successor hmem (h.source_of_create hhead htail (Or.inl hslot) hmem hlink).2⟩

end Create

/-- Whoever goes back along the chain behind a waiting process comes to the slot behind it, also when
links of these two slots have changed. -/
theorem exists_follow_prev (hfirst : first ∈ waiting) (hsecond : next first = some second)
    (hprev : ∀ slot, slot ≠ first → slot ≠ second → prev' slot = prev slot) :
    ∃ tail, IsTail NPROC created tail ∧ ∃ steps, follow prev tail steps = some second ∧
      follow prev' tail steps = some second := by
  obtain ⟨rank, hrank⟩ := h.ranked
  obtain ⟨hback, hcases⟩ := h.linked_of_next hfirst hsecond
  have hbehind : ∀ slot ∈ waiting, rank slot < rank first → ∃ tail, IsTail NPROC created tail ∧
      ∃ steps, follow prev tail steps = some slot ∧ follow prev' tail steps = some slot := by
    intro slot hslot hlow
    induction hbound : rank slot using Nat.strong_induction_on generalizing slot with
    | _ bound ih =>
      obtain ⟨successor, hnext, hlink, hcases⟩ := h.linked slot hslot
      have hsuccessorSecond : successor ≠ second := by
        rintro rfl
        have heq := Option.some.inj (hlink.symm.trans hback)
        rw [heq] at hlow
        exact Nat.lt_irrefl _ hlow
      have hsuccessorFirst : successor ≠ first := by
        rintro rfl
        rcases hcases with hmem | htail
        · exact Nat.lt_asymm hlow (hrank slot hslot _ hmem hnext)
        · exact (h.isPid _ hfirst).not_isTail htail
      have hlink' := (hprev successor hsuccessorFirst hsuccessorSecond).trans hlink
      rcases hcases with hmem | htail
      · have hless := hrank slot hslot successor hmem hnext
        obtain ⟨tail, htail, steps, hsteps, hsteps'⟩ :=
          ih (rank successor) (hbound ▸ hless) successor hmem (hless.trans hlow) rfl
        exact ⟨tail, htail, steps + 1, (follow_succ hsteps).trans hlink,
          (follow_succ hsteps').trans hlink'⟩
      · exact ⟨successor, htail, 1, (follow_succ rfl).trans hlink, (follow_succ rfl).trans hlink'⟩
  rcases hcases with hmem | htail
  · exact hbehind second hmem (hrank first hfirst second hmem hsecond)
  · exact ⟨second, htail, 0, rfl, rfl⟩

end Chained

end PenelopeOS.Proc
