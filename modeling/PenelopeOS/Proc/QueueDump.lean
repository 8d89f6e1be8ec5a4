import PenelopeOS.Console.Output
import PenelopeOS.Proc.InsertBounds
import PenelopeOS.Proc.PopFirst

/-!
# What `printQueue` shows of a queue

`printQueue` follows the successors from the head of a queue up to a slot that has none, and prints
the slots it comes by. The walk ends in every state of the table, also where `popFirst` has left stale
links behind, and as long as `popFirst` is not used the text reads as the queue.
-/

namespace PenelopeOS.Proc

open Console Machine Foundation

variable {NPROC : ℕ}

/-- The line for an empty queue. -/
def emptyLine (q : BitVec 16) : List Item :=
  [.text (ascii "queue with head "), .short q, .text (ascii " and tail "), .short (q + 1),
    .text (ascii " is empty"), .char 10]

def linkItems (curr : ℤ) : List Item := [.text (ascii " "), .int (BitVec.ofInt 32 curr), .char 32]

namespace QueueTable

variable (table : QueueTable NPROC)

/-- The `while` loop of `printQueue` and the statement after it. -/
def printLinks : ℕ → ℤ → Kostream → Except Fault (List (BitVec 8) × Kostream)
  | 0, _, _ => .error .divergence
  | fuel + 1, curr, out => do
    if (← table.read curr).next ≠ -1 then
      let (link, out) ← out.write (linkItems curr)
      let (rest, out) ← printLinks fuel (← table.read curr).next out
      return (link ++ rest, out)
    else out.write (linkItems curr)

/-- The walk never writes, so after more steps than there are slots it goes in circles. -/
def printQueue (q : BitVec 16) (out : Kostream) : Except Fault (List (BitVec 8) × Kostream) := do
  if (q.toNat : ℤ) < 0 then return ([], out)
  else
    let (warning, out) ← if ← table.isEmpty q then out.write (emptyLine q) else pure ([], out)
    let (links, out) ← table.printLinks (NPROC + 5) (head q) out
    return (warning ++ links, out)

end QueueTable

/-! ## The text -/

variable {table : QueueTable NPROC} {out : Kostream} {slots : List ℤ} {slot first : ℤ}
  {q : BitVec 16} {index created fuel : ℕ}

def emptyLabels : List (List (BitVec 8)) := [ascii "queue with head ", ascii " and tail "]

def emptyMark : List (BitVec 8) := ascii " is empty" ++ [13, 10]

theorem exists_write_linkItems (hslot : 0 ≤ slot ∧ slot < 2 ^ 31) (out : Kostream) :
    ∃ link, out.write (linkItems slot) = .ok (link, out) ∧
      IsRow (digitOf 10) 10 [32] [[32]] [slot.toNat] link := by
  have hvalue : (BitVec.ofInt 32 slot).toInt = slot.toNat := by
    rw [BitVec.toInt_ofInt, Int.bmod_eq_of_le (by omega) (by omega), Int.toNat_of_nonneg hslot.1]
  have hshows : Field.Shows out 10 ⟨[.text (ascii " ")], .int (BitVec.ofInt 32 slot)⟩
      ([32], slot.toNat) := ⟨rfl, printsAs_int out hvalue⟩
  exact exists_write_row (.cons hshows .nil) (show out.write [.char 32] = .ok ([32], out) from rfl)

theorem exists_write_emptyLine (q : BitVec 16) (out : Kostream) :
    ∃ line, out.write (emptyLine q) = .ok (line, out) ∧
      readRow (digitOf out.mode.base) out.mode.base emptyMark emptyLabels line =
        some ([q.toNat, (q + 1).toNat], []) := by
  have hshows (label : List (BitVec 8)) (hlabel : logText label = label) (i : BitVec 16) :
      Field.Shows out out.mode.base ⟨[.text label], .short i⟩ (label, i.toNat) := by
    refine ⟨?_, printsAs_number out (by decide) i⟩
    change Except.ok (logText label ++ [], _) = _
    rw [List.append_nil, hlabel]
  obtain ⟨line, hwrite, hrow⟩ := exists_write_row
    (.cons (hshows (ascii "queue with head ") (by decide) q) <|
      .cons (hshows (ascii " and tail ") (by decide) (q + 1)) .nil)
    (show out.write [.text (ascii " is empty"), .char 10] = .ok (emptyMark, out) from rfl)
  refine ⟨line, hwrite, ?_⟩
  have hspace : digitOf out.mode.base 32 = none := by
    cases out.mode <;> rfl
  have hread := readRow_append hrow (fun label hlabel ↦ ?_) []
  · rwa [List.append_nil] at hread
  · simp only [List.map_cons, List.map_nil, List.tail_cons, List.cons_append, List.nil_append,
      List.mem_cons, List.not_mem_nil, or_false] at hlabel
    rcases hlabel with rfl | rfl
    · exact ⟨32, _, rfl, hspace⟩
    · exact ⟨32, _, rfl, hspace⟩

/-- The text names the head and the tail in front if the queue is empty, and then it lists the slots. -/
def ShowsSlots (out : Kostream) (q : BitVec 16) (empty : Prop) (slots : List ℤ)
    (text : List (BitVec 8)) : Prop :=
  ∃ warning links, text = warning ++ links ∧
    readRows (digitOf 10) 10 [32] [[32]] links = some (slots.map fun slot ↦ [slot.toNat]) ∧
    (empty → readRow (digitOf out.mode.base) out.mode.base emptyMark emptyLabels warning =
      some ([q.toNat, (q + 1).toNat], [])) ∧
    (¬ empty → warning = [])

namespace QueueTable

/-- The slots are those from the head of the queue up to the one that has no successor. -/
def IsQueueChain (table : QueueTable NPROC) (q : BitVec 16) (slots : List ℤ) : Prop :=
  ∃ rest, slots = head q :: rest ∧
    (head q :: rest).IsChain (fun slot next ↦ table.nextAt slot = some next) ∧
    table.nextAt ((head q :: rest).getLast (List.cons_ne_nil _ _)) = some (-1)

/-- The walk along a chain that ends prints the slots of the chain. -/
theorem printLinks_spec (hchain : (slot :: slots).IsChain fun slot next ↦ table.nextAt slot = some next)
    (hlast : table.nextAt ((slot :: slots).getLast (List.cons_ne_nil _ _)) = some (-1))
    (hslots : ∀ other ∈ slot :: slots, 0 ≤ other ∧ other < 2 ^ 31) (hfuel : slots.length < fuel)
    (out : Kostream) :
    ∃ text, table.printLinks fuel slot out = .ok (text, out) ∧
      AreRows (digitOf 10) 10 [32] [[32]] ((slot :: slots).map fun slot ↦ [slot.toNat]) text := by
  induction slots generalizing slot fuel with
  | nil =>
    obtain ⟨fuel, rfl⟩ : ∃ rounds, fuel = rounds + 1 := ⟨fuel - 1, by omega⟩
    obtain ⟨node, hread, hnext⟩ := exists_read_next hlast
    obtain ⟨link, hwrite, hrow⟩ := exists_write_linkItems (hslots slot List.mem_cons_self) out
    refine ⟨link ++ [], ?_, .cons hrow .nil⟩
    rw [List.getLast_singleton] at hread
    rw [List.append_nil, printLinks, hread, ok_bind, if_neg (not_not.mpr hnext), hwrite]
  | cons next slots ih =>
    rw [List.length_cons] at hfuel
    obtain ⟨fuel, rfl⟩ : ∃ rounds, fuel = rounds + 1 := ⟨fuel - 1, by omega⟩
    obtain ⟨hlink, hrest⟩ := List.isChain_cons_cons.mp hchain
    obtain ⟨node, hread, rfl⟩ := exists_read_next hlink
    have htail : ∀ other ∈ node.next :: slots, 0 ≤ other ∧ other < 2 ^ 31 :=
      fun other hother ↦ hslots other (List.mem_cons_of_mem _ hother)
    have hne : node.next ≠ -1 := by
      have := htail node.next List.mem_cons_self
      omega
    obtain ⟨link, hwrite, hrow⟩ := exists_write_linkItems (hslots slot List.mem_cons_self) out
    rw [List.getLast_cons (List.cons_ne_nil _ _)] at hlast
    obtain ⟨text, hwalk, hrows⟩ := ih hrest hlast htail (show slots.length < fuel by omega)
    refine ⟨link ++ text, ?_, .cons hrow hrows⟩
    simp only [printLinks, hread, ok_bind, if_pos hne, hwrite, hwalk]
    rfl

/-- Where the head starts a chain that ends, the text reads as that chain. -/
theorem exists_printQueue (hchain : IsQueueChain table q slots)
    (hslots : ∀ slot ∈ slots, 0 ≤ slot ∧ slot < 2 ^ 31) (hlength : slots.length < NPROC + 5)
    (out : Kostream) : ∃ text, table.printQueue q out = .ok (text, out) ∧
      ShowsSlots out q (table.nextAt (head q) = some (tail q)) slots text := by
  obtain ⟨rest, rfl, hchain, hlast⟩ := hchain
  obtain ⟨links, hwalk, hrows⟩ := printLinks_spec hchain hlast hslots
    (show rest.length < NPROC + 5 from (Nat.lt_succ_self _).trans hlength) out
  have hread := hrows.read (fun label hlabel ↦ ⟨32, [], List.mem_singleton.mp hlabel, rfl⟩)
    (List.cons_ne_nil _ _)
  have hunsigned : ¬ (q.toNat : ℤ) < 0 := Int.not_lt.mpr (Int.natCast_nonneg _)
  obtain ⟨first, hfirst⟩ : ∃ first, table.nextAt (head q) = some first := by
    cases rest with
    | nil => exact ⟨-1, hlast⟩
    | cons first rest => exact ⟨first, (List.isChain_cons_cons.mp hchain).1⟩
  by_cases hempty : first = tail q
  · obtain ⟨warning, hwrite, hwarning⟩ := exists_write_emptyLine q out
    refine ⟨warning ++ links, ?_, warning, links, rfl, hread, fun _ ↦ hwarning, fun hne ↦ ?_⟩
    · simp only [printQueue, if_neg hunsigned, isEmpty_eq hfirst, ok_bind, hempty, decide_true, if_true,
        hwrite, hwalk]
      rfl
    · exact absurd (hempty ▸ hfirst) hne
  · refine ⟨links, ?_, [], links, rfl, hread, fun heq ↦ ?_, fun _ ↦ rfl⟩
    · simp only [printQueue, if_neg hunsigned, isEmpty_eq hfirst, ok_bind, hempty, decide_false,
        Bool.false_eq_true, if_false, pure, Except.pure, hwalk]
      rfl
    · exact absurd (Option.some.inj (hfirst.symm.trans heq)) hempty

/-- There are not more distinct slots than `_buf` has. -/
theorem length_le_of_isSlot (hnodup : slots.Nodup) (hslots : ∀ slot ∈ slots, IsSlot NPROC slot) :
    slots.length ≤ NPROC + 4 := by
  have hsubset : slots ⊆ (List.range (NPROC + 4)).map Nat.cast := by
    intro slot hmem
    obtain ⟨hlow, hhigh⟩ := hslots slot hmem
    exact List.mem_map.mpr ⟨slot.toNat, List.mem_range.mpr (by omega), by omega⟩
  have hlength := hnodup.length_le_of_subset hsubset
  rwa [List.length_map, List.length_range] at hlength

end QueueTable

/-! ## Runs with both kinds of removals -/

section Chains

variable {waiting : Set ℤ} {next prev : ℤ → Option ℤ}

/-- From a waiting process the successors lead over other ones, none of them twice, to a tail. The
ranks of the waiting processes on the way fall. -/
theorem Chained.exists_chain (h : Chained NPROC created waiting next prev) (hslot : slot ∈ waiting) :
    ∃ slots, (slot :: slots).IsChain (fun slot successor ↦ next slot = some successor) ∧
      next ((slot :: slots).getLast (List.cons_ne_nil _ _)) = some (-1) ∧ (slot :: slots).Nodup ∧
      ∀ other ∈ slot :: slots, other ∈ waiting ∨ IsTail NPROC created other := by
  obtain ⟨rank, hrank⟩ := h.ranked
  obtain ⟨slots, hchain, hlast, hnodup, hslots, -⟩ : ∃ slots,
      (slot :: slots).IsChain (fun slot successor ↦ next slot = some successor) ∧
      next ((slot :: slots).getLast (List.cons_ne_nil _ _)) = some (-1) ∧ (slot :: slots).Nodup ∧
      (∀ other ∈ slot :: slots, other ∈ waiting ∨ IsTail NPROC created other) ∧
      ∀ other ∈ slot :: slots, other ∈ waiting → rank other ≤ rank slot := by
    induction hcount : rank slot using Nat.strong_induction_on generalizing slot with
    | _ count ih =>
      obtain ⟨successor, hnext, -, hcases⟩ := h.linked slot hslot
      rcases hcases with hmem | htail
      · have hfalls := hrank slot hslot successor hmem hnext
        obtain ⟨slots, hchain, hlast, hnodup, hslots, hranks⟩ := ih _ (hcount ▸ hfalls) hmem rfl
        refine ⟨successor :: slots, .cons_cons hnext hchain, ?_, List.nodup_cons.mpr ⟨?_, hnodup⟩,
          List.forall_mem_cons.mpr ⟨Or.inl hslot, hslots⟩, List.forall_mem_cons.mpr ⟨?_, ?_⟩⟩
        · rwa [List.getLast_cons (List.cons_ne_nil _ _)]
        · exact fun hagain ↦ absurd (hranks slot hagain hslot) (Nat.not_le.mpr hfalls)
        · exact fun _ ↦ hcount.le
        · exact fun other hother hwaiting ↦
            (hranks other hother hwaiting).trans (hcount ▸ hfalls.le)
      · have hne : slot ≠ successor := by
          rintro rfl
          exact (h.isPid slot hslot).not_isTail htail
        refine ⟨[successor], .cons_cons hnext (.singleton _), h.next_tail successor htail, ?_, ?_, ?_⟩
        · exact List.nodup_cons.mpr ⟨fun hmem ↦ hne (List.mem_singleton.mp hmem),
            List.nodup_singleton _⟩
        · exact List.forall_mem_cons.mpr ⟨Or.inl hslot, List.forall_mem_singleton.mpr (Or.inr htail)⟩
        · refine List.forall_mem_cons.mpr ⟨fun _ ↦ hcount.le, List.forall_mem_singleton.mpr ?_⟩
          exact fun hwaiting ↦ absurd htail (h.isPid successor hwaiting).not_isTail
  exact ⟨slots, hchain, hlast, hnodup, hslots⟩

end Chains

/-- In every state that is reached, `printQueue` ends without leaving `_buf`, and its text reads as the
slots that the successors lead over. None of them is listed twice. -/
theorem printQueue_of_reachable (hNPROC : NPROC + 4 ≤ 2 ^ 16) (h : table.Reachable created)
    (hindex : index < created) (out : Kostream) :
    ∃ slots text, table.printQueue (queueId NPROC index) out = .ok (text, out) ∧
      table.IsQueueChain (queueId NPROC index) slots ∧ slots.Nodup ∧
      ShowsSlots out (queueId NPROC index) (table.isEmpty (queueId NPROC index) = .ok true) slots
        text := by
  obtain ⟨hcreated, -, waiting, hchained⟩ := h.kept hNPROC
  have hhead := QueueTable.isHead_head hNPROC hindex hcreated
  obtain ⟨first, hfirst, hcases⟩ := hchained.next_head _ hhead
  obtain ⟨rest, hchain, hlast, hnodup, hslots⟩ : ∃ rest,
      (head (queueId NPROC index) :: rest).IsChain
        (fun slot successor ↦ table.nextAt slot = some successor) ∧
      table.nextAt ((head (queueId NPROC index) :: rest).getLast (List.cons_ne_nil _ _)) = some (-1) ∧
      rest.Nodup ∧ ∀ slot ∈ rest, slot ∈ waiting ∨ IsTail NPROC created slot := by
    rcases hcases with hmem | htail | rfl
    · obtain ⟨slots, hchain, hlast, hnodup, hslots⟩ := hchained.exists_chain hmem
      refine ⟨first :: slots, .cons_cons hfirst hchain, ?_, hnodup, hslots⟩
      rwa [List.getLast_cons (List.cons_ne_nil _ _)]
    · exact ⟨[first], .cons_cons hfirst (.singleton _), hchained.next_tail first htail,
        List.nodup_singleton _, List.forall_mem_singleton.mpr (Or.inr htail)⟩
    · exact ⟨[], .singleton _, hfirst, List.nodup_nil, List.forall_mem_nil _⟩
  have hnotMem : head (queueId NPROC index) ∉ rest := by
    intro hmem
    rcases hslots _ hmem with hwaiting | htail
    · exact (hchained.isPid _ hwaiting).not_isHead hhead
    · exact htail.not_isHead hhead
  have hnodup' := List.nodup_cons.mpr ⟨hnotMem, hnodup⟩
  have hisSlot : ∀ slot ∈ head (queueId NPROC index) :: rest, QueueTable.IsSlot NPROC slot := by
    refine List.forall_mem_cons.mpr ⟨QueueTable.isSlot_of_nextAt hfirst, fun slot hmem ↦ ?_⟩
    rcases hslots slot hmem with hwaiting | ⟨other, hother, rfl⟩
    · obtain ⟨hlow, hhigh⟩ := hchained.isPid slot hwaiting
      exact ⟨hlow, by omega⟩
    · constructor <;> omega
  have hlength := QueueTable.length_le_of_isSlot hnodup' hisSlot
  have hprintable : ∀ slot ∈ head (queueId NPROC index) :: rest, 0 ≤ slot ∧ slot < 2 ^ 31 := by
    intro slot hmem
    obtain ⟨hlow, hhigh⟩ := hisSlot slot hmem
    exact ⟨hlow, by omega⟩
  obtain ⟨text, hrun, hshows⟩ := QueueTable.exists_printQueue ⟨rest, rfl, hchain, hlast⟩ hprintable
    (by omega) out
  refine ⟨_, text, hrun, ⟨rest, rfl, hchain, hlast⟩, hnodup', ?_⟩
  have hempty : table.nextAt (head (queueId NPROC index)) = some (tail (queueId NPROC index)) ↔
      table.isEmpty (queueId NPROC index) = .ok true := by
    rw [QueueTable.isEmpty_eq hfirst, hfirst, Option.some.injEq, Except.ok.injEq, decide_eq_true_eq]
  rwa [← propext hempty]

/-- A new queue. -/
theorem printQueue_of_reachable_created : ∃ table : QueueTable 10, table.Reachable 1 ∧
    ∃ slots text, table.printQueue (queueId 10 0) ⟨.dec⟩ = .ok (text, ⟨.dec⟩) ∧
      table.IsQueueChain (queueId 10 0) slots ∧ slots.Nodup ∧
      ShowsSlots ⟨.dec⟩ (queueId 10 0) (table.isEmpty (queueId 10 0) = .ok true) slots text := by
  obtain ⟨table, hrun⟩ : ∃ table, (QueueTable.zero 10).newQueue = .ok (10, table) := ⟨_, rfl⟩
  have hreachable := QueueTable.Reachable.newQueue .zero (by decide) hrun
  exact ⟨table, hreachable, printQueue_of_reachable (by decide) hreachable (by decide) _⟩

/-! ## Runs of the queues -/

/-- As long as no element is removed with `popFirst`, `printQueue` shows the head of the queue, the
processes in the order in which they will be removed, and the tail. -/
theorem printQueue_of_tableRun (hNPROC : NPROC + 4 ≤ 2 ^ 16)
    {moves : List (TableState NPROC × TableEvent)} {state : TableState NPROC}
    (run : TableRun moves state) (hindex : index < state.fifo.created) (out : Kostream) :
    ∃ text, state.table.printQueue (queueId NPROC index) out = .ok (text, out) ∧
      ShowsSlots out (queueId NPROC index) (state.fifo.queue index = []) (state.fifo.slots index)
        text := by
  obtain ⟨hrepresents, hunkeyed⟩ := valid_of_tableRun hNPROC run
  have hlinked := hrepresents.linked index hindex
  have htwo := hindex.trans_le state.fifo.created_le
  have hlast : state.table.nextAt ((head (queueId NPROC index) :: (state.fifo.queue index ++
      [tail (queueId NPROC index)])).getLast (List.cons_ne_nil _ _)) = some (-1) := by
    rw [List.getLast_cons (by simp), List.getLast_append_singleton]
    exact hunkeyed.next_tail index hindex
  have hslots : ∀ slot ∈ state.fifo.slots index, 0 ≤ slot ∧ slot < 2 ^ 31 := by
    intro slot hmem
    have hhead := head_queueId hNPROC htwo
    have htail := tail_queueId hNPROC htwo
    simp only [Fifo.slots, List.cons_append, List.mem_cons, List.mem_append, List.not_mem_nil,
      or_false] at hmem
    rcases hmem with rfl | hmem | rfl
    · omega
    · have := state.fifo.isPid index slot hmem
      omega
    · omega
  have hlength : (state.fifo.slots index).length < NPROC + 5 := by
    have := QueueTable.length_queue_le state.fifo index
    simp only [Fifo.slots, List.length_append, List.length_cons, List.length_nil]
    omega
  obtain ⟨text, hrun, hshows⟩ := QueueTable.exists_printQueue
    (q := queueId NPROC index) ⟨_, List.cons_append, hlinked.forward, hlast⟩ hslots hlength out
  have hempty : state.table.nextAt (head (queueId NPROC index)) = some (tail (queueId NPROC index)) ↔
      state.fifo.queue index = [] := by
    have hisEmpty := hrepresents.isEmpty_eq hNPROC hindex
    rw [QueueTable.isEmpty_eq (next_head hlinked), Except.ok.injEq] at hisEmpty
    rw [next_head hlinked, Option.some.injEq, ← List.isEmpty_iff, ← hisEmpty, decide_eq_true_eq]
  exact ⟨text, hrun, propext hempty ▸ hshows⟩

/-- Processes 3 and 5 wait, and 7 was removed. -/
theorem printQueue_of_tableRun_three : ∃ moves, ∃ state : TableState 10, TableRun moves state ∧
    state.fifo.queue 0 = [3, 5] ∧ ∃ text, state.table.printQueue 10 ⟨.hex⟩ = .ok (text, ⟨.hex⟩) ∧
      ShowsSlots ⟨.hex⟩ 10 False [10, 3, 5, 11] text := by
  obtain ⟨fifo, hfifo, hcreated, hqueue⟩ : ∃ fifo, (Fifo.empty 10).run [.newQueue, .pushQueue 0 7,
      .pushQueue 0 3, .popQueue 0, .pushQueue 0 5] = some ([10, 7, 3, 7, 5], fifo) ∧
      fifo.created = 1 ∧ fifo.queue 0 = [3, 5] := ⟨_, rfl, rfl, rfl⟩
  obtain ⟨moves, table, hrun, -⟩ := QueueTable.Represents.zero.exists_tableRun (by decide) hfifo
  have hindex : 0 < fifo.created := hcreated.symm ▸ Nat.one_pos
  obtain ⟨text, hprint, hshows⟩ := printQueue_of_tableRun (by decide) hrun hindex ⟨.hex⟩
  refine ⟨moves, _, hrun, hqueue, text, hprint, ?_⟩
  rw [Fifo.slots, hqueue, eq_false (List.cons_ne_nil _ _)] at hshows
  exact hshows

end PenelopeOS.Proc
