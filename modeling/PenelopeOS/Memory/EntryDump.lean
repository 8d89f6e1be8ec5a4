import Mathlib.Algebra.Order.BigOperators.Group.List
import PenelopeOS.Console.Output
import PenelopeOS.Machine.BitField
import PenelopeOS.Memory.HeaderList
import PenelopeOS.Memory.HeapTiling

/-!
# What `printEntries` shows of the free list

`printEntries` follows the links of the free list and prints a line for every block. In every state of
the heap the walk ends, and the list can be read back from the text. The lengths that are printed and
those of the held chunks make up what `calculateAvailableMemory` counts.
-/

namespace PenelopeOS.Memory

open Console Machine Foundation Extent Limine

/-- The line for one block. -/
def entryLine (index mptr length : Word) : List Item :=
  [.mode .hex, .text (ascii "index :: "), .word index, .text (ascii " :: address :: "), .word mptr,
    .text (ascii " :: length :: "), .word length, .text (ascii " :: number of pages :: "),
    .word (length / 0x1000), .char 10]

/-- The `while` loop of `printEntries`. -/
def printWalk : ℕ → Word → Word → Kostream → BlockList → Except Fault (List (BitVec 8) × Kostream)
  | 0, _, _, _, _ => .error .divergence
  | fuel + 1, mptr, index, out, list =>
    if mptr = 0 then .ok ([], out)
    else do
      let length ← list.readLength mptr
      let (line, out) ← out.write (entryLine index mptr length)
      let mptr ← list.readNext mptr
      let (rest, out) ← printWalk fuel mptr (index + 1) out list
      return (line ++ rest, out)

def printEntries (out : Kostream) (list : BlockList) : Except Fault (List (BitVec 8) × Kostream) :=
  printWalk walkBound list.head 0 out list

/-- The labels of a line. -/
def entryLabels : List (List (BitVec 8)) :=
  [ascii "index :: ", ascii " :: address :: ", ascii " :: length :: ", ascii " :: number of pages :: "]

/-- The numbers in the lines for the blocks, the first of which has the index `start`. -/
def entryRows (start : ℕ) (free : List Extent) : List (List ℕ) :=
  (free.zipIdx start).map fun entry ↦
    [entry.2, entry.1.base, entry.1.length, entry.1.length / 0x1000]

def HeapEvent.isFree : HeapEvent → Bool
  | .free _ => true
  | _ => false

variable {layout : Layout} {arena arena' : Arena layout} {state : HeapState} {event : HeapEvent}
  {list : BlockList} {free : List Extent} {out : Kostream} {mptr : Word} {start fuel : ℕ}

/-! ## The text -/

theorem exists_write_entryLine (out : Kostream) (index mptr length : Word) :
    ∃ line, out.write (entryLine index mptr length) = .ok (line, out.insertMode .hex) ∧
      IsRow (digitOf 16) 16 [13, 10] entryLabels
        [index.toNat, mptr.toNat, length.toNat, length.toNat / 0x1000] line := by
  have hmode : (out.insertMode .hex).mode = .hex := rfl
  have hshows (label : List (BitVec 8)) (hlabel : logText label = label) (i : Word) :
      Field.Shows (out.insertMode .hex) 16 ⟨[.text label], .word i⟩ (label, i.toNat) := by
    refine ⟨?_, printsAs_word_hex hmode i⟩
    change Except.ok (logText label ++ [], _) = _
    rw [List.append_nil, hlabel]
  have hpages : (length / 0x1000).toNat = length.toNat / 0x1000 := BitVec.toNat_udiv
  obtain ⟨line, hwrite, hrow⟩ := exists_write_row
    (.cons (hshows (ascii "index :: ") (by decide) index) <|
      .cons (hshows (ascii " :: address :: ") (by decide) mptr) <|
      .cons (hshows (ascii " :: length :: ") (by decide) length) <|
      .cons (hshows (ascii " :: number of pages :: ") (by decide) (length / 0x1000)) .nil)
    (show (out.insertMode .hex).write [.char 10] = .ok ([13, 10], out.insertMode .hex) from rfl)
  have hput : out.put (.mode .hex) = .ok ([], out.insertMode .hex) := rfl
  rw [← hpages]
  exact ⟨line, Kostream.write_cons hput hwrite, hrow⟩

/-- The walk along the list prints a line for every block. -/
theorem printWalk_spec (hchain : FreeSegment list.memory mptr free 0)
    (hgranular : ∀ block ∈ free, Granular block) (hindex : start + free.length < 2 ^ 64)
    (hfuel : free.length < fuel) (out : Kostream) :
    ∃ text out', printWalk fuel mptr (BitVec.ofNat 64 start) out list = .ok (text, out') ∧
      AreRows (digitOf 16) 16 [13, 10] entryLabels (entryRows start free) text := by
  induction free generalizing mptr start fuel out with
  | nil =>
    obtain ⟨fuel, rfl⟩ : ∃ rounds, fuel = rounds + 1 := ⟨fuel - 1, by omega⟩
    have hnull : mptr = 0 := hchain
    exact ⟨[], out, by rw [printWalk, if_pos hnull], .nil⟩
  | cons block free ih =>
    rw [List.length_cons] at hindex hfuel
    obtain ⟨fuel, rfl⟩ : ∃ rounds, fuel = rounds + 1 := ⟨fuel - 1, by omega⟩
    obtain ⟨hblock, hrest⟩ := Segment.cons_iff.mp hchain
    obtain ⟨hhead, htail⟩ := List.forall_mem_cons.mp hgranular
    have hne := hblock.ne_zero hhead
    obtain ⟨line, hline, hrow⟩ := exists_write_entryLine out (BitVec.ofNat 64 start) mptr
      (lengthOf list.memory mptr)
    obtain ⟨rest, out', hwalk, hrows⟩ := ih hrest htail (show start + 1 + free.length < 2 ^ 64 by omega)
      (show free.length < fuel by omega) (out.insertMode .hex)
    refine ⟨line ++ rest, out', ?_, ?_⟩
    · simp only [printWalk, if_neg hne, BlockList.readLength_of_ne hne, BlockList.readNext_of_ne hne,
        ok_bind, hline, ofNat_add_one, hwalk]
      rfl
    · have hsmall : (BitVec.ofNat 64 start).toNat = start := by
        rw [BitVec.toNat_ofNat]
        omega
      rw [hsmall, hblock.1, hblock.2] at hrow
      exact .cons hrow hrows

theorem delimits_entryLabels :
    ∀ label ∈ entryLabels.tail ++ [[13, 10]], Delimits (digitOf 16) label := by
  simp only [entryLabels, List.tail_cons, List.cons_append, List.nil_append, List.forall_mem_cons]
  exact ⟨⟨32, _, rfl, rfl⟩, ⟨32, _, rfl, rfl⟩, ⟨32, _, rfl, rfl⟩, ⟨13, _, rfl, rfl⟩,
    List.forall_mem_nil _⟩

/-- Every block has room for a header, so there are less than 2^64 of them. -/
theorem WellFormed.length_lt (h : WellFormed list free) : free.length < 2 ^ 64 := by
  set region : Set ℕ := {address | ∃ block ∈ free, address ∈ block.bytes} with hregion
  have htiles : Tiles bytes free region := ⟨h.disjoint, fun _ ↦ Iff.rfl⟩
  have hsubset : region ⊆ Set.Iio (2 ^ 64) := by
    rintro address ⟨block, hblock, -, hlt⟩
    exact hlt.trans_le (h.granular block hblock).stop_le
  have hcard : region.ncard ≤ 2 ^ 64 := by
    have hle := Set.ncard_le_ncard hsubset (Set.finite_Iio _)
    rwa [← Finset.coe_Iio, Set.ncard_coe_finset, Nat.card_Iio] at hle
  have hsum := List.card_nsmul_le_sum (free.map Extent.length) 16 fun size hsize ↦ by
    obtain ⟨block, hblock, rfl⟩ := List.mem_map.mp hsize
    exact (h.granular block hblock).sixteen_le
  rw [htiles.sum_length, List.length_map, nsmul_eq_mul, Nat.cast_id] at hsum
  omega

/-- The text of a well-formed list reads as its blocks. -/
theorem exists_printEntries (h : WellFormed list free) (out : Kostream) :
    ∃ text out', printEntries out list = .ok (text, out') ∧
      readRows (digitOf 16) 16 [13, 10] entryLabels text = some (entryRows 0 free) := by
  have hcount := h.length_lt
  obtain ⟨text, out', hrun, hrows⟩ := printWalk_spec h.chain h.granular
    (show 0 + free.length < 2 ^ 64 by omega) hcount out
  exact ⟨text, out', hrun, hrows.read delimits_entryLabels (by simp)⟩

/-! ## Accounts -/

/-- No step of the arena makes bytes or loses them. -/
theorem Arena.sum_length (arena : Arena layout) :
    (arena.free.map length).sum + (arena.live.map length).sum = (layout.blocks.map length).sum := by
  have hstart : Tiles bytes layout.blocks layout.region := ⟨layout.disjoint, fun _ ↦ Iff.rfl⟩
  rw [hstart.sum_length, ← arena.tiles.sum_length, List.map_append, List.sum_append]

/-- Only a release makes the list longer, and only by one block. -/
theorem ArenaStep.length_le (h : ArenaStep arena event arena') :
    arena'.free.length ≤ arena.free.length + if event.isFree then 1 else 0 := by
  cases h with
  | refuse => exact Nat.le_add_right _ _
  | cut hfree hbefore hpos hsize => simp [Arena.cut, hfree]
  | release hbase hlive hrelease =>
    simp only [Arena.release, HeapEvent.isFree, if_true]
    cases release_cases hrelease with
    | front => simp
    | between before after current hfree => simp [hfree]; omega
    | joined before after current next hfree htouch => simp [hfree]
  | write => exact Nat.le_add_right _ _

theorem exists_arena_of_heapRun {start state : HeapState} {moves : List (HeapState × HeapEvent)}
    {arena : Arena layout} (hrep : Represents start arena)
    (hrun : HeapRun layout.getHeadAddress start moves state) (hfits : ∀ move ∈ moves, move.2.Fits) :
    ∃ arena' : Arena layout, Represents state arena' ∧
      arena'.free.length ≤ arena.free.length + moves.countP fun move ↦ move.2.isFree := by
  induction hrun with
  | nil => exact ⟨arena, hrep, le_rfl⟩
  | @snoc moves state state' event run hstep ih =>
    rw [List.forall_mem_append, List.forall_mem_singleton] at hfits
    obtain ⟨middle, hmiddle, hlength⟩ := ih hfits.1
    obtain ⟨arena', hstep', hrep'⟩ := hmiddle.step hfits.2 hstep
    refine ⟨arena', hrep', ?_⟩
    have hone := hstep'.length_le
    rw [List.countP_append, List.countP_singleton]
    omega

/-- In every state of the heap `printEntries` ends, and its text reads as the free list. The lengths in
it and those of the held chunks add up to the available memory, and it has at most a line for each
usable entry and each release. -/
theorem printEntries_of_heapRun (map : MemoryMap) (layout : Layout) (hhdm : Word)
    (hblocks : layout.blocks = (usable map.entries).map (mappedExtent hhdm))
    (hne : usable map.entries ≠ []) (hcount : (usable map.entries).length ≤ 19)
    (uninitialised : EntryBuffer) (list : BlockList) :
    ∃ initial, initialiseHeaders hhdm map.entries uninitialised list = .ok initial ∧
      ∀ moves state, HeapRun layout.getHeadAddress ⟨initial, []⟩ moves state →
        (∀ move ∈ moves, move.2.Fits) → ∀ out : Kostream,
        ∃ free text out', printEntries out state.list = .ok (text, out') ∧
          readRows (digitOf 16) 16 [13, 10] entryLabels text = some (entryRows 0 free) ∧
          FreeSegment state.list.memory state.list.head free 0 ∧
          (free.map length).sum + (state.chunks.map length).sum =
            (calculateAvailableMemory map.entries).toNat ∧
          free.length ≤ (usable map.entries).length + moves.countP fun move ↦ move.2.isFree := by
  obtain ⟨initial, hrun, hwellFormed⟩ :=
    initialiseHeaders_spec hblocks hne hcount uninitialised list
  refine ⟨initial, hrun, fun moves state hmoves hfits out ↦ ?_⟩
  have hinitial : HeapState.Initial layout ⟨initial, []⟩ := ⟨hwellFormed, rfl⟩
  obtain ⟨arena, hrep, hlength⟩ := exists_arena_of_heapRun hinitial.represents hmoves hfits
  obtain ⟨text, out', hprint, hread⟩ := exists_printEntries hrep.wellFormed out
  refine ⟨arena.free, text, out', hprint, hread, hrep.wellFormed.chain, ?_, ?_⟩
  · rw [← hrep.live, arena.sum_length, hblocks, List.map_map, ← sum_length_eq]
    rfl
  · have hstart : (Arena.start layout).free.length = (usable map.entries).length := by
      change layout.blocks.length = _
      rw [hblocks, List.length_map]
    rwa [hstart] at hlength

theorem printEntries_of_heapRun_onePage : ∃ initial moves state,
    initialiseHeaders higherHalf onePageMap.entries (Vector.replicate 20 ⟨0, 0⟩) ⟨fun _ ↦ 0, 0⟩ =
      .ok initial ∧
    HeapRun onePage.getHeadAddress ⟨initial, []⟩ moves state ∧
      moves.map Prod.snd = requestsAndRelease ∧ ∀ out : Kostream,
      ∃ free text out', printEntries out state.list = .ok (text, out') ∧
        readRows (digitOf 16) 16 [13, 10] entryLabels text = some (entryRows 0 free) ∧
        FreeSegment state.list.memory state.list.head free 0 ∧
        (free.map length).sum + (state.chunks.map length).sum = 0x1000 ∧
        free.length ≤ 1 + moves.countP fun move ↦ move.2.isFree := by
  obtain ⟨initial, moves, state, hinitial, hrun, hevents, hfits, -⟩ := exists_requestsAndRelease
  obtain ⟨initial', hinitial', hprints⟩ := printEntries_of_heapRun onePageMap onePage higherHalf rfl
    (by decide) (by decide) (Vector.replicate 20 ⟨0, 0⟩) ⟨fun _ ↦ 0, 0⟩
  obtain rfl := Except.ok.inj (hinitial.symm.trans hinitial')
  exact ⟨initial, moves, state, hinitial, hrun, hevents, hprints moves state hrun hfits⟩

end PenelopeOS.Memory
