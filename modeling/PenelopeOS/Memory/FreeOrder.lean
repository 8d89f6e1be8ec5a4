import PenelopeOS.Memory.Headers
import PenelopeOS.Memory.HeapRun

/-!
# Whether `free` keeps the list in order

The first pair of blocks is tested for the chunk between them, every later pair for both of them at
or above the chunk. A chunk with two free blocks below it is therefore put one block too far up, and
when there is only one free block above it the walk reads through null.
-/

namespace PenelopeOS.Memory

open Machine Foundation Extent

/-- The release completes and leaves what was free and the chunk, in address order. -/
def CompletesInOrder (getHeadAddress base : Word) (list : BlockList) (free : List Extent) : Prop :=
  ∃ list' free', Memory.free getHeadAddress base list = .ok list' ∧ WellFormed list' free' ∧
    Ascending free' ∧ ∀ address, (∃ block ∈ free', address ∈ block.bytes) ↔
      (∃ block ∈ free, address ∈ block.bytes) ∨ address ∈ (chunkAt list.memory base).bytes

variable {layout : Layout} {start state state' : HeapState} {arena arena' : Arena layout}
  {base : Word} {event : HeapEvent} {moves : List (HeapState × HeapEvent)}

theorem completesInOrder_iff (h : Represents state arena) (hlive : base ∈ state.live) :
    CompletesInOrder layout.getHeadAddress base state.list arena.free ↔
      Ascending arena.free ∧ below (chunkAt state.list.memory base) arena.free ≤ 1 := by
  have hmem := h.mem_live hlive
  rw [← exists_release_ascending_iff (arena.clear hmem) arena.apart (arena.above_pos hmem)]
  calc
    _ ↔ _ := h.exists_free_iff hlive _
    _ ↔ ∃ free', release (chunkAt state.list.memory base) arena.free = some free' ∧
        Ascending free' :=
      exists_congr fun free' ↦ and_congr_right fun hrelease ↦
        and_iff_left (release_cases hrelease).mem_bytes_iff

/-- A step of the arena keeps the order when at most one free block lies below what it releases. -/
theorem ArenaStep.ascending (hstep : ArenaStep arena event arena') (hascending : Ascending arena.free)
    (hbelow : ∀ base chunk, event = .free base → (base - blockSize).toNat = chunk.base →
      below chunk arena.free ≤ 1) : Ascending arena'.free := by
  cases hstep with
  | refuse => exact hascending
  | cut hfree hbefore hpos hsize =>
    have hapart := arena.apart
    rw [hfree] at hascending hapart
    exact ascending_upper hascending hapart hsize
  | release hbase hlive hrelease =>
    have hmem := hlive.mem_iff.mpr List.mem_cons_self
    obtain ⟨free', hsome, hascending'⟩ := (exists_release_ascending_iff (arena.clear hmem)
      arena.apart (arena.above_pos hmem)).mpr ⟨hascending, hbelow _ _ rfl hbase⟩
    obtain rfl := Option.some.inj (hrelease.symm.trans hsome)
    exact hascending'
  | write => exact hascending

/-- The size of a request survives the rounding, and a chunk that is released has at most one free block
below it. -/
def KeepsOrder (state : HeapState) (event : HeapEvent) : Prop :=
  event.Fits ∧ ∀ base free, event = .free base → WellFormed state.list free →
    below (chunkAt state.list.memory base) free ≤ 1

theorem HeapStep.ascending (hascending : Ascending arena.free) (h : Represents state arena)
    (hkeeps : KeepsOrder state event) (hstep : HeapStep layout.getHeadAddress state event state') :
    ∃ arena' : Arena layout, Represents state' arena' ∧ Ascending arena'.free := by
  obtain ⟨arena', harenaStep, harena'⟩ := h.step hkeeps.1 hstep
  refine ⟨arena', harena', harenaStep.ascending hascending fun base chunk hevent hbase ↦ ?_⟩
  have hbelow := hkeeps.2 base arena.free hevent h.wellFormed
  simpa only [below, chunkAt, hbase] using hbelow

/-- After steps that keep the order the list is in order, and the release of a held pointer completes in
order exactly when at most one free block lies below the chunk. Along a run whose requests survive the
rounding all releases complete in order exactly when none of them has two free blocks below it, and the
release of a pointer that is held at the end exactly when the list is in order then and at most one
free block lies below the chunk. -/
theorem completesInOrder_iff_of_heapRun (hinitial : start.Initial layout)
    (hrun : HeapRun layout.getHeadAddress start moves state) :
    ((∀ move ∈ moves, KeepsOrder move.1 move.2) →
      ∀ free, WellFormed state.list free → Ascending free ∧
        ∀ base ∈ state.live, (CompletesInOrder layout.getHeadAddress base state.list free ↔
          below (chunkAt state.list.memory base) free ≤ 1)) ∧
    ((∀ move ∈ moves, move.2.Fits) →
      (∀ free, WellFormed state.list free → ∀ base ∈ state.live,
        (CompletesInOrder layout.getHeadAddress base state.list free ↔
          Ascending free ∧ below (chunkAt state.list.memory base) free ≤ 1)) ∧
      ((∀ move ∈ moves, ∀ base free, move.2 = .free base → WellFormed move.1.list free →
          CompletesInOrder layout.getHeadAddress base move.1.list free) ↔
        ∀ move ∈ moves, KeepsOrder move.1 move.2)) := by
  set inv : HeapState → Prop := fun state ↦
    ∃ arena : Arena layout, Represents state arena ∧ Ascending arena.free
  have hstart : inv start := ⟨_, hinitial.represents, layout.ascending⟩
  have hstep (state : HeapState) (event : HeapEvent) (state' : HeapState) (hinv : inv state)
      (hkeeps : KeepsOrder state event) (hstep : HeapStep layout.getHeadAddress state event state') :
      inv state' := by
    obtain ⟨arena, harena, hascending⟩ := hinv
    exact hstep.ascending hascending harena hkeeps
  refine ⟨fun hkeeps free hfree ↦ ?_, fun hfits ↦ ⟨fun free hfree base hlive ↦ ?_, ?_⟩⟩
  · obtain ⟨arena, harena, hascending⟩ := hrun.invariant inv KeepsOrder hstart hstep hkeeps
    obtain rfl := harena.wellFormed.unique hfree
    refine ⟨hascending, fun base hlive ↦ ?_⟩
    rw [completesInOrder_iff harena hlive]
    exact and_iff_right hascending
  · obtain ⟨arena, harena⟩ := hinitial.represents.run hrun hfits
    obtain rfl := harena.wellFormed.unique hfree
    exact completesInOrder_iff harena hlive
  · have hiff := hrun.forall_iff inv (fun state event ↦ event.Fits ∧ ∀ base free,
      event = .free base → WellFormed state.list free →
        CompletesInOrder layout.getHeadAddress base state.list free) KeepsOrder hstart hstep ?_
    · rw [← hiff]
      exact forall₂_congr fun move hmove ↦ (and_iff_right (hfits move hmove)).symm
    · rintro state event state' ⟨arena, harena, hascending⟩ hmove
      refine and_congr_right fun _ ↦ forall_congr' fun base ↦ forall_congr' fun free ↦
        forall_congr' fun hevent ↦ forall_congr' fun hfree ↦ ?_
      subst hevent
      obtain rfl := harena.wellFormed.unique hfree
      cases hmove with
      | free hlive _ =>
        rw [completesInOrder_iff harena hlive]
        exact and_iff_right hascending

/-- Four chunks are cut from one page, and the third and the first are released. -/
def thirdAndFirstReleased : List HeapEvent :=
  [.alloc 10, .alloc 10, .alloc 10, .alloc 10, .free (higherHalf + 0x1050),
    .free (higherHalf + 0x1010)]

/-- Releasing the fourth chunk as well reads through null: two free blocks lie below it, one above. -/
theorem not_completesInOrder_fourth : HeapState.Initial onePage ⟨onePageList, []⟩ ∧
    ¬ ∀ moves state, HeapRun onePage.getHeadAddress ⟨onePageList, []⟩ moves state →
      (∀ move ∈ moves, move.2.Fits) → ∀ free, WellFormed state.list free →
      ∀ base ∈ state.live, CompletesInOrder onePage.getHeadAddress base state.list free := by
  have hinitial : HeapState.Initial onePage ⟨onePageList, []⟩ := ⟨wellFormed_onePageList, rfl⟩
  have hfault : (thirdAndFirstReleased.foldlM (HeapState.apply onePage.getHeadAddress)
      ⟨onePageList, []⟩).any (fun state ↦ higherHalf + 0x1070 ∈ state.live ∧
        faultOf (Memory.free onePage.getHeadAddress (higherHalf + 0x1070) state.list) =
          some .nullDereference) := by decide +kernel
  refine ⟨hinitial, fun hclaim ↦ ?_⟩
  obtain ⟨moves, state, hrun, -, hfits, hcheck⟩ := exists_heapRun_of_any hfault (by decide)
  obtain ⟨hlive, hnull⟩ := of_decide_eq_true hcheck
  obtain ⟨arena, harena⟩ := hinitial.represents.run hrun hfits
  obtain ⟨list', free', hok, -⟩ := hclaim moves state hrun hfits _ harena.wellFormed _ hlive
  rw [hok] at hnull
  cases hnull

theorem completesInOrder_iff_of_heapRun_third :
    ∃ moves state, HeapRun onePage.getHeadAddress ⟨onePageList, []⟩ moves state ∧
      moves.map Prod.snd = thirdAndFirstReleased ∧
      ((∀ move ∈ moves, ∀ base free, move.2 = .free base → WellFormed move.1.list free →
          CompletesInOrder onePage.getHeadAddress base move.1.list free) ↔
        ∀ move ∈ moves, KeepsOrder move.1 move.2) ∧
      ∀ free, WellFormed state.list free → ∀ base ∈ state.live,
        (CompletesInOrder onePage.getHeadAddress base state.list free ↔
          Ascending free ∧ below (chunkAt state.list.memory base) free ≤ 1) := by
  have hcomputed : (thirdAndFirstReleased.foldlM
      (HeapState.apply onePage.getHeadAddress) ⟨onePageList, []⟩).any fun _ ↦ true := by
    decide +kernel
  obtain ⟨moves, state, hrun, hevents, hfits, -⟩ := exists_heapRun_of_any hcomputed (by decide)
  obtain ⟨hlive, hreleases⟩ :=
    (completesInOrder_iff_of_heapRun ⟨wellFormed_onePageList, rfl⟩ hrun).2 hfits
  exact ⟨moves, state, hrun, hevents, hreleases, hlive⟩

end PenelopeOS.Memory
