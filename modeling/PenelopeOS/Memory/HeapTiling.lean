import PenelopeOS.Memory.Headers
import PenelopeOS.Memory.HeapRun

/-!
# The heap tiles the usable memory

Along every run the free blocks and the held chunks are a tiling of the memory that the boot map
calls usable. Nothing here depends on the order of the list: `free` may leave it out of order, and
the tiling does not notice.
-/

namespace PenelopeOS.Memory

open Machine Foundation Extent Limine

/-- Whatever is requested, released and written, the list from the head ends in null, its blocks and
the held chunks are granular, lie apart and make up the usable memory, and the list is never empty. -/
theorem heapRun_tiles (layout : Layout) (entries : List MemmapEntry) (hhdm : Word)
    (hblocks : layout.blocks = (usable entries).map (mappedExtent hhdm))
    (hne : usable entries ≠ []) (hcount : (usable entries).length ≤ 19)
    (uninitialised : EntryBuffer) (list : BlockList) :
    ∃ initial, initialiseHeaders hhdm entries uninitialised list = .ok initial ∧
      ∀ moves state, HeapRun layout.getHeadAddress ⟨initial, []⟩ moves state →
        (∀ move ∈ moves, move.2.Fits) →
        ∃ free, FreeSegment state.list.memory state.list.head free 0 ∧
          Tiles bytes (free ++ state.chunks) layout.region ∧
          (∀ extent ∈ free ++ state.chunks,
            16 ∣ extent.base ∧ 16 ∣ extent.length ∧ 0 < extent.length) ∧
          state.list.head ≠ 0 := by
  obtain ⟨initial, hrun, hwellFormed⟩ :=
    initialiseHeaders_spec hblocks hne hcount uninitialised list
  refine ⟨initial, hrun, fun moves state hmoves hfits ↦ ?_⟩
  have hinitial : HeapState.Initial layout ⟨initial, []⟩ := ⟨hwellFormed, rfl⟩
  obtain ⟨arena, harena⟩ := hinitial.represents.run hmoves hfits
  have hlist : layout.blocks ≠ [] := by
    rw [hblocks]
    exact fun hmap ↦ hne (List.map_eq_nil_iff.mp hmap)
  refine ⟨arena.free, harena.wellFormed.chain, harena.tiles, fun extent hextent ↦ ?_, ?_⟩
  · rw [← harena.live] at hextent
    have hgranular := arena.granular extent hextent
    exact ⟨hgranular.base_dvd, hgranular.length_dvd, hgranular.length_pos⟩
  · exact FreeSegment.ne_zero harena.wellFormed.chain (arena.free_ne_nil hlist)
      harena.wellFormed.granular

/-- Two chunks are cut from one page, the first is given back, and a larger one is cut behind it. -/
def requestsAndRelease : List HeapEvent :=
  [.alloc 10, .alloc 10, .free (higherHalf + 0x1010), .write, .alloc 40]

theorem exists_requestsAndRelease : ∃ initial moves state,
    initialiseHeaders higherHalf onePageMap.entries (Vector.replicate 20 ⟨0, 0⟩) ⟨fun _ ↦ 0, 0⟩ =
      .ok initial ∧
    HeapRun onePage.getHeadAddress ⟨initial, []⟩ moves state ∧
      moves.map Prod.snd = requestsAndRelease ∧ (∀ move ∈ moves, move.2.Fits) ∧
      state.live = [higherHalf + 0x1050, higherHalf + 0x1030] := by
  have hcomputed : ((initialiseHeaders higherHalf onePageMap.entries (Vector.replicate 20 ⟨0, 0⟩)
      ⟨fun _ ↦ 0, 0⟩).toOption.any fun initial ↦
        (requestsAndRelease.foldlM (HeapState.apply onePage.getHeadAddress) ⟨initial, []⟩).any
          fun state ↦ state.live = [higherHalf + 0x1050, higherHalf + 0x1030]) = true := by
    decide +kernel
  have hblocks : onePage.blocks = (usable onePageMap.entries).map (mappedExtent higherHalf) := rfl
  obtain ⟨initial, hinitial, -⟩ := initialiseHeaders_spec hblocks (by decide) (by decide)
    (Vector.replicate 20 ⟨0, 0⟩) ⟨fun _ ↦ 0, 0⟩
  rw [hinitial] at hcomputed
  obtain ⟨moves, state, hrun, hevents, hfits, hlive⟩ := exists_heapRun_of_any hcomputed (by decide)
  exact ⟨initial, moves, state, hinitial, hrun, hevents, hfits, of_decide_eq_true hlive⟩

theorem heapRun_tiles_onePage : ∃ initial moves state,
    initialiseHeaders higherHalf onePageMap.entries (Vector.replicate 20 ⟨0, 0⟩) ⟨fun _ ↦ 0, 0⟩ =
      .ok initial ∧
    HeapRun onePage.getHeadAddress ⟨initial, []⟩ moves state ∧
      moves.map Prod.snd = requestsAndRelease ∧
      state.live = [higherHalf + 0x1050, higherHalf + 0x1030] ∧
      ∃ free, FreeSegment state.list.memory state.list.head free 0 ∧
        Tiles bytes (free ++ state.chunks) onePage.region ∧
        (∀ extent ∈ free ++ state.chunks, 16 ∣ extent.base ∧ 16 ∣ extent.length ∧ 0 < extent.length) ∧
        state.list.head ≠ 0 := by
  obtain ⟨initial, moves, state, hinitial, hrun, hevents, hfits, hlive⟩ := exists_requestsAndRelease
  obtain ⟨initial', hinitial', htiles⟩ := heapRun_tiles onePage onePageMap.entries higherHalf rfl
    (by decide) (by decide) (Vector.replicate 20 ⟨0, 0⟩) ⟨fun _ ↦ 0, 0⟩
  obtain rfl := Except.ok.inj (hinitial.symm.trans hinitial')
  exact ⟨initial, moves, state, hinitial, hrun, hevents, hlive, htiles moves state hrun hfits⟩

end PenelopeOS.Memory
