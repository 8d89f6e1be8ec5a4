import PenelopeOS.Memory.Headers
import PenelopeOS.Memory.HeapRun

/-!
# Whether a chunk holds what was asked for

A request below sixteen bytes is padded by a header before it is rounded to the nearest granule, and
a larger one is only rounded. The chunk has room for the header and the request just when the request
is from eight to fifteen bytes: below that the rounding goes down, above it the header is not counted,
and near the top of the range the sum wraps and nothing is cut at all.
-/

namespace PenelopeOS.Memory

open Machine Foundation Extent

/-- The chunk cut for a request holds its header and all the bytes requested. -/
def Adequate (nbytes : Word) (list : BlockList) : Prop :=
  ∀ base list', allocHeap nbytes list = .ok (base, list') → base ≠ allocFailed →
    16 + nbytes.toNat ≤ (lengthOf list'.memory (base - blockSize)).toNat ∧
      base.toNat + nbytes.toNat < 2 ^ 64

/-- A client that writes only the bytes it requested changes no free block and no other chunk. -/
def Harmless (nbytes : Word) (state : HeapState) : Prop :=
  ∀ base list', allocHeap nbytes state.list = .ok (base, list') → base ≠ allocFailed →
    ∀ memory', AgreeOutside [⟨base.toNat, nbytes.toNat⟩] list'.memory memory' →
      ∀ free, WellFormed list' free → ∀ extent ∈ free ++ state.live.map (chunkAt list'.memory),
        ∀ location : Word, location.toNat ∈ extent.bytes →
          memory' location = list'.memory location

variable {layout : Layout} {start state : HeapState} {arena : Arena layout} {list : BlockList}
  {free : List Extent} {nbytes : Word} {moves : List (HeapState × HeapEvent)}

theorem le_chunkSize_iff {request : ℕ} (hpos : 0 < request) :
    16 + request ≤ chunkSize request ↔ 8 ≤ request ∧ request ≤ 15 := by
  unfold chunkSize
  split_ifs <;> omega

theorem not_adequate_of_wrap (hwrap : 2 ^ 64 ≤ nbytes.toNat + 8) {base : Word} {list' : BlockList}
    (hrun : allocHeap nbytes list = .ok (base, list')) (hfailed : base ≠ allocFailed) :
    ¬ Adequate nbytes list := by
  intro hadequate
  have hroom := (hadequate base list' hrun hfailed).1
  have hlt := (lengthOf list'.memory (base - blockSize)).isLt
  omega

theorem adequate_iff (h : WellFormed list free) (hne : nbytes ≠ 0) :
    Adequate nbytes list ↔ (8 ≤ nbytes.toNat ∧ nbytes.toNat ≤ 15) ∨
      ∀ block ∈ free, block.length ≤ (roundedSize nbytes).toNat := by
  by_cases hlong : ∃ block ∈ free, (roundedSize nbytes).toNat < block.length
  · obtain ⟨before, block, after, rfl, hbefore, hblock⟩ := exists_firstFit hlong
    obtain ⟨mptr, list', hrun, hmptr, -, hlength, -⟩ := allocHeap_ok h hne hbefore hblock
    have hgranular := h.granular block (by simp)
    have hbound := hgranular.stop_le
    have hlower := hgranular.base_pos
    have hdvd := hgranular.base_dvd
    have hbase : (mptr + blockSize).toNat = (block.base + 16) % 2 ^ 64 := by
      rw [BitVec.toNat_add, hmptr]
      rfl
    have hfailed : mptr + blockSize ≠ allocFailed := by
      intro heq
      have hvalue := congrArg BitVec.toNat heq
      rw [hbase] at hvalue
      change (block.base + 16) % 2 ^ 64 = 2 ^ 64 - 1 at hvalue
      omega
    have hshort : ¬ ∀ extent ∈ before ++ block :: after,
        extent.length ≤ (roundedSize nbytes).toNat :=
      fun h ↦ absurd (h block (by simp)) (not_le.mpr hblock)
    rw [or_iff_left hshort]
    have hrequest : 0 < nbytes.toNat :=
      Nat.pos_of_ne_zero fun hzero ↦ hne (BitVec.eq_of_toNat_eq hzero)
    by_cases hfits : nbytes.toNat + 8 < 2 ^ 64
    · have hsize := roundedSize_toNat hfits
      have hrecorded : (lengthOf list'.memory (mptr + blockSize - blockSize)).toNat =
          chunkSize nbytes.toNat := by
        rw [add_sub_cancel_right, hlength (hsize ▸ chunkSize_pos hrequest), hsize]
      rw [← le_chunkSize_iff hrequest]
      constructor
      · intro hadequate
        exact hrecorded ▸ (hadequate _ _ hrun hfailed).1
      · intro hroom base list'' hrun' _
        obtain ⟨rfl, rfl⟩ := ok_pair_inj hrun hrun'
        refine ⟨hrecorded ▸ hroom, ?_⟩
        rw [hsize] at hblock
        simp only [stop] at hbound
        omega
    · refine ⟨fun hadequate ↦ ?_, fun hrange ↦ by omega⟩
      exact absurd hadequate (not_adequate_of_wrap (not_lt.mp hfits) hrun hfailed)
  · have hshort : ∀ block ∈ free, block.length ≤ (roundedSize nbytes).toNat := by
      intro block hmem
      exact not_lt.mp fun hblock ↦ hlong ⟨block, hmem, hblock⟩
    refine ⟨fun _ ↦ Or.inr hshort, fun _ base list' hrun ↦ ?_⟩
    rw [allocHeap_error h hne hshort] at hrun
    cases hrun

theorem harmless_of_adequate (h : Represents state arena) (hne : nbytes ≠ 0)
    (hadequate : Adequate nbytes state.list) : Harmless nbytes state := by
  intro base list' hrun hfailed memory' hframe free hfree extent hextent location hlocation
  apply hframe
  rw [List.forall_mem_singleton]
  intro hwritten
  have hfits : nbytes.toNat + 8 < 2 ^ 64 := by
    by_contra hwrap
    exact not_adequate_of_wrap (not_lt.mp hwrap) hrun hfailed hadequate
  obtain ⟨hroom, -⟩ := hadequate base list' hrun hfailed
  rcases h.allocHeap hne hfits with ⟨-, herror⟩ |
    ⟨before, block, after, base', list'', hsplit, hpos, hsize, -, hok, -, hchunk, hnew⟩
  · rw [herror] at hrun
    cases hrun
  · obtain ⟨rfl, rfl⟩ := ok_pair_inj hrun hok
    obtain rfl := hnew.wellFormed.unique hfree
    -- the bytes requested lie in the new chunk, which lies apart from the extent
    have htiles := hnew.tiles.perm List.perm_middle
    have hapart := (List.pairwise_cons.mp htiles.disjoint).1 extent hextent
    refine Set.disjoint_left.mp hapart ?_ hlocation
    have hrequest : 0 < nbytes.toNat :=
      Nat.pos_of_ne_zero fun hzero ↦ hne (BitVec.eq_of_toNat_eq hzero)
    have hbase : base.toNat = (chunkAt list'.memory base).base + 16 := by
      have hbound := (hnew.granular List.mem_cons_self).stop_le
      have hvalue : ((base - blockSize) + blockSize).toNat = (base - blockSize).toNat + 16 := by
        rw [BitVec.toNat_add]
        change (_ + 16) % 2 ^ 64 = _
        simp only [stop, chunkAt] at hbound
        omega
      rw [sub_add_cancel] at hvalue
      exact hvalue
    have hlength : (chunkAt list'.memory base).length =
        (lengthOf list'.memory (base - blockSize)).toNat := rfl
    simp only [mem_bytes, stop] at hwritten ⊢
    omega

/-- A request is answered by an adequate chunk exactly when it is from eight to fifteen bytes or no
free block is longer than its rounded size, and then writing the bytes requested is harmless. Along a
run, whatever its requests, the chunks handed out are adequate exactly when every request is in that
range. -/
theorem adequate_iff_of_heapRun (hinitial : start.Initial layout)
    (hrun : HeapRun layout.getHeadAddress start moves state) :
    ((∀ move ∈ moves, move.2.Fits) → ∀ free, WellFormed state.list free → ∀ nbytes : Word,
      nbytes ≠ 0 →
      (Adequate nbytes state.list ↔ (8 ≤ nbytes.toNat ∧ nbytes.toNat ≤ 15) ∨
        ∀ block ∈ free, block.length ≤ (roundedSize nbytes).toNat) ∧
      (Adequate nbytes state.list → Harmless nbytes state)) ∧
    ((∀ move ∈ moves, ∀ nbytes, move.2 = .alloc nbytes → nbytes ≠ 0 →
        Adequate nbytes move.1.list) ↔
      ∀ move ∈ moves, ∀ nbytes, move.2 = .alloc nbytes → nbytes ≠ 0 →
        8 ≤ nbytes.toNat ∧ nbytes.toNat ≤ 15) := by
  constructor
  · intro hfits free hfree nbytes hne
    obtain ⟨arena, harena⟩ := hinitial.represents.run hrun hfits
    exact ⟨adequate_iff hfree hne, harmless_of_adequate harena hne⟩
  · refine hrun.forall_iff (fun state ↦ ∃ arena : Arena layout, Represents state arena)
      (fun state event ↦ ∀ nbytes, event = .alloc nbytes → nbytes ≠ 0 → Adequate nbytes state.list)
      (fun _ event ↦ ∀ nbytes, event = .alloc nbytes → nbytes ≠ 0 →
        8 ≤ nbytes.toNat ∧ nbytes.toNat ≤ 15) ⟨_, hinitial.represents⟩ ?_ ?_
    · rintro state event state' ⟨arena, harena⟩ hrange hstep
      have hfits : event.Fits := by
        cases event with
        | alloc nbytes =>
          by_cases hne : nbytes = 0
          · subst hne
            decide
          · have := hrange nbytes rfl hne
            change nbytes.toNat + 8 < 2 ^ 64
            omega
        | free base => trivial
        | write => trivial
      obtain ⟨arena', -, harena'⟩ := harena.step hfits hstep
      exact ⟨arena', harena'⟩
    · rintro state event state' ⟨arena, harena⟩ hstep
      refine forall_congr' fun nbytes ↦ forall_congr' fun hevent ↦ forall_congr' fun hne ↦ ?_
      subst hevent
      rw [adequate_iff harena.wellFormed hne]
      -- the step completed, so some block was long enough
      apply or_iff_left
      intro hshort
      cases hstep with
      | alloc hok =>
        rw [allocHeap_error harena.wellFormed hne hshort] at hok
        cases hok

/-- Five bytes are answered by a chunk of sixteen, all of it header. -/
theorem not_adequate_five : HeapState.Initial onePage ⟨onePageList, []⟩ ∧ ¬ Adequate 5 onePageList := by
  refine ⟨⟨wellFormed_onePageList, rfl⟩, fun hadequate ↦ ?_⟩
  have hlong : ¬ ∀ block ∈ onePage.blocks, block.length ≤ (roundedSize 5).toNat := by decide
  exact ((adequate_iff wellFormed_onePageList (by decide)).mp hadequate).elim (by decide) hlong

theorem adequate_iff_of_heapRun_ten :
    ∃ moves state, HeapRun onePage.getHeadAddress ⟨onePageList, []⟩ moves state ∧
      moves.map Prod.snd = [.alloc 10] ∧
      ∀ move ∈ moves, ∀ nbytes, move.2 = .alloc nbytes → nbytes ≠ 0 →
        Adequate nbytes move.1.list := by
  have hcomputed : ([.alloc 10].foldlM (HeapState.apply onePage.getHeadAddress)
      ⟨onePageList, []⟩).any fun _ ↦ true := by decide +kernel
  obtain ⟨moves, state, hrun, hevents, -, -⟩ := exists_heapRun_of_any hcomputed (by decide)
  refine ⟨moves, state, hrun, hevents, ?_⟩
  refine (adequate_iff_of_heapRun ⟨wellFormed_onePageList, rfl⟩ hrun).2.mpr ?_
  intro move hmove nbytes hevent _
  have hmem := List.mem_map_of_mem hmove (f := Prod.snd)
  rw [hevents, hevent, List.mem_singleton] at hmem
  obtain rfl := HeapEvent.alloc.inj hmem
  decide

end PenelopeOS.Memory
