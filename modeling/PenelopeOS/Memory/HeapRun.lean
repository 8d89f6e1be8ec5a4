import PenelopeOS.Foundation.Run
import PenelopeOS.Memory.Arena
import PenelopeOS.Memory.Free

/-!
# Runs of the heap

A heap state is physical memory with the head of the free list, and the pointers that clients hold.
A run interleaves requests, releases of held pointers and writes of clients into their payloads.
`Represents` says that the list in memory and the chunks behind the held pointers are the two halves
of an arena. One step of a represented state is one step of the arena, so a run of the heap is a run
of the arena.
-/

namespace PenelopeOS.Memory

open Machine Foundation Extent

structure HeapState where
  list : BlockList
  live : List Word

inductive HeapEvent where
  | alloc (nbytes : Word)
  | free (base : Word)
  | write
  deriving DecidableEq, Repr

/-- The chunk whose header lies in front of a pointer that `allocHeap` returned. -/
def chunkAt (memory : Memory) (base : Word) : Extent :=
  ⟨(base - blockSize).toNat, (lengthOf memory (base - blockSize)).toNat⟩

/-- What a client may write to: the chunk without its header. -/
def payloadAt (memory : Memory) (base : Word) : Extent := (chunkAt memory base).upper 16

def HeapState.chunks (state : HeapState) : List Extent :=
  state.live.map (chunkAt state.list.memory)

/-- The steps that complete. A request that is answered with `allocFailed` hands out nothing. -/
inductive HeapStep (getHeadAddress : Word) : HeapState → HeapEvent → HeapState → Prop
  | alloc {state : HeapState} {nbytes base : Word} {list : BlockList}
      (hrun : allocHeap nbytes state.list = .ok (base, list)) :
      HeapStep getHeadAddress state (.alloc nbytes)
        ⟨list, if base = allocFailed then state.live else base :: state.live⟩
  | free {state : HeapState} {base : Word} {list : BlockList} (hlive : base ∈ state.live)
      (hrun : Memory.free getHeadAddress base state.list = .ok list) :
      HeapStep getHeadAddress state (.free base) ⟨list, state.live.erase base⟩
  | write {state : HeapState} {memory : Memory}
      (hframe : AgreeOutside (state.live.map (payloadAt state.list.memory))
        state.list.memory memory) :
      HeapStep getHeadAddress state .write ⟨⟨memory, state.list.head⟩, state.live⟩

abbrev HeapRun (getHeadAddress : Word) : HeapState → List (HeapState × HeapEvent) → HeapState → Prop :=
  Run (HeapStep getHeadAddress)

/-- The size of a request survives the rounding. -/
def HeapEvent.Fits : HeapEvent → Prop
  | .alloc nbytes => nbytes.toNat + 8 < 2 ^ 64
  | _ => True

instance : (event : HeapEvent) → Decidable event.Fits
  | .alloc nbytes => inferInstanceAs (Decidable (nbytes.toNat + 8 < 2 ^ 64))
  | .free _ => inferInstanceAs (Decidable True)
  | .write => inferInstanceAs (Decidable True)

/-- The steps of an arena: first fit, the release of a chunk, and nothing. -/
inductive ArenaStep {layout : Layout} : Arena layout → HeapEvent → Arena layout → Prop
  | refuse {arena : Arena layout} : ArenaStep arena (.alloc 0) arena
  | cut {arena : Arena layout} {nbytes : Word} {before after : List Extent} {block : Extent}
      (hfree : arena.free = before ++ block :: after)
      (hbefore : ∀ extent ∈ before, extent.length ≤ chunkSize nbytes.toNat)
      (hpos : 0 < chunkSize nbytes.toNat) (hsize : chunkSize nbytes.toNat < block.length) :
      ArenaStep arena (.alloc nbytes) (arena.cut hfree (chunkSize_dvd _) hpos hsize)
  | release {arena : Arena layout} {base : Word} {chunk : Extent} {rest free' : List Extent}
      (hbase : (base - blockSize).toNat = chunk.base) (hlive : arena.live.Perm (chunk :: rest))
      (hrelease : release chunk arena.free = some free') :
      ArenaStep arena (.free base) (arena.release hlive (release_cases hrelease))
  | write {arena : Arena layout} : ArenaStep arena .write arena

/-- The list as it was built, before any request. -/
structure HeapState.Initial (layout : Layout) (state : HeapState) : Prop where
  wellFormed : WellFormed state.list layout.blocks
  live : state.live = []

/-- The free list and the held chunks of a state are those of the arena. -/
structure Represents {layout : Layout} (state : HeapState) (arena : Arena layout) : Prop where
  wellFormed : WellFormed state.list arena.free
  live : arena.live = state.chunks

/-- The steps without client writes, computed. -/
def HeapState.apply (getHeadAddress : Word) (state : HeapState) : HeapEvent → Option HeapState
  | .alloc nbytes =>
    match allocHeap nbytes state.list with
    | .ok (base, list) => some ⟨list, if base = allocFailed then state.live else base :: state.live⟩
    | .error _ => none
  | .free base =>
    if base ∈ state.live then
      match Memory.free getHeadAddress base state.list with
      | .ok list => some ⟨list, state.live.erase base⟩
      | .error _ => none
    else none
  | .write => some state

variable {layout : Layout} {state state' : HeapState} {arena : Arena layout} {memory memory' : Memory}
  {base nbytes getHeadAddress : Word} {event : HeapEvent} {list' : BlockList}

theorem heapStep_of_apply (h : state.apply getHeadAddress event = some state') :
    HeapStep getHeadAddress state event state' := by
  cases event with
  | alloc nbytes =>
    simp only [HeapState.apply] at h
    split at h
    · obtain rfl := Option.some.inj h
      exact .alloc (by assumption)
    · cases h
  | free base =>
    simp only [HeapState.apply] at h
    split_ifs at h with hlive
    split at h
    · obtain rfl := Option.some.inj h
      exact .free hlive (by assumption)
    · cases h
  | write =>
    obtain rfl := Option.some.inj h
    exact .write AgreeOutside.refl

theorem exists_heapRun_of_apply {events : List HeapEvent}
    (h : events.foldlM (HeapState.apply getHeadAddress) state = some state') :
    ∃ moves, HeapRun getHeadAddress state moves state' ∧ moves.map Prod.snd = events := by
  induction events generalizing state with
  | nil =>
    obtain rfl := Option.some.inj h
    exact ⟨[], .nil, rfl⟩
  | cons event events ih =>
    obtain ⟨middle, hmiddle, hrest⟩ := Option.bind_eq_some_iff.mp h
    obtain ⟨moves, hrun, rfl⟩ := ih hrest
    exact ⟨_, hrun.cons (heapStep_of_apply hmiddle), rfl⟩

/-- A check of a computed state is a fact about a run. -/
theorem exists_heapRun_of_any {events : List HeapEvent} {check : HeapState → Bool}
    (h : (events.foldlM (HeapState.apply getHeadAddress) state).any check)
    (hfits : ∀ event ∈ events, event.Fits) :
    ∃ moves state', HeapRun getHeadAddress state moves state' ∧ moves.map Prod.snd = events ∧
      (∀ move ∈ moves, move.2.Fits) ∧ check state' := by
  cases hresult : events.foldlM (HeapState.apply getHeadAddress) state with
  | none =>
    rw [hresult] at h
    cases h
  | some state' =>
    obtain ⟨moves, hrun, rfl⟩ := exists_heapRun_of_apply hresult
    rw [hresult] at h
    exact ⟨moves, state', hrun, rfl, fun move hmove ↦ hfits _ (List.mem_map_of_mem hmove), h⟩

theorem HeapState.Initial.represents (h : state.Initial layout) :
    Represents state (Arena.start layout) where
  wellFormed := h.wellFormed
  live := by
    rw [chunks, h.live]
    rfl

/-! ## Headers of held chunks -/

theorem stores_chunkAt : Stores memory (base - blockSize) (chunkAt memory base) := ⟨rfl, rfl⟩

theorem chunkAt_of_stores {mptr : Word} {chunk : Extent} (h : Stores memory mptr chunk) :
    chunkAt memory (mptr + blockSize) = chunk := by
  obtain ⟨hbase, hlength⟩ := h
  cases chunk
  simp only [chunkAt, add_sub_cancel_right]
  rw [hbase, hlength]

theorem chunkAt_frame {extents : List Extent} (h : AgreeOutside extents memory memory')
    (hgranular : Granular (chunkAt memory base))
    (hdisjoint : ∀ changed ∈ extents,
      Disjoint changed.bytes ((chunkAt memory base).lower 16).bytes) :
    chunkAt memory' base = chunkAt memory base := by
  have hheader : Granular ((chunkAt memory base).lower 16) :=
    { base_dvd := hgranular.base_dvd
      length_dvd := dvd_rfl
      base_pos := hgranular.base_pos
      length_pos := by simp
      stop_le := hgranular.base_lt }
  have height := toNat_add_eight (hgranular.base_dvd : 16 ∣ (base - blockSize).toNat)
  have hbase : (chunkAt memory base).base = (base - blockSize).toNat := rfl
  have hload : lengthOf memory' (base - blockSize) = lengthOf memory (base - blockSize) := by
    apply h.load hheader hdisjoint
    · simp only [lower_base]
      omega
    · simp only [stop, lower_base, lower_length]
      omega
  simp only [chunkAt, hload]

namespace Represents

variable (h : Represents state arena)

include h

theorem mem_live (hlive : base ∈ state.live) : chunkAt state.list.memory base ∈ arena.live := by
  rw [h.live]
  exact List.mem_map_of_mem hlive

theorem granular (hlive : base ∈ state.live) : Granular (chunkAt state.list.memory base) :=
  arena.granular _ (List.mem_append_right _ (h.mem_live hlive))

theorem header_subset (hlive : base ∈ state.live) :
    ((chunkAt state.list.memory base).lower 16).bytes ⊆ (chunkAt state.list.memory base).bytes :=
  lower_subset (h.granular hlive).sixteen_le

theorem payload_subset (hlive : base ∈ state.live) :
    (payloadAt state.list.memory base).bytes ⊆ (chunkAt state.list.memory base).bytes :=
  upper_subset (h.granular hlive).sixteen_le

theorem tiles : Tiles bytes (arena.free ++ state.chunks) layout.region := h.live ▸ arena.tiles

/-- The held chunks lie apart from any part of the free blocks. -/
theorem map_chunkAt_frame (hagree : AgreeOutside arena.free state.list.memory memory') :
    state.live.map (chunkAt memory') = state.chunks := by
  apply List.map_congr_left
  intro base hlive
  apply chunkAt_frame hagree (h.granular hlive)
  intro changed hchanged
  exact (arena.disjoint_of_live (h.mem_live hlive) hchanged).mono_right (h.header_subset hlive)

/-! ## Requests -/

/-- A request reads through null, or cuts the first block that is long enough. -/
theorem allocHeap (hne : nbytes ≠ 0) (hfits : nbytes.toNat + 8 < 2 ^ 64) :
    ((∀ block ∈ arena.free, block.length ≤ chunkSize nbytes.toNat) ∧
      Memory.allocHeap nbytes state.list = .error .nullDereference) ∨
    ∃ before block after base list', ∃ (hfree : arena.free = before ++ block :: after)
      (hpos : 0 < chunkSize nbytes.toNat) (hsize : chunkSize nbytes.toNat < block.length),
      (∀ extent ∈ before, extent.length ≤ chunkSize nbytes.toNat) ∧
      Memory.allocHeap nbytes state.list = .ok (base, list') ∧ base ≠ allocFailed ∧
      chunkAt list'.memory base = block.lower (chunkSize nbytes.toNat) ∧
      Represents ⟨list', base :: state.live⟩ (arena.cut hfree (chunkSize_dvd _) hpos hsize) := by
  have hsize := roundedSize_toNat hfits
  have hpos : 0 < chunkSize nbytes.toNat :=
    chunkSize_pos (Nat.pos_of_ne_zero fun hzero ↦ hne (BitVec.eq_of_toNat_eq hzero))
  by_cases hlong : ∃ block ∈ arena.free, chunkSize nbytes.toNat < block.length
  · obtain ⟨before, block, after, hfree, hbefore, hblock⟩ := exists_firstFit hlong
    obtain ⟨mptr, list', hrun, hmptr, hwellFormed, hlength, hagree, -⟩ :=
      allocHeap_ok (hfree ▸ h.wellFormed) hne (hsize ▸ hbefore) (hsize ▸ hblock)
    rw [hsize] at hwellFormed
    have hchunk : chunkAt list'.memory (mptr + blockSize) = block.lower (chunkSize nbytes.toNat) :=
      chunkAt_of_stores ⟨hmptr, (congrArg BitVec.toNat (hlength (hsize ▸ hpos))).trans hsize⟩
    have hne := add_blockSize_ne_allocFailed (arena.granular block (by simp [hfree])) hmptr
    refine Or.inr ⟨before, block, after, mptr + blockSize, list', hfree, hpos, hblock, hbefore, hrun,
      hne, hchunk, hwellFormed, ?_⟩
    rw [← hfree] at hagree
    change block.lower _ :: arena.live =
      chunkAt list'.memory (mptr + blockSize) :: state.live.map (chunkAt list'.memory)
    rw [hchunk, h.live, h.map_chunkAt_frame hagree]
  · have hshort : ∀ block ∈ arena.free, block.length ≤ chunkSize nbytes.toNat := by
      intro block hmem
      exact not_lt.mp fun hblock ↦ hlong ⟨block, hmem, hblock⟩
    exact Or.inl ⟨hshort, allocHeap_error h.wellFormed hne (hsize ▸ hshort)⟩

/-! ## Releases -/

theorem perm_erase (hlive : base ∈ state.live) :
    arena.live.Perm (chunkAt state.list.memory base ::
      (state.live.erase base).map (chunkAt state.list.memory)) := by
  rw [h.live]
  exact (List.perm_cons_erase hlive).map (chunkAt state.list.memory)

/-- The release of a held pointer reads through null, or gives its chunk back to the arena. -/
theorem free (hlive : base ∈ state.live) :
    (release (chunkAt state.list.memory base) arena.free = none ∧
      Memory.free layout.getHeadAddress base state.list = .error .nullDereference) ∨
    ∃ free' list', ∃ hrelease : release (chunkAt state.list.memory base) arena.free = some free',
      Memory.free layout.getHeadAddress base state.list = .ok list' ∧
      Represents ⟨list', state.live.erase base⟩
        (arena.release (h.perm_erase hlive) (release_cases hrelease)) := by
  have hmem := h.mem_live hlive
  have hgranular := h.granular hlive
  have hcode := arena.add_ne_code (List.mem_append_right _ hmem) stores_chunkAt
  have hspec := free_spec h.wellFormed stores_chunkAt hgranular
    (fun block hblock ↦ arena.disjoint_of_live hmem hblock) hcode
  rw [sub_add_cancel] at hspec
  rcases hspec with herror | ⟨free', list', hrelease, hrun, hwellFormed, hagree⟩
  · exact Or.inl herror
  · refine Or.inr ⟨free', list', hrelease, hrun, hwellFormed, ?_⟩
    change (state.live.erase base).map _ = (state.live.erase base).map _
    apply List.map_congr_left
    intro other hother
    have hotherLive := List.mem_of_mem_erase hother
    have hlower := h.header_subset hotherLive
    refine (chunkAt_frame hagree (h.granular hotherLive) (List.forall_mem_cons.mpr
      ⟨?_, fun block hblock ↦ ?_⟩)).symm
    · have htiles := arena.tiles.perm ((h.perm_erase hlive).append_left arena.free)
      have hpairwise := (List.pairwise_append.mp htiles.disjoint).2.1
      exact ((List.pairwise_cons.mp hpairwise).1 _ (List.mem_map_of_mem hother)).mono_right hlower
    · exact (arena.disjoint_of_live (h.mem_live hotherLive) hblock).mono_right hlower

/-- What the release of a held pointer leaves is what the release of its chunk leaves. -/
theorem exists_free_iff (hlive : base ∈ state.live) (left : List Extent → Prop) :
    (∃ list' free', Memory.free layout.getHeadAddress base state.list = .ok list' ∧
      WellFormed list' free' ∧ left free') ↔
      ∃ free', release (chunkAt state.list.memory base) arena.free = some free' ∧ left free' := by
  rcases h.free hlive with ⟨hrelease, herror⟩ | ⟨free', list', hrelease, hok, hnew⟩
  · rw [hrelease, herror]
    constructor
    · rintro ⟨list', free', hok, -⟩
      cases hok
    · rintro ⟨free', hsome, -⟩
      cases hsome
  · rw [hrelease, hok]
    constructor
    · rintro ⟨list'', free'', hsame, hwellFormed, hleft⟩
      obtain rfl := Except.ok.inj hsame
      obtain rfl := hnew.wellFormed.unique hwellFormed
      exact ⟨_, rfl, hleft⟩
    · rintro ⟨free'', hsame, hleft⟩
      obtain rfl := Option.some.inj hsame
      exact ⟨list', _, rfl, hnew.wellFormed, hleft⟩

/-! ## Client writes -/

/-- No payload meets a header. -/
theorem write (hframe : AgreeOutside (state.live.map (payloadAt state.list.memory))
    state.list.memory memory') :
    Represents ⟨⟨memory', state.list.head⟩, state.live⟩ arena := by
  have hfree (block : Extent) (hblock : block ∈ arena.free) (changed : Extent)
      (hchanged : changed ∈ state.live.map (payloadAt state.list.memory)) :
      Disjoint changed.bytes block.bytes := by
    obtain ⟨base, hlive, rfl⟩ := List.mem_map.mp hchanged
    exact (arena.disjoint_of_live (h.mem_live hlive) hblock).symm.mono_left (h.payload_subset hlive)
  refine ⟨⟨?_, h.wellFormed.disjoint, h.wellFormed.granular⟩, ?_⟩
  · apply h.wellFormed.chain.frame
    intro position block hblock hposition
    have hgranular := h.wellFormed.granular block hblock
    have hlength := hgranular.sixteen_le
    have height := toNat_add_eight (hposition.dvd hgranular)
    have hbase := hposition.1
    have hstop : block.stop = block.base + block.length := rfl
    have hnext : nextOf memory' position = nextOf state.list.memory position :=
      hframe.load hgranular (hfree block hblock) (by omega) (by omega)
    have hload : lengthOf memory' position = lengthOf state.list.memory position :=
      hframe.load hgranular (hfree block hblock) (by omega) (by omega)
    exact ⟨hnext, hbase, (congrArg BitVec.toNat hload).trans hposition.2⟩
  · rw [h.live]
    apply List.map_congr_left
    intro base hlive
    refine (chunkAt_frame hframe (h.granular hlive) fun changed hchanged ↦ ?_).symm
    obtain ⟨other, hother, rfl⟩ := List.mem_map.mp hchanged
    by_cases hsame : chunkAt state.list.memory other = chunkAt state.list.memory base
    · rw [payloadAt, hsame]
      exact lower_disjoint_upper.symm
    · have hdisjoint := h.tiles.disjoint_of_ne
        (List.mem_append_right _ (List.mem_map_of_mem hother))
        (List.mem_append_right _ (List.mem_map_of_mem hlive)) hsame
      exact hdisjoint.mono (h.payload_subset hother) (h.header_subset hlive)

/-! ## Steps and runs -/

/-- A step of the heap is a step of the arena. -/
theorem step (hfits : event.Fits) (hstep : HeapStep layout.getHeadAddress state event state') :
    ∃ arena' : Arena layout, ArenaStep arena event arena' ∧ Represents state' arena' := by
  cases hstep with
  | @alloc nbytes base list hrun =>
    by_cases hne : nbytes = 0
    · subst hne
      rw [allocHeap_zero] at hrun
      obtain ⟨rfl, rfl⟩ := Prod.mk.inj (Except.ok.inj hrun)
      exact ⟨arena, ArenaStep.refuse, h⟩
    · rcases h.allocHeap hne hfits with ⟨-, herror⟩ |
        ⟨before, block, after, base', list', hfree, hpos, hsize, hbefore, hok, hfailed, -, hnew⟩
      · rw [herror] at hrun
        cases hrun
      · rw [hok] at hrun
        obtain ⟨rfl, rfl⟩ := Prod.mk.inj (Except.ok.inj hrun)
        rw [if_neg hfailed]
        exact ⟨_, ArenaStep.cut hfree hbefore hpos hsize, hnew⟩
  | free hlive hrun =>
    rcases h.free hlive with ⟨-, herror⟩ | ⟨free', list', hrelease, hok, hnew⟩
    · rw [herror] at hrun
      cases hrun
    · rw [hok] at hrun
      obtain rfl := Except.ok.inj hrun
      exact ⟨_, ArenaStep.release rfl (h.perm_erase hlive) hrelease, hnew⟩
  | write hframe => exact ⟨arena, ArenaStep.write, h.write hframe⟩

/-- Every state of a run whose requests survive the rounding is represented. -/
theorem run {moves : List (HeapState × HeapEvent)}
    (hrun : HeapRun layout.getHeadAddress state moves state')
    (hfits : ∀ move ∈ moves, move.2.Fits) : ∃ arena' : Arena layout, Represents state' arena' := by
  refine hrun.invariant (fun state ↦ ∃ arena : Arena layout, Represents state arena)
    (fun _ event ↦ event.Fits) ⟨arena, h⟩ ?_ hfits
  rintro state event state' ⟨arena, h⟩ hgood hstep
  obtain ⟨arena', -, h'⟩ := h.step hgood hstep
  exact ⟨arena', h'⟩

end Represents

end PenelopeOS.Memory
