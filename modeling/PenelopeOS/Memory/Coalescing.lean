import PenelopeOS.Memory.Headers
import PenelopeOS.Memory.HeapRun

/-!
# Whether `free` coalesces

The test for joining a chunk with the head compares with the address of a function, so a chunk below
the head is never joined, and no branch joins a chunk with the block below it. The one join that
happens is with the block after the chunk when the chunk goes between the first two blocks.
-/

namespace PenelopeOS.Memory

open Machine Foundation Extent

/-- The release completes and leaves no block that ends where another one begins. -/
def CompletesSeparated (getHeadAddress base : Word) (list : BlockList) : Prop :=
  ∃ list' free', Memory.free getHeadAddress base list = .ok list' ∧ WellFormed list' free' ∧
    Separated free'

variable {layout : Layout} {start state : HeapState} {arena : Arena layout}
  {base nbytes : Word} {moves : List (HeapState × HeapEvent)} {list' : BlockList}
  {free : List Extent}

theorem completesSeparated_iff (h : Represents state arena) (hlive : base ∈ state.live)
    (hascending : Ascending arena.free) (hseparated : Separated arena.free) :
    CompletesSeparated layout.getHeadAddress base state.list ↔
      (∀ block ∈ arena.free, block.stop ≠ (chunkAt state.list.memory base).base) ∧
      (∀ block ∈ arena.free, (chunkAt state.list.memory base).stop = block.base →
        below (chunkAt state.list.memory base) arena.free = 1) ∧
      (below (chunkAt state.list.memory base) arena.free ≤ 1 ∨
        2 ≤ above (chunkAt state.list.memory base) arena.free) := by
  have hmem := h.mem_live hlive
  rw [← exists_release_separated_iff (arena.clear hmem) hascending hseparated
    (arena.above_pos hmem)]
  exact h.exists_free_iff hlive Separated

/-- The first block long enough is the second one of the list. -/
def SecondFits (size : ℕ) (free : List Extent) : Prop :=
  ∃ first second after, free = first :: second :: after ∧ first.length ≤ size ∧ size < second.length

theorem secondFits_iff {size : ℕ} {before after : List Extent} {block : Extent}
    (hbefore : ∀ extent ∈ before, extent.length ≤ size) (hblock : size < block.length) :
    SecondFits size (before ++ block :: after) ↔ before.length = 1 := by
  match before with
  | [] =>
    refine iff_of_false ?_ (by simp)
    rintro ⟨first, second, after', heq, hfirst, -⟩
    obtain ⟨rfl, -⟩ := List.cons.inj heq
    exact absurd hblock (not_lt.mpr hfirst)
  | [first] =>
    exact iff_of_true ⟨first, block, after, rfl, hbefore first List.mem_cons_self, hblock⟩ rfl
  | first :: second :: before =>
    refine iff_of_false ?_ (by simp)
    rintro ⟨first', second', after', heq, -, hsecond⟩
    obtain ⟨-, hrest⟩ := List.cons.inj heq
    obtain ⟨rfl, -⟩ := List.cons.inj hrest
    exact absurd hsecond (not_lt.mpr (hbefore second (by simp)))

theorem restores_iff_of_fits (h : Represents state arena) (hascending : Ascending arena.free)
    (hne : nbytes ≠ 0) (hfits : nbytes.toNat + 8 < 2 ^ 64)
    (hrun : allocHeap nbytes state.list = .ok (base, list')) :
    (∃ list'', Memory.free layout.getHeadAddress base list' = .ok list'' ∧
      WellFormed list'' arena.free) ↔ SecondFits (chunkSize nbytes.toNat) arena.free := by
  rcases h.allocHeap hne hfits with ⟨-, herror⟩ |
    ⟨before, block, after, base', list'', hfree, hpos, hsize, hbefore, hok, -, hchunk, hnew⟩
  · rw [herror] at hrun
    cases hrun
  · obtain ⟨rfl, rfl⟩ := ok_pair_inj hrun hok
    rw [hfree] at hascending ⊢
    rw [secondFits_iff hbefore hsize, ← release_lower_eq_iff hascending hpos hsize, ← hchunk]
    calc
      _ ↔ ∃ list'' free', Memory.free layout.getHeadAddress base list' = .ok list'' ∧
          WellFormed list'' free' ∧ free' = before ++ block :: after := by simp
      _ ↔ ∃ free', release (chunkAt list'.memory base)
            (arena.cut hfree (chunkSize_dvd _) hpos hsize).free = some free' ∧
          free' = before ++ block :: after :=
        hnew.exists_free_iff List.mem_cons_self _
      _ ↔ _ := exists_eq_right

/-- A request near the top of the range hands out the head itself and leaves it on the list. -/
theorem restores_iff_of_wrap (h : Represents state arena) (hascending : Ascending arena.free)
    (hseparated : Separated arena.free) (hne : nbytes ≠ 0) (hwrap : 2 ^ 64 ≤ nbytes.toNat + 8)
    (hrun : allocHeap nbytes state.list = .ok (base, list')) :
    (∃ list'', Memory.free layout.getHeadAddress base list' = .ok list'' ∧
      WellFormed list'' arena.free) ↔ 2 ≤ arena.free.length := by
  have hzero := roundedSize_eq_zero hwrap
  cases hfree : arena.free with
  | nil =>
    rw [allocHeap_error (hfree ▸ h.wellFormed) hne (by simp)] at hrun
    cases hrun
  | cons first after =>
    rw [hfree] at hascending hseparated
    have hwellFormed : WellFormed state.list ([] ++ first :: after) := hfree ▸ h.wellFormed
    have hcut : (roundedSize nbytes).toNat < first.length := by
      rw [hzero]
      exact (hwellFormed.granular first (by simp)).length_pos
    obtain ⟨mptr, list'', hok, hmptr, hnew, -, -⟩ := allocHeap_ok hwellFormed hne (by simp) hcut
    obtain ⟨rfl, rfl⟩ := ok_pair_inj hrun hok
    have hupper : first.upper (roundedSize nbytes).toNat = first := by
      rw [hzero]
      rfl
    rw [hupper, List.nil_append] at hnew
    have hhead := hnew.chain.stores_head
    have hposition : mptr = list'.head := BitVec.eq_of_toNat_eq (hmptr.trans hhead.1.symm)
    rw [hposition, free_head hnew (List.pairwise_cons.mp hascending).1
      (fun block hblock ↦ hseparated first List.mem_cons_self block (List.mem_cons_of_mem _ hblock))
      (arena.add_ne_code (by simp [hfree]) hhead)]
    simp [Nat.one_le_iff_ne_zero]

/-- From a state whose list is in order and without touching blocks, a release leaves no touching
blocks exactly when no free block ends at the chunk, the chunk touches a block above it only as the
second of the list, and the search for its place ends. A request whose answer is released at once
restores the list exactly when it was cut from the second block, or when its size wraps and the list
has a second block. -/
theorem coalesces_iff_of_heapRun (hinitial : start.Initial layout)
    (hrun : HeapRun layout.getHeadAddress start moves state) (hfits : ∀ move ∈ moves, move.2.Fits)
    (hfree : WellFormed state.list free) (hascending : Ascending free) (hseparated : Separated free) :
    (∀ base ∈ state.live, CompletesSeparated layout.getHeadAddress base state.list ↔
      (∀ block ∈ free, block.stop ≠ (chunkAt state.list.memory base).base) ∧
      (∀ block ∈ free, (chunkAt state.list.memory base).stop = block.base →
        below (chunkAt state.list.memory base) free = 1) ∧
      (below (chunkAt state.list.memory base) free ≤ 1 ∨
        2 ≤ above (chunkAt state.list.memory base) free)) ∧
    ∀ nbytes base list', nbytes ≠ 0 → allocHeap nbytes state.list = .ok (base, list') →
      ((∃ list'', Memory.free layout.getHeadAddress base list' = .ok list'' ∧
        WellFormed list'' free) ↔
        if nbytes.toNat + 8 < 2 ^ 64 then SecondFits (chunkSize nbytes.toNat) free
        else 2 ≤ free.length) := by
  obtain ⟨arena, harena⟩ := hinitial.represents.run hrun hfits
  obtain rfl := harena.wellFormed.unique hfree
  constructor
  · intro base hlive
    exact completesSeparated_iff harena hlive hascending hseparated
  · intro nbytes base list' hne hrun
    split_ifs with hwrap
    · exact restores_iff_of_fits harena hascending hne hwrap hrun
    · exact restores_iff_of_wrap harena hascending hseparated hne (not_lt.mp hwrap) hrun

/-- Ten bytes are answered by the low end of the page. -/
theorem exists_alloc_ten : ∃ base list', HeapStep onePage.getHeadAddress ⟨onePageList, []⟩
      (.alloc 10) ⟨list', [base]⟩ ∧
    chunkAt list'.memory base = ⟨0xffff800000001000, 32⟩ ∧
    WellFormed list' [⟨0xffff800000001020, 0xfe0⟩] := by
  have hinitial : HeapState.Initial onePage ⟨onePageList, []⟩ := ⟨wellFormed_onePageList, rfl⟩
  have hne : (10 : Word) ≠ 0 := by decide
  have hfits : (10 : Word).toNat + 8 < 2 ^ 64 := by decide
  rcases hinitial.represents.allocHeap hne hfits with ⟨hshort, -⟩ |
    ⟨before, block, after, base, list', hfree, hpos, hsize, -, hok, hfailed, hchunk, hnew⟩
  · exact absurd (hshort _ List.mem_cons_self) (by decide)
  · obtain ⟨rfl, rfl⟩ : before = [] ∧ after = [] := by
      have hlength := congrArg List.length hfree
      simp only [List.length_append, List.length_cons] at hlength
      change 1 = _ at hlength
      exact ⟨List.length_eq_zero_iff.mp (by omega), List.length_eq_zero_iff.mp (by omega)⟩
    obtain rfl : block = ⟨0xffff800000001000, 0x1000⟩ := (List.cons.inj hfree).1.symm
    have hstep : HeapStep onePage.getHeadAddress ⟨onePageList, []⟩ (.alloc 10) _ := .alloc hok
    rw [if_neg hfailed] at hstep
    exact ⟨base, list', hstep, hchunk, hnew.wellFormed⟩

/-- Released at once, that chunk stays apart from the rest of the page. -/
theorem not_completesSeparated_ten : HeapState.Initial onePage ⟨onePageList, []⟩ ∧
    ¬ ∀ moves state, HeapRun onePage.getHeadAddress ⟨onePageList, []⟩ moves state →
      (∀ move ∈ moves, move.2.Fits) → ∀ free, WellFormed state.list free → Ascending free →
      Separated free → ∀ base ∈ state.live,
        CompletesSeparated onePage.getHeadAddress base state.list := by
  have hinitial : HeapState.Initial onePage ⟨onePageList, []⟩ := ⟨wellFormed_onePageList, rfl⟩
  refine ⟨hinitial, fun hclaim ↦ ?_⟩
  obtain ⟨base, list', hstep, hchunk, hwellFormed⟩ := exists_alloc_ten
  have hrun := Run.nil.snoc hstep
  have hfits : ∀ move ∈ [] ++ [((⟨onePageList, []⟩ : HeapState), HeapEvent.alloc 10)],
      move.2.Fits := by simp [HeapEvent.Fits]
  have hascending : Ascending [⟨0xffff800000001020, 0xfe0⟩] := List.pairwise_singleton _ _
  have hseparated : Separated [⟨0xffff800000001020, 0xfe0⟩] := by unfold Separated; decide
  have hcompletes := hclaim _ _ hrun hfits _ hwellFormed hascending hseparated base
    List.mem_cons_self
  obtain ⟨arena, harena⟩ := hinitial.represents.run hrun hfits
  have hfree := harena.wellFormed.unique hwellFormed
  have hiff := completesSeparated_iff harena List.mem_cons_self (hfree ▸ hascending)
    (hfree ▸ hseparated)
  rw [hfree] at hiff
  -- the rest of the page begins where the chunk ends, and nothing lies below the chunk
  have hbelow := (hiff.mp hcompletes).2.1 _ List.mem_cons_self
  simp only [hchunk] at hbelow
  exact absurd (hbelow (by decide)) (by decide)

theorem coalesces_iff_of_heapRun_ten :
    ∃ base list', HeapStep onePage.getHeadAddress ⟨onePageList, []⟩ (.alloc 10) ⟨list', [base]⟩ ∧
      ∀ nbytes base other, nbytes ≠ 0 → allocHeap nbytes list' = .ok (base, other) →
        ((∃ restored, Memory.free onePage.getHeadAddress base other = .ok restored ∧
          WellFormed restored [⟨0xffff800000001020, 0xfe0⟩]) ↔
          if nbytes.toNat + 8 < 2 ^ 64 then
            SecondFits (chunkSize nbytes.toNat) [⟨0xffff800000001020, 0xfe0⟩]
          else 2 ≤ 1) := by
  obtain ⟨base, list', hstep, -, hwellFormed⟩ := exists_alloc_ten
  have hascending : Ascending [⟨0xffff800000001020, 0xfe0⟩] := List.pairwise_singleton _ _
  have hseparated : Separated [⟨0xffff800000001020, 0xfe0⟩] := by unfold Separated; decide
  exact ⟨base, list', hstep, (coalesces_iff_of_heapRun ⟨wellFormed_onePageList, rfl⟩
    (Run.nil.snoc hstep) (by simp [HeapEvent.Fits]) hwellFormed hascending hseparated).2⟩

end PenelopeOS.Memory
