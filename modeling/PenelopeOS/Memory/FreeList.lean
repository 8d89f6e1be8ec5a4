import PenelopeOS.Foundation.Extent
import Mathlib.Tactic.SplitIfs

/-!
# The allocator on lists of extents

What the walks of `allocHeap` and `free` do to the list of free blocks, with the memory that holds
the headers left out. A request is cut from the first block that is strictly longer. `release` keeps the
shape of the source: a block below the head is put in front, the first pair is tested in one way and every
later pair in another, and a chunk is joined only with the block that follows it. `none` stands for
a walk that runs off the end of the list.

The second half says what these do to an ascending list: where a chunk ends up depends only on how
many free blocks lie below it and above it.
-/

namespace PenelopeOS.Memory

open Foundation Extent

/-- The list from `current` on with `chunk` put after it. -/
def insertAfter (chunk current : Extent) : List Extent → List Extent
  | [] => [current, chunk]
  | next :: rest =>
    if chunk.stop = next.base then current :: chunk.join next :: rest
    else current :: chunk :: next :: rest

/-- The loop over the pairs of neighbours, which wants both of them above the chunk. -/
def place (chunk : Extent) : List Extent → Option (List Extent)
  | [] => none
  | [_] => none
  | current :: next :: rest =>
    if chunk.base ≤ current.base ∧ chunk.base ≤ next.base then
      some (insertAfter chunk current (next :: rest))
    else (place chunk (next :: rest)).map (current :: ·)

def release (chunk : Extent) : List Extent → Option (List Extent)
  | [] => none
  | [first] => if chunk.base < first.base then some [chunk, first] else none
  | first :: next :: rest =>
    if chunk.base < first.base then some (chunk :: first :: next :: rest)
    else if chunk.base ≤ next.base then some (insertAfter chunk first (next :: rest))
    else (place chunk (next :: rest)).map (first :: ·)

variable {size : ℕ} {chunk block current next : Extent} {free free' before after : List Extent}

/-! ## First fit -/

/-- A list with a long enough block splits at the first one. -/
theorem exists_firstFit (h : ∃ block ∈ free, size < block.length) :
    ∃ before block after, free = before ++ block :: after ∧
      (∀ block ∈ before, block.length ≤ size) ∧ size < block.length := by
  induction free with
  | nil => simp at h
  | cons first free ih =>
    by_cases hfirst : size < first.length
    · exact ⟨[], first, free, rfl, by simp, hfirst⟩
    · obtain ⟨block, hmem, hblock⟩ := h
      rcases List.mem_cons.mp hmem with rfl | hmem
      · exact absurd hblock hfirst
      · obtain ⟨before, block, after, rfl, hbefore, hblock⟩ := ih ⟨block, hmem, hblock⟩
        refine ⟨first :: before, block, after, rfl, ?_, hblock⟩
        exact List.forall_mem_cons.mpr ⟨not_lt.mp hfirst, hbefore⟩

/-! ## What a release can do -/

theorem insertAfter_of_touch (h : chunk.stop = next.base) :
    insertAfter chunk current (next :: after) = current :: chunk.join next :: after :=
  if_pos h

theorem insertAfter_of_ne (h : chunk.stop ≠ next.base) :
    insertAfter chunk current (next :: after) = current :: chunk :: next :: after :=
  if_neg h

/-- A successful loop ends between two blocks at or above the chunk. -/
theorem place_eq_some (h : place chunk free = some free') :
    ∃ before current next after, free = before ++ current :: next :: after ∧
      chunk.base ≤ current.base ∧ chunk.base ≤ next.base ∧
      free' = before ++ insertAfter chunk current (next :: after) := by
  fun_induction place chunk free generalizing free' with
  | case1 => simp at h
  | case2 => simp at h
  | case3 current next rest hbetween =>
    exact ⟨[], current, next, rest, rfl, hbetween.1, hbetween.2, (Option.some.inj h).symm⟩
  | case4 current next rest hbetween ih =>
    obtain ⟨placed, hplaced, rfl⟩ := Option.map_eq_some_iff.mp h
    obtain ⟨before, current', next', after, hfree, hcurrent, hnext, rfl⟩ := ih hplaced
    exact ⟨current :: before, current', next', after, by rw [hfree]; rfl, hcurrent, hnext, rfl⟩

/-- The three outcomes of a release that ends. -/
inductive Released (chunk : Extent) (free : List Extent) : List Extent → Prop where
  | front : Released chunk free (chunk :: free)
  | between (before after : List Extent) (current : Extent)
      (hfree : free = before ++ current :: after) :
      Released chunk free (before ++ current :: chunk :: after)
  | joined (before after : List Extent) (current next : Extent)
      (hfree : free = before ++ current :: next :: after) (htouch : chunk.stop = next.base) :
      Released chunk free (before ++ current :: chunk.join next :: after)

/-- A release adds the bytes of the chunk to those of the free blocks. -/
theorem Released.mem_bytes_iff (h : Released chunk free free') (address : ℕ) :
    (∃ block ∈ free', address ∈ block.bytes) ↔
      (∃ block ∈ free, address ∈ block.bytes) ∨ address ∈ chunk.bytes := by
  cases h with
  | front => simp only [List.mem_cons, or_and_right, exists_or, exists_eq_left, or_comm]
  | between before after current hfree =>
    subst hfree
    simp only [List.mem_append, List.mem_cons, or_and_right, exists_or, exists_eq_left, or_assoc,
      or_comm (a := address ∈ chunk.bytes)]
  | joined before after current next hfree htouch =>
    subst hfree
    simp only [List.mem_append, List.mem_cons, or_and_right, exists_or, exists_eq_left,
      join_bytes htouch, Set.mem_union, or_assoc, or_comm (a := address ∈ chunk.bytes)]

theorem released_insertAfter (hfree : free = before ++ current :: next :: after) :
    Released chunk free (before ++ insertAfter chunk current (next :: after)) := by
  by_cases htouch : chunk.stop = next.base
  · rw [insertAfter_of_touch htouch]
    exact .joined _ _ _ _ hfree htouch
  · rw [insertAfter_of_ne htouch]
    exact .between _ _ _ hfree

theorem release_cases (h : release chunk free = some free') : Released chunk free free' := by
  unfold release at h
  split at h
  · simp at h
  · split_ifs at h
    obtain rfl := Option.some.inj h
    exact .front
  · split_ifs at h
    · obtain rfl := Option.some.inj h
      exact .front
    · obtain rfl := Option.some.inj h
      exact released_insertAfter (List.nil_append _).symm
    · obtain ⟨placed, hplaced, rfl⟩ := Option.map_eq_some_iff.mp h
      obtain ⟨before, current, next, after, hrest, -, -, rfl⟩ := place_eq_some hplaced
      rw [hrest, ← List.cons_append]
      exact released_insertAfter (by rfl)

/-! ## Ascending lists -/

def Ascending (free : List Extent) : Prop :=
  free.Pairwise fun first second ↦ first.base < second.base

/-- No block ends where another one begins. -/
def Separated (free : List Extent) : Prop :=
  ∀ first ∈ free, ∀ second ∈ free, first.stop ≠ second.base

def below (chunk : Extent) (free : List Extent) : ℕ :=
  free.countP fun block ↦ block.base < chunk.base

def above (chunk : Extent) (free : List Extent) : ℕ :=
  free.countP fun block ↦ chunk.base < block.base

/-- The chunk lies outside every free block. -/
structure Clear (chunk : Extent) (free : List Extent) : Prop where
  chunk_pos : 0 < chunk.length
  block_pos : ∀ block ∈ free, 0 < block.length
  apart : ∀ block ∈ free, block.stop ≤ chunk.base ∨ chunk.stop ≤ block.base

theorem Clear.of_cons (h : Clear chunk (current :: free)) : Clear chunk free where
  chunk_pos := h.chunk_pos
  block_pos block hmem := h.block_pos block (List.mem_cons_of_mem _ hmem)
  apart block hmem := h.apart block (List.mem_cons_of_mem _ hmem)

theorem Clear.base_lt_or (h : Clear chunk free) (hmem : block ∈ free) :
    block.base < chunk.base ∨ chunk.base < block.base := by
  have hblock := h.block_pos block hmem
  have hchunk := h.chunk_pos
  rcases h.apart block hmem with hapart | hapart <;> simp only [stop] at hapart <;> omega

theorem Clear.stop_le (h : Clear chunk free) (hmem : block ∈ free)
    (habove : chunk.base < block.base) : chunk.stop ≤ block.base := by
  have hblock := h.block_pos block hmem
  apply (h.apart block hmem).resolve_left
  intro hapart
  simp only [stop] at hapart
  omega

/-- An ascending list falls into the blocks below the chunk and the blocks above it. -/
theorem exists_lows_highs (hascending : Ascending free) (hclear : Clear chunk free) :
    ∃ lows highs, free = lows ++ highs ∧ (∀ block ∈ lows, block.base < chunk.base) ∧
      (∀ block ∈ highs, chunk.base < block.base) := by
  induction free with
  | nil => exact ⟨[], [], rfl, by simp, by simp⟩
  | cons first free ih =>
    obtain ⟨hfirst, hrest⟩ := List.pairwise_cons.mp hascending
    rcases hclear.base_lt_or List.mem_cons_self with hlow | hhigh
    · obtain ⟨lows, highs, rfl, hlows, hhighs⟩ := ih hrest hclear.of_cons
      exact ⟨first :: lows, highs, rfl, List.forall_mem_cons.mpr ⟨hlow, hlows⟩, hhighs⟩
    · refine ⟨[], first :: free, rfl, by simp, List.forall_mem_cons.mpr ⟨hhigh, ?_⟩⟩
      exact fun block hmem ↦ hhigh.trans (hfirst block hmem)

section Split

variable {lows highs : List Extent} (hlows : ∀ block ∈ lows, block.base < chunk.base)
  (hhighs : ∀ block ∈ highs, chunk.base < block.base)

include hlows hhighs

theorem below_append : below chunk (lows ++ highs) = lows.length := by
  have hlow : lows.countP (fun block ↦ block.base < chunk.base) = lows.length :=
    List.countP_eq_length.mpr fun block hmem ↦ decide_eq_true (hlows block hmem)
  have hhigh : highs.countP (fun block ↦ block.base < chunk.base) = 0 :=
    List.countP_eq_zero.mpr fun block hmem ↦ by simpa using (hhighs block hmem).le
  rw [below, List.countP_append, hlow, hhigh, Nat.add_zero]

theorem above_append : above chunk (lows ++ highs) = highs.length := by
  have hlow : lows.countP (fun block ↦ chunk.base < block.base) = 0 :=
    List.countP_eq_zero.mpr fun block hmem ↦ by simpa using (hlows block hmem).le
  have hhigh : highs.countP (fun block ↦ chunk.base < block.base) = highs.length :=
    List.countP_eq_length.mpr fun block hmem ↦ decide_eq_true (hhighs block hmem)
  rw [above, List.countP_append, hlow, hhigh, Nat.zero_add]

omit hlows in
theorem release_front (hne : highs ≠ []) : release chunk highs = some (chunk :: highs) := by
  match highs, hne with
  | [first], _ => exact if_pos (hhighs first List.mem_cons_self)
  | first :: next :: rest, _ => exact if_pos (hhighs first List.mem_cons_self)

/-- The loop never stops at a block below the chunk. -/
theorem place_append :
    place chunk (lows ++ highs) =
      match highs with
      | current :: next :: after => some (lows ++ insertAfter chunk current (next :: after))
      | _ => none := by
  induction lows with
  | nil =>
    match highs with
    | [] => rfl
    | [_] => rfl
    | current :: next :: after =>
      have hcurrent := hhighs current List.mem_cons_self
      have hnext := hhighs next (List.mem_cons_of_mem _ List.mem_cons_self)
      exact if_pos ⟨hcurrent.le, hnext.le⟩
  | cons first lows ih =>
    have hfirst := hlows first List.mem_cons_self
    have ih := ih fun block hmem ↦ hlows block (List.mem_cons_of_mem _ hmem)
    rw [List.cons_append]
    generalize hrest : lows ++ highs = rest at ih ⊢
    match rest with
    | [] =>
      obtain ⟨rfl, rfl⟩ := List.append_eq_nil_iff.mp hrest
      rfl
    | next :: rest =>
      rw [place, if_neg fun h ↦ absurd h.1 (not_le.mpr hfirst), ih]
      match highs with
      | [] => rfl
      | [_] => rfl
      | current :: next :: after => rfl

omit hlows in
theorem release_single (hfirst : current.base < chunk.base) (hne : highs ≠ []) :
    release chunk (current :: highs) = some (insertAfter chunk current highs) := by
  match highs, hne with
  | next :: rest, _ =>
    have hnext := hhighs next List.mem_cons_self
    rw [release, if_neg hfirst.le.not_gt, if_pos hnext.le]

/-- With two blocks below the chunk it goes after the first block above it, if there is another. -/
theorem release_many (hlength : 2 ≤ lows.length) :
    release chunk (lows ++ highs) =
      match highs with
      | current :: next :: after => some (lows ++ insertAfter chunk current (next :: after))
      | _ => none := by
  match lows, hlength with
  | first :: second :: lows, _ =>
    have hfirst := hlows first List.mem_cons_self
    have hsecond := hlows second (List.mem_cons_of_mem _ List.mem_cons_self)
    have hplace := place_append
      (fun block hmem ↦ hlows block (List.mem_cons_of_mem _ hmem)) hhighs
    rw [List.cons_append] at hplace
    rw [List.cons_append, List.cons_append, release, if_neg hfirst.le.not_gt,
      if_neg (not_le.mpr hsecond), hplace]
    match highs with
    | [] => rfl
    | [_] => rfl
    | current :: next :: after => rfl

end Split

/-! ## When a release keeps the order -/

theorem ascending_of_released (hpos : ∀ block ∈ free, 0 < block.length)
    (hclear : Clear chunk free) (hdisjoint : free.Pairwise fun first second ↦
      first.stop ≤ second.base ∨ second.stop ≤ first.base)
    (h : Released chunk free free') (hascending : Ascending free') : Ascending free := by
  cases h with
  | front => exact (List.pairwise_cons.mp hascending).2
  | between before after current hfree =>
    subst hfree
    refine hascending.sublist ?_
    exact (List.Sublist.refl before).append ((List.sublist_cons_self chunk after).cons_cons current)
  | joined before after current next hfree htouch =>
    subst hfree
    unfold Ascending at hascending ⊢
    simp only [List.pairwise_append, List.pairwise_cons, List.mem_cons, forall_eq_or_imp,
      join_base] at hascending hdisjoint ⊢
    obtain ⟨hbefore, ⟨⟨hcurrent, hcurrentAfter⟩, hchunkAfter, hafter⟩, hcross⟩ := hascending
    obtain ⟨-, ⟨⟨-, -⟩, hnextAfter, -⟩, -⟩ := hdisjoint
    have hnext : chunk.base < next.base := by
      have := hclear.chunk_pos
      simp only [stop] at htouch
      omega
    refine ⟨hbefore, ⟨⟨hcurrent.trans hnext, hcurrentAfter⟩, fun block hmem ↦ ?_, hafter⟩,
      fun block hmem ↦ ?_⟩
    · have hblock := hpos block (by simp [hmem])
      have hchunk := hchunkAfter block hmem
      rcases hnextAfter block hmem with hapart | hapart
      · have hnextPos := hpos next (by simp)
        simp only [stop] at hapart
        omega
      · have hin : block ∈ before ++ current :: next :: after := by simp [hmem]
        have hstop := hclear.stop_le hin hchunk
        simp only [stop] at hapart htouch hstop
        omega
    · obtain ⟨hcurrentBefore, hchunkBefore, hafterBefore⟩ := hcross block hmem
      exact ⟨hcurrentBefore, hchunkBefore.trans hnext, hafterBefore⟩

/-- Cutting the low end off a block moves its base, but not past the next block. -/
theorem ascending_upper (hascending : Ascending (before ++ block :: after))
    (hdisjoint : (before ++ block :: after).Pairwise fun first second ↦
      first.stop ≤ second.base ∨ second.stop ≤ first.base)
    (hsize : size < block.length) : Ascending (before ++ block.upper size :: after) := by
  unfold Ascending at hascending ⊢
  simp only [List.pairwise_append, List.pairwise_cons, List.forall_mem_cons] at hascending hdisjoint ⊢
  obtain ⟨hbefore, ⟨hblock, hafter⟩, hcross⟩ := hascending
  obtain ⟨-, ⟨hapart, -⟩, -⟩ := hdisjoint
  refine ⟨hbefore, ⟨fun next hnext ↦ ?_, hafter⟩, fun first hfirst ↦ ⟨?_, (hcross first hfirst).2⟩⟩
  · have hlt := hblock next hnext
    have hnextApart := hapart next hnext
    simp only [stop, upper_base] at hnextApart ⊢
    omega
  · exact (hcross first hfirst).1.trans_le (Nat.le_add_right _ _)

theorem ascending_insertAfter {highs : List Extent} (hascending : Ascending (current :: highs))
    (hcurrent : current.base < chunk.base) (hhighs : ∀ block ∈ highs, chunk.base < block.base) :
    Ascending (insertAfter chunk current highs) := by
  obtain ⟨hfirst, hrest⟩ := List.pairwise_cons.mp hascending
  match highs with
  | [] => exact List.pairwise_pair.mpr hcurrent
  | next :: rest =>
    obtain ⟨-, hafter⟩ := List.pairwise_cons.mp hrest
    have hfirst' := fun block hmem ↦ hfirst block (List.mem_cons_of_mem next hmem)
    have hhighs' := fun block hmem ↦ hhighs block (List.mem_cons_of_mem next hmem)
    by_cases htouch : chunk.stop = next.base
    · rw [insertAfter_of_touch htouch]
      exact List.pairwise_cons.mpr ⟨List.forall_mem_cons.mpr ⟨hcurrent, hfirst'⟩,
        List.pairwise_cons.mpr ⟨hhighs', hafter⟩⟩
    · rw [insertAfter_of_ne htouch]
      exact List.pairwise_cons.mpr ⟨List.forall_mem_cons.mpr ⟨hcurrent, hfirst⟩,
        List.pairwise_cons.mpr ⟨hhighs, hrest⟩⟩

theorem not_ascending_insertAfter (h : chunk.base < current.base) :
    ¬ Ascending (before ++ insertAfter chunk current (next :: after)) := by
  intro hascending
  have htail := (List.pairwise_append.mp hascending).2.1
  by_cases htouch : chunk.stop = next.base
  · rw [insertAfter_of_touch htouch] at htail
    exact lt_asymm h ((List.pairwise_cons.mp htail).1 (chunk.join next) List.mem_cons_self)
  · rw [insertAfter_of_ne htouch] at htail
    exact lt_asymm h ((List.pairwise_cons.mp htail).1 _ List.mem_cons_self)

/-- A release leaves an ascending list exactly when it starts from one and at most one free block
lies below the chunk. -/
theorem exists_release_ascending_iff (hclear : Clear chunk free)
    (hdisjoint : free.Pairwise fun first second ↦
      first.stop ≤ second.base ∨ second.stop ≤ first.base)
    (habove : 0 < above chunk free) :
    (∃ free', release chunk free = some free' ∧ Ascending free') ↔
      Ascending free ∧ below chunk free ≤ 1 := by
  constructor
  · rintro ⟨free', hrelease, hascending'⟩
    have hascending := ascending_of_released hclear.block_pos hclear hdisjoint
      (release_cases hrelease) hascending'
    refine ⟨hascending, ?_⟩
    obtain ⟨lows, highs, rfl, hlows, hhighs⟩ := exists_lows_highs hascending hclear
    rw [below_append hlows hhighs]
    by_contra hlength
    rw [release_many hlows hhighs (by omega)] at hrelease
    match highs with
    | [] => cases hrelease
    | [_] => cases hrelease
    | current :: next :: after =>
      obtain rfl := Option.some.inj hrelease
      exact not_ascending_insertAfter (hhighs current List.mem_cons_self) hascending'
  · rintro ⟨hascending, hbelow⟩
    obtain ⟨lows, highs, rfl, hlows, hhighs⟩ := exists_lows_highs hascending hclear
    rw [below_append hlows hhighs] at hbelow
    rw [above_append hlows hhighs] at habove
    have hne : highs ≠ [] := List.ne_nil_of_length_pos habove
    match lows, hbelow with
    | [], _ =>
      exact ⟨chunk :: highs, release_front hhighs hne, List.pairwise_cons.mpr ⟨hhighs, hascending⟩⟩
    | [first], _ =>
      have hfirst := hlows first List.mem_cons_self
      exact ⟨insertAfter chunk first highs, release_single hhighs hfirst hne,
        ascending_insertAfter hascending hfirst hhighs⟩

/-! ## When a release leaves no two touching blocks -/

theorem Separated.perm (h : Separated free) (hperm : free.Perm free') : Separated free' :=
  fun first hfirst second hsecond ↦
    h first (hperm.mem_iff.mpr hfirst) second (hperm.mem_iff.mpr hsecond)

theorem separated_cons_iff (hpos : 0 < chunk.length) :
    Separated (chunk :: free) ↔ Separated free ∧
      (∀ block ∈ free, block.stop ≠ chunk.base) ∧ ∀ block ∈ free, chunk.stop ≠ block.base := by
  have hself : chunk.stop ≠ chunk.base := by simp only [stop]; omega
  simp only [Separated, List.forall_mem_cons]
  constructor
  · rintro ⟨⟨-, hchunk⟩, hfree⟩
    exact ⟨fun first hfirst ↦ (hfree first hfirst).2, fun first hfirst ↦ (hfree first hfirst).1, hchunk⟩
  · rintro ⟨hfree, hbelow, habove⟩
    exact ⟨⟨hself, habove⟩, fun first hfirst ↦ ⟨hbelow first hfirst, hfree first hfirst⟩⟩

/-- A block above the chunk cannot end where the chunk begins. -/
theorem stop_ne_of_base_lt (h : chunk.base < block.base) : block.stop ≠ chunk.base := by
  simp only [stop]
  omega

theorem separated_join_iff (hseparated : Separated (current :: next :: after))
    (hclear : Clear chunk (current :: next :: after)) (hnext : chunk.base < next.base)
    (hafter : ∀ block ∈ after, chunk.base < block.base) (htouch : chunk.stop = next.base) :
    Separated (current :: chunk.join next :: after) ↔
      ∀ block ∈ current :: next :: after, block.stop ≠ chunk.base := by
  have hstop : (chunk.join next).stop = next.stop := join_stop htouch
  have hmem : next ∈ current :: next :: after := List.mem_cons_of_mem _ List.mem_cons_self
  have hkeep : ∀ block ∈ current :: after, block ∈ current :: next :: after := by
    intro block hblock
    rcases List.mem_cons.mp hblock with rfl | hblock
    · exact List.mem_cons_self
    · exact List.mem_cons_of_mem _ (List.mem_cons_of_mem _ hblock)
  have hperm : (chunk.join next :: current :: after).Perm (current :: chunk.join next :: after) :=
    List.Perm.swap _ _ _
  have hpos : 0 < (chunk.join next).length := by
    have := hclear.chunk_pos
    simp only [join_length]
    omega
  have hrest : Separated (current :: after) := fun first hfirst second hsecond ↦
    hseparated first (hkeep first hfirst) second (hkeep second hsecond)
  constructor
  · intro h
    obtain ⟨-, hbelow, -⟩ := (separated_cons_iff hpos).mp (h.perm hperm.symm)
    rw [List.forall_mem_cons, List.forall_mem_cons]
    exact ⟨hbelow current List.mem_cons_self, stop_ne_of_base_lt hnext,
      fun block hblock ↦ stop_ne_of_base_lt (hafter block hblock)⟩
  · intro h
    refine ((separated_cons_iff hpos).mpr ⟨hrest, fun block hblock ↦ h block (hkeep block hblock),
      fun block hblock ↦ ?_⟩).perm hperm
    rw [hstop]
    exact hseparated next hmem block (hkeep block hblock)

theorem separated_insertAfter_iff (hascending : Ascending (current :: next :: after))
    (hseparated : Separated (current :: next :: after))
    (hclear : Clear chunk (current :: next :: after)) (hcurrent : current.base < chunk.base)
    (hhighs : ∀ block ∈ next :: after, chunk.base < block.base) :
    Separated (insertAfter chunk current (next :: after)) ↔
      ∀ block ∈ current :: next :: after, block.stop ≠ chunk.base := by
  obtain ⟨hnext, hafter⟩ := List.forall_mem_cons.mp hhighs
  by_cases htouch : chunk.stop = next.base
  · rw [insertAfter_of_touch htouch]
    exact separated_join_iff hseparated hclear hnext hafter htouch
  · rw [insertAfter_of_ne htouch]
    have hperm : (chunk :: current :: next :: after).Perm (current :: chunk :: next :: after) :=
      List.Perm.swap _ _ _
    have hstop : chunk.stop ≤ next.base :=
      hclear.stop_le (List.mem_cons_of_mem _ List.mem_cons_self) hnext
    have hchunk : ∀ block ∈ current :: next :: after, chunk.stop ≠ block.base := by
      rw [List.forall_mem_cons, List.forall_mem_cons]
      refine ⟨fun h ↦ ?_, htouch, fun block hblock h ↦ ?_⟩
      · simp only [stop] at h
        omega
      · have hlt := (List.pairwise_cons.mp (List.pairwise_cons.mp hascending).2).1 block hblock
        omega
    constructor
    · intro h
      exact ((separated_cons_iff hclear.chunk_pos).mp (h.perm hperm.symm)).2.1
    · intro h
      exact ((separated_cons_iff hclear.chunk_pos).mpr ⟨hseparated, h, hchunk⟩).perm hperm

theorem perm_insert_second (before after : List Extent) (current chunk : Extent) :
    (chunk :: (before ++ current :: after)).Perm (before ++ current :: chunk :: after) := by
  have hmiddle : (before ++ chunk :: current :: after).Perm (chunk :: (before ++ current :: after)) :=
    List.perm_middle
  exact hmiddle.symm.trans ((List.Perm.swap current chunk after).append_left before)

/-- After a release no block touches another exactly when no free block ends at the chunk, a free
block that begins at its end has just one block before it, and the search for a place ends. -/
theorem exists_release_separated_iff (hclear : Clear chunk free) (hascending : Ascending free)
    (hseparated : Separated free) (habove : 0 < above chunk free) :
    (∃ free', release chunk free = some free' ∧ Separated free') ↔
      (∀ block ∈ free, block.stop ≠ chunk.base) ∧
      (∀ block ∈ free, chunk.stop = block.base → below chunk free = 1) ∧
      (below chunk free ≤ 1 ∨ 2 ≤ above chunk free) := by
  obtain ⟨lows, highs, rfl, hlows, hhighs⟩ := exists_lows_highs hascending hclear
  rw [below_append hlows hhighs, above_append hlows hhighs] at *
  have hne : highs ≠ [] := List.ne_nil_of_length_pos habove
  match lows with
  | [] =>
    have hrelease : release chunk ([] ++ highs) = some (chunk :: highs) :=
      release_front hhighs hne
    rw [hrelease]
    simp only [Option.some.injEq, exists_eq_left', separated_cons_iff hclear.chunk_pos]
    simp only [List.nil_append] at hseparated ⊢
    simp [hseparated]
  | [first] =>
    have hfirst := hlows first List.mem_cons_self
    match highs, hne with
    | next :: after, hne =>
      have hrelease : release chunk ([first] ++ next :: after) =
          some (insertAfter chunk first (next :: after)) := release_single hhighs hfirst hne
      rw [hrelease]
      simp only [Option.some.injEq, exists_eq_left']
      have hiff := separated_insertAfter_iff hascending hseparated hclear hfirst hhighs
      simpa using hiff
  | first :: second :: lows =>
    rw [release_many hlows hhighs (by simp)]
    match highs with
    | [] => simp at habove
    | [_] => simp
    | current :: next :: after =>
      have hcurrent := hhighs current List.mem_cons_self
      have htail := (List.pairwise_append.mp hascending).2.1
      have hlt := (List.pairwise_cons.mp htail).1 next List.mem_cons_self
      have hstop : chunk.stop ≤ current.base := hclear.stop_le (by simp) hcurrent
      have hperm := perm_insert_second (first :: second :: lows) (next :: after) current chunk
      simp only [insertAfter_of_ne (show chunk.stop ≠ next.base by omega), Option.some.injEq,
        exists_eq_left']
      constructor
      · intro h
        obtain ⟨-, hbelow, hchunk⟩ := (separated_cons_iff hclear.chunk_pos).mp (h.perm hperm.symm)
        exact ⟨hbelow, fun block hblock heq ↦ absurd heq (hchunk block hblock), Or.inr (by simp)⟩
      · rintro ⟨hbelow, hchunk, -⟩
        have hne : ∀ block ∈ first :: second :: lows ++ current :: next :: after,
            chunk.stop ≠ block.base := fun block hblock heq ↦ by simpa using hchunk block hblock heq
        exact ((separated_cons_iff hclear.chunk_pos).mpr ⟨hseparated, hbelow, hne⟩).perm hperm

/-- Giving back what was just cut off restores the list only for the second block. -/
theorem release_lower_eq_iff (hascending : Ascending (before ++ block :: after)) (hpos : 0 < size)
    (hsize : size < block.length) :
    release (block.lower size) (before ++ block.upper size :: after) =
      some (before ++ block :: after) ↔ before.length = 1 := by
  obtain ⟨-, htail, hcross⟩ := List.pairwise_append.mp hascending
  have hlows : ∀ first ∈ before, first.base < (block.lower size).base := fun first hfirst ↦
    hcross first hfirst block List.mem_cons_self
  have hhighs : ∀ next ∈ block.upper size :: after, (block.lower size).base < next.base := by
    refine List.forall_mem_cons.mpr ⟨?_, (List.pairwise_cons.mp htail).1⟩
    simp only [lower_base, upper_base]
    omega
  have hne : block.upper size :: after ≠ [] := by simp
  have hupper : block.upper size ≠ block := fun h ↦ by
    have := congrArg Extent.base h
    simp only [upper_base] at this
    omega
  match before with
  | [] =>
    have hrelease := release_front hhighs hne
    rw [List.nil_append, hrelease]
    have hlower : block.lower size ≠ block := fun h ↦ hsize.ne (congrArg Extent.length h)
    simp [hlower]
  | [first] =>
    have hrelease := release_single hhighs (hlows first List.mem_cons_self) hne
    have htouch : (block.lower size).stop = (block.upper size).base := rfl
    simp only [List.cons_append, List.nil_append, hrelease, insertAfter_of_touch htouch,
      lower_join_upper hsize.le, List.length_cons, List.length_nil]
  | first :: second :: before =>
    rw [release_many hlows hhighs (by simp)]
    match after with
    | [] => simp
    | next :: after =>
      by_cases htouch : (block.lower size).stop = next.base
      · simp [insertAfter_of_touch htouch, hupper]
      · simp [insertAfter_of_ne htouch, hupper]

end PenelopeOS.Memory
