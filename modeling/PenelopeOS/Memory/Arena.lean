import PenelopeOS.Memory.BlockHeaders
import PenelopeOS.Memory.FreeList

/-!
# The arena: free blocks and live chunks over the usable memory

An `Arena` divides the usable memory into the blocks of the free list and the chunks that clients
hold. It says what the allocator is for without headers or addresses of headers, and its fields are
the invariant: no byte is lost or owned twice, every extent is a whole number of granules, and the
top of every usable block is free. The last field holds because a chunk is always cut from the low
end of a block that stays on the list; it is why a live chunk always has a free block above it.
-/

namespace PenelopeOS.Memory

open Machine Foundation Extent

/-- The usable blocks as they are mapped, and the code that `free` compares against. -/
structure Layout where
  blocks : List Extent
  getHeadAddress : Word
  sorted : blocks.Pairwise fun first second ↦ first.stop ≤ second.base
  granular : ∀ block ∈ blocks, Granular block
  code_pos : 0 < getHeadAddress.toNat
  code_apart : ∀ block ∈ blocks,
    getHeadAddress.toNat < block.base ∨ block.stop < getHeadAddress.toNat

namespace Layout

variable (layout : Layout)

def region : Set ℕ := {address | ∃ block ∈ layout.blocks, address ∈ block.bytes}

theorem ascending : Ascending layout.blocks := by
  apply layout.sorted.imp_of_mem
  intro first second hfirst _ hstop
  have := (layout.granular first hfirst).length_pos
  simp only [stop] at hstop
  omega

theorem disjoint :
    layout.blocks.Pairwise fun first second ↦ Disjoint first.bytes second.bytes := by
  apply layout.sorted.imp_of_mem
  intro first second hfirst hsecond hstop
  exact (disjoint_iff (layout.granular first hfirst).length_pos
    (layout.granular second hsecond).length_pos).mpr (Or.inl hstop)

end Layout

structure Arena (layout : Layout) where
  free : List Extent
  live : List Extent
  tiles : Tiles bytes (free ++ live) layout.region
  granular : ∀ extent ∈ free ++ live, Granular extent
  capped : ∀ block ∈ layout.blocks, ∃ extent ∈ free, extent.stop = block.stop

namespace Arena

variable {layout : Layout}

/-- Before the first request everything is free. -/
def start (layout : Layout) : Arena layout where
  free := layout.blocks
  live := []
  tiles := by
    rw [List.append_nil]
    exact ⟨layout.disjoint, fun _ ↦ Iff.rfl⟩
  granular := by
    rw [List.append_nil]
    exact layout.granular
  capped block hblock := ⟨block, hblock, rfl⟩

variable (arena : Arena layout) {before after free' rest : List Extent}
  {block chunk extent : Extent} {size : ℕ} {memory : Memory} {mptr : Word}

/-- Hand out the low end of a free block. -/
def cut (hfree : arena.free = before ++ block :: after) (hdvd : 16 ∣ size) (hpos : 0 < size)
    (hsize : size < block.length) : Arena layout where
  free := before ++ block.upper size :: after
  live := block.lower size :: arena.live
  tiles := by
    have htiles := arena.tiles
    rw [hfree, List.append_assoc, List.cons_append] at htiles
    have hcut := (htiles.perm List.perm_middle).cut hsize.le
    apply hcut.perm
    rw [List.append_assoc, List.cons_append]
    refine List.Perm.trans ?_ List.perm_middle.symm
    refine (List.Perm.swap _ _ _).trans (List.Perm.cons _ ?_)
    rw [← List.append_assoc, ← List.append_assoc]
    exact List.perm_middle.symm
  granular := by
    have hgranular := arena.granular
    have hblock := hgranular block (by simp [hfree])
    intro extent hmem
    simp only [List.mem_append, List.mem_cons] at hmem
    rcases hmem with (hmem | rfl | hmem) | rfl | hmem
    · exact hgranular extent (by simp [hfree, hmem])
    · exact hblock.upper hdvd hsize
    · exact hgranular extent (by simp [hfree, hmem])
    · exact hblock.lower hdvd hpos hsize
    · exact hgranular extent (by simp [hmem])
  capped usable husable := by
    obtain ⟨extent, hmem, hstop⟩ := arena.capped usable husable
    rw [hfree] at hmem
    by_cases hextent : extent = block
    · subst hextent
      exact ⟨extent.upper size, by simp, (upper_stop hsize.le).trans hstop⟩
    · refine ⟨extent, ?_, hstop⟩
      simp only [List.mem_append, List.mem_cons, hextent, false_or] at hmem ⊢
      exact hmem.imp_right Or.inr

theorem disjoint_of_live (hchunk : chunk ∈ arena.live) (hblock : block ∈ arena.free) :
    Disjoint block.bytes chunk.bytes :=
  (List.pairwise_append.mp arena.tiles.disjoint).2.2 block hblock chunk hchunk

theorem clear (hchunk : chunk ∈ arena.live) : Clear chunk arena.free := by
  have hgranular := arena.granular chunk (List.mem_append_right _ hchunk)
  refine ⟨hgranular.length_pos, fun block hblock ↦ ?_, fun block hblock ↦ ?_⟩
  · exact (arena.granular block (List.mem_append_left _ hblock)).length_pos
  · exact (disjoint_iff (arena.granular block (List.mem_append_left _ hblock)).length_pos
      hgranular.length_pos).mp (arena.disjoint_of_live hchunk hblock)

theorem apart :
    arena.free.Pairwise fun first second ↦ first.stop ≤ second.base ∨ second.stop ≤ first.base := by
  refine (List.pairwise_append.mp arena.tiles.disjoint).1.imp_of_mem
    fun {first second} hfirst hsecond hdisjoint ↦ ?_
  exact (disjoint_iff (arena.granular first (List.mem_append_left _ hfirst)).length_pos
    (arena.granular second (List.mem_append_left _ hsecond)).length_pos).mp hdisjoint

/-- The top of the usable block that a chunk lies in is free. -/
theorem exists_cap (hchunk : chunk ∈ arena.live) :
    ∃ usable ∈ layout.blocks, ∃ extent ∈ arena.free, extent.stop = usable.stop ∧
      usable.base ≤ chunk.base ∧ chunk.stop ≤ extent.base := by
  have hclear := arena.clear hchunk
  have hpos := hclear.chunk_pos
  have hbase : chunk.base ∈ chunk.bytes := by simp only [mem_bytes, stop]; omega
  obtain ⟨usable, husable, hlow, hhigh⟩ :=
    arena.tiles.subset (List.mem_append_right _ hchunk) hbase
  obtain ⟨extent, hextent, hstop⟩ := arena.capped usable husable
  refine ⟨usable, husable, extent, hextent, hstop, hlow, ?_⟩
  exact (hclear.apart extent hextent).resolve_left (by omega)

theorem above_pos (hchunk : chunk ∈ arena.live) : 0 < above chunk arena.free := by
  obtain ⟨-, -, extent, hextent, -, -, hstop⟩ := arena.exists_cap hchunk
  have hpos := (arena.clear hchunk).chunk_pos
  refine List.countP_pos_iff.mpr ⟨extent, hextent, decide_eq_true ?_⟩
  simp only [stop] at hstop
  omega

/-- The sum that `free` compares with the address of the code is never that address. -/
theorem add_ne_code (hmem : extent ∈ arena.free ++ arena.live) (hstores : Stores memory mptr extent) :
    mptr + lengthOf memory mptr ≠ layout.getHeadAddress := by
  intro heq
  have hgranular := arena.granular extent hmem
  have hpos := hgranular.length_pos
  have hbound := hgranular.stop_le
  have hlast : extent.stop - 1 ∈ extent.bytes := by simp only [mem_bytes, stop]; omega
  obtain ⟨usable, husable, hlow, hhigh⟩ := arena.tiles.subset hmem hlast
  have hcode := layout.code_apart usable husable
  have hcodePos := layout.code_pos
  have hvalue := congrArg BitVec.toNat heq
  rw [BitVec.toNat_add, hstores.1, hstores.2] at hvalue
  simp only [stop] at hlow hhigh hbound hcode
  omega

theorem free_ne_nil (hblocks : layout.blocks ≠ []) : arena.free ≠ [] := by
  obtain ⟨block, hblock⟩ := List.exists_mem_of_ne_nil _ hblocks
  obtain ⟨extent, hextent, -⟩ := arena.capped block hblock
  exact List.ne_nil_of_mem hextent

/-- Take back a chunk, in any of the ways a release can end. -/
def release (hlive : arena.live.Perm (chunk :: rest)) (h : Released chunk arena.free free') :
    Arena layout where
  free := free'
  live := rest
  tiles := by
    have htiles := arena.tiles.perm ((hlive.append_left arena.free).trans List.perm_middle)
    cases h with
    | front => exact htiles
    | between before after current hfree =>
      rw [hfree] at htiles
      apply htiles.perm
      rw [← List.cons_append]
      exact (perm_insert_second before after current chunk).append_right rest
    | joined before after current next hfree htouch =>
      rw [hfree] at htiles
      have hfront : (chunk :: ((before ++ current :: next :: after) ++ rest)).Perm
          (chunk :: next :: ((before ++ current :: after) ++ rest)) := by
        apply List.Perm.cons _
        rw [← List.cons_append]
        exact (perm_insert_second before after current next).symm.append_right rest
      apply ((htiles.perm hfront).touch htouch).perm
      rw [← List.cons_append]
      exact (perm_insert_second before after current _).append_right rest
  granular := by
    have hmem : chunk ∈ arena.live := hlive.mem_iff.mpr List.mem_cons_self
    have hchunk := arena.granular chunk (List.mem_append_right _ hmem)
    have hfree : ∀ extent ∈ arena.free, Granular extent := fun extent hextent ↦
      arena.granular extent (List.mem_append_left _ hextent)
    have hrest : ∀ extent ∈ rest, Granular extent := fun extent hextent ↦
      arena.granular extent (List.mem_append_right _
        (hlive.mem_iff.mpr (List.mem_cons_of_mem _ hextent)))
    refine List.forall_mem_append.mpr ⟨?_, hrest⟩
    cases h with
    | front => exact List.forall_mem_cons.mpr ⟨hchunk, hfree⟩
    | between before after current heq =>
      rw [heq] at hfree
      intro extent hextent
      simp only [List.mem_append, List.mem_cons] at hextent hfree
      grind
    | joined before after current next heq htouch =>
      rw [heq] at hfree
      have hjoined : Granular (chunk.join next) := hchunk.join (hfree next (by simp)) htouch
      intro extent hextent
      simp only [List.mem_append, List.mem_cons] at hextent hfree
      grind
  capped usable husable := by
    obtain ⟨extent, hextent, hstop⟩ := arena.capped usable husable
    cases h with
    | front => exact ⟨extent, List.mem_cons_of_mem _ hextent, hstop⟩
    | between before after current hfree =>
      refine ⟨extent, ?_, hstop⟩
      rw [hfree] at hextent
      simp only [List.mem_append, List.mem_cons] at hextent ⊢
      tauto
    | joined before after current next hfree htouch =>
      rw [hfree] at hextent
      by_cases hnext : extent = next
      · subst hnext
        exact ⟨chunk.join extent, by simp, (join_stop htouch).trans hstop⟩
      · refine ⟨extent, ?_, hstop⟩
        simp only [List.mem_append, List.mem_cons] at hextent ⊢
        tauto

end Arena

end PenelopeOS.Memory
