import Mathlib.Data.Set.Lattice
import Mathlib.Order.CompletePartialOrder
import Mathlib.Data.List.Pairwise

/-!
# Tilings of a set by a list of parts

A list of parts tiles a region when the parts are pairwise disjoint and together hold exactly the
points of the region. Splitting a part in two and joining two parts into one keep a tiling, and so
does any reordering, so an algorithm that only splits, joins and moves parts never loses or
duplicates a point.
-/

namespace PenelopeOS.Foundation

variable {α β : Type*}

structure Tiles (points : β → Set α) (parts : List β) (region : Set α) : Prop where
  disjoint : parts.Pairwise fun first second ↦ Disjoint (points first) (points second)
  cover : ∀ point, point ∈ region ↔ ∃ part ∈ parts, point ∈ points part

namespace Tiles

variable {points : β → Set α} {parts parts' rest : List β} {whole lower upper part other : β}
  {region : Set α}

theorem perm (h : Tiles points parts region) (hperm : parts.Perm parts') :
    Tiles points parts' region where
  disjoint := (hperm.pairwise_iff fun hd ↦ hd.symm).mp h.disjoint
  cover point := by
    rw [h.cover]
    exact exists_congr fun part ↦ and_congr_left' hperm.mem_iff

theorem split (h : Tiles points (whole :: rest) region)
    (hunion : points lower ∪ points upper = points whole)
    (hdisjoint : Disjoint (points lower) (points upper)) :
    Tiles points (lower :: upper :: rest) region := by
  obtain ⟨hwhole, hrest⟩ := List.pairwise_cons.mp h.disjoint
  have hlower : points lower ≤ points whole := hunion ▸ Set.subset_union_left
  have hupper : points upper ≤ points whole := hunion ▸ Set.subset_union_right
  refine ⟨?_, fun point ↦ ?_⟩
  · simp only [List.pairwise_cons, List.forall_mem_cons]
    exact ⟨⟨hdisjoint, fun part hpart ↦ (hwhole part hpart).mono_left hlower⟩,
      fun part hpart ↦ (hwhole part hpart).mono_left hupper, hrest⟩
  · rw [h.cover]
    simp only [List.mem_cons, or_and_right, exists_or, exists_eq_left, ← hunion, Set.mem_union, or_assoc]

theorem join (h : Tiles points (lower :: upper :: rest) region)
    (hunion : points whole = points lower ∪ points upper) :
    Tiles points (whole :: rest) region := by
  obtain ⟨hlower, htail⟩ := List.pairwise_cons.mp h.disjoint
  obtain ⟨hupper, hrest⟩ := List.pairwise_cons.mp htail
  refine ⟨List.pairwise_cons.mpr ⟨fun part hpart ↦ ?_, hrest⟩, fun point ↦ ?_⟩
  · rw [hunion, Set.disjoint_union_left]
    exact ⟨hlower part (List.mem_cons_of_mem _ hpart), hupper part hpart⟩
  · rw [h.cover]
    simp only [List.mem_cons, or_and_right, exists_or, exists_eq_left, hunion, Set.mem_union, or_assoc]

theorem subset (h : Tiles points parts region) (hpart : part ∈ parts) : points part ⊆ region :=
  fun point hpoint ↦ (h.cover point).mpr ⟨part, hpart, hpoint⟩

theorem disjoint_of_ne (h : Tiles points parts region) (hpart : part ∈ parts)
    (hother : other ∈ parts) (hne : part ≠ other) : Disjoint (points part) (points other) :=
  have : Std.Symm fun first second ↦ Disjoint (points first) (points second) :=
    ⟨fun _ _ hd ↦ hd.symm⟩
  h.disjoint.forall hpart hother hne

/-- Nonempty parts of a tiling never repeat. -/
theorem nodup (h : Tiles points parts region) (hne : ∀ part ∈ parts, (points part).Nonempty) :
    parts.Nodup := by
  apply h.disjoint.imp_of_mem
  intro first second hfirst _ hdisjoint heq
  subst heq
  exact (hne first hfirst).ne_empty (disjoint_self.mp hdisjoint)

/-- A common point identifies a part. -/
theorem eq_of_mem (h : Tiles points parts region) (hpart : part ∈ parts) (hother : other ∈ parts)
    {point : α} (hin : point ∈ points part) (hin' : point ∈ points other) : part = other := by
  by_contra hne
  exact Set.disjoint_left.mp (h.disjoint_of_ne hpart hother hne) hin hin'

end Tiles

end PenelopeOS.Foundation
