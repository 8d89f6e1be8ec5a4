import Mathlib.Order.Interval.Set.Disjoint
import Mathlib.Data.List.Nodup
import Mathlib.Data.Finset.Card
import Mathlib.Data.Finset.Range
import Mathlib.Data.Set.Card
import Mathlib.Data.Set.Finite.Lattice
import Mathlib.Order.Interval.Finset.Nat
import PenelopeOS.Foundation.Tiling

/-!
# Extents of addresses

An extent is a half-open range of natural addresses given by its base and its length. Cutting an
extent at an offset and joining two touching extents are the two moves of a tiling by extents, and
a tiling of a region below a bound by nonempty extents has at most that many parts.
-/

namespace PenelopeOS.Foundation

structure Extent where
  base : ℕ
  length : ℕ
  deriving DecidableEq, Repr

namespace Extent

def stop (extent : Extent) : ℕ := extent.base + extent.length

def bytes (extent : Extent) : Set ℕ := Set.Ico extent.base extent.stop

/-- The first `size` addresses of an extent. -/
def lower (extent : Extent) (size : ℕ) : Extent := ⟨extent.base, size⟩

/-- What is left of an extent above its first `size` addresses. -/
def upper (extent : Extent) (size : ℕ) : Extent := ⟨extent.base + size, extent.length - size⟩

/-- The extent from the base of the first one that is as long as both together. -/
def join (first second : Extent) : Extent := ⟨first.base, first.length + second.length⟩

variable {extent first second : Extent} {size address : ℕ}

@[simp]
theorem mem_bytes : address ∈ extent.bytes ↔ extent.base ≤ address ∧ address < extent.stop :=
  Iff.rfl

@[simp] theorem lower_base : (extent.lower size).base = extent.base := rfl
@[simp] theorem lower_length : (extent.lower size).length = size := rfl
@[simp] theorem upper_base : (extent.upper size).base = extent.base + size := rfl
@[simp] theorem upper_length : (extent.upper size).length = extent.length - size := rfl
@[simp] theorem join_base : (first.join second).base = first.base := rfl
@[simp] theorem join_length : (first.join second).length = first.length + second.length := rfl

theorem upper_stop (h : size ≤ extent.length) : (extent.upper size).stop = extent.stop := by
  simp only [stop, upper]
  omega

theorem join_stop (h : first.stop = second.base) : (first.join second).stop = second.stop := by
  simp only [stop, join] at h ⊢
  omega

theorem lower_join_upper (h : size ≤ extent.length) :
    (extent.lower size).join (extent.upper size) = extent := by
  cases extent
  simp only [lower, upper, join, mk.injEq, true_and] at h ⊢
  omega

theorem bytes_nonempty (h : 0 < extent.length) : extent.bytes.Nonempty :=
  ⟨extent.base, by simp only [mem_bytes, stop]; omega⟩

theorem disjoint_iff (hfirst : 0 < first.length) (hsecond : 0 < second.length) :
    Disjoint first.bytes second.bytes ↔ first.stop ≤ second.base ∨ second.stop ≤ first.base := by
  rw [bytes, bytes, Set.Ico_disjoint_Ico]
  simp only [stop]
  omega

theorem subset_iff (hfirst : 0 < first.length) :
    first.bytes ⊆ second.bytes ↔ second.base ≤ first.base ∧ first.stop ≤ second.stop :=
  Set.Ico_subset_Ico_iff (Nat.lt_add_of_pos_right hfirst)

theorem lower_union_upper (h : size ≤ extent.length) :
    (extent.lower size).bytes ∪ (extent.upper size).bytes = extent.bytes := by
  ext address
  simp only [Set.mem_union, mem_bytes, stop, lower, upper]
  omega

theorem lower_subset (h : size ≤ extent.length) : (extent.lower size).bytes ⊆ extent.bytes :=
  lower_union_upper h ▸ Set.subset_union_left

theorem upper_subset (h : size ≤ extent.length) : (extent.upper size).bytes ⊆ extent.bytes :=
  lower_union_upper h ▸ Set.subset_union_right

theorem lower_disjoint_upper : Disjoint (extent.lower size).bytes (extent.upper size).bytes := by
  rw [Set.disjoint_left]
  intro address
  simp only [mem_bytes, stop, lower, upper]
  omega

theorem join_bytes (h : first.stop = second.base) :
    (first.join second).bytes = first.bytes ∪ second.bytes := by
  ext address
  simp only [Set.mem_union, mem_bytes, stop, join] at h ⊢
  omega

end Extent

open Extent

variable {extents rest : List Extent} {region : Set ℕ}

theorem Tiles.cut {whole : Extent} {size : ℕ} (h : Tiles bytes (whole :: rest) region)
    (hsize : size ≤ whole.length) :
    Tiles bytes (whole.lower size :: whole.upper size :: rest) region :=
  h.split (lower_union_upper hsize) lower_disjoint_upper

theorem Tiles.touch {first second : Extent} (h : Tiles bytes (first :: second :: rest) region)
    (htouch : first.stop = second.base) : Tiles bytes (first.join second :: rest) region :=
  h.join (join_bytes htouch)

/-- Nonempty parts of a tiling are told apart by their bases. -/
theorem Tiles.eq_of_base {first second : Extent} (h : Tiles bytes extents region)
    (hfirst : first ∈ extents) (hsecond : second ∈ extents) (hlength : 0 < first.length)
    (hlength' : 0 < second.length) (hbase : first.base = second.base) : first = second := by
  have hin : first.base ∈ first.bytes := by simp only [mem_bytes, stop]; omega
  have hin' : first.base ∈ second.bytes := by simp only [mem_bytes, stop]; omega
  exact h.eq_of_mem hfirst hsecond hin hin'

/-- A tiling of addresses below a bound by nonempty extents has at most as many parts. -/
theorem Tiles.length_le {bound : ℕ} (h : Tiles bytes extents region)
    (hlength : ∀ extent ∈ extents, 0 < extent.length) (hbound : ∀ address ∈ region, address < bound) :
    extents.length ≤ bound := by
  have hnodup : (extents.map base).Nodup := by
    refine (h.nodup fun extent hextent ↦ bytes_nonempty (hlength extent hextent)).map_on ?_
    intro first hfirst second hsecond hbase
    exact h.eq_of_base hfirst hsecond (hlength _ hfirst) (hlength _ hsecond) hbase
  have hsubset : (extents.map base).toFinset ⊆ Finset.range bound := by
    intro address haddress
    obtain ⟨extent, hextent, rfl⟩ := List.mem_map.mp (List.mem_toFinset.mp haddress)
    have hin : extent.base ∈ extent.bytes := by
      have := hlength extent hextent
      simp only [mem_bytes, stop]
      omega
    exact Finset.mem_range.mpr (hbound _ (h.subset hextent hin))
  calc
    extents.length = (extents.map base).toFinset.card := by
      rw [List.toFinset_card_of_nodup hnodup, List.length_map]
    _ ≤ (Finset.range bound).card := Finset.card_le_card hsubset
    _ = bound := Finset.card_range bound

theorem Extent.ncard_bytes (extent : Extent) : extent.bytes.ncard = extent.length := by
  rw [bytes, ← Finset.coe_Ico, Set.ncard_coe_finset, Nat.card_Ico, stop, Nat.add_sub_cancel_left]

/-- The lengths of the parts of a tiling add up to the number of its points. -/
theorem Tiles.sum_length (h : Tiles bytes extents region) :
    (extents.map length).sum = region.ncard := by
  induction extents generalizing region with
  | nil =>
    have hempty : region = ∅ := Set.eq_empty_iff_forall_notMem.mpr fun point hpoint ↦ by
      obtain ⟨part, hpart, -⟩ := (h.cover point).mp hpoint
      cases hpart
    rw [hempty, Set.ncard_empty, List.map_nil, List.sum_nil]
  | cons first extents ih =>
    obtain ⟨hfirst, hextents⟩ := List.pairwise_cons.mp h.disjoint
    set others : Set ℕ := {point | ∃ part ∈ extents, point ∈ part.bytes} with hothers
    have hrest : Tiles bytes extents others := ⟨hextents, fun _ ↦ Iff.rfl⟩
    have hregion : region = first.bytes ∪ others := by
      ext point
      rw [h.cover]
      simp [hothers]
    have hdisjoint : Disjoint first.bytes others := by
      refine Set.disjoint_right.mpr fun point hpoint ↦ ?_
      obtain ⟨part, hpart, hmem⟩ := hpoint
      exact Set.disjoint_right.mp (hfirst part hpart) hmem
    have hfinite : others.Finite := by
      refine (Set.Finite.biUnion (List.finite_toSet extents) fun part _ ↦
        Set.finite_Ico part.base part.stop).subset ?_
      rintro point ⟨part, hpart, hmem⟩
      exact Set.mem_biUnion hpart hmem
    rw [List.map_cons, List.sum_cons, ih hrest, hregion,
      Set.ncard_union_eq hdisjoint (Set.finite_Ico _ _) hfinite, first.ncard_bytes]

end PenelopeOS.Foundation
