import PenelopeOS.Memory.ByteCopies

/-!
# Filling and comparing bytes

`memset` fills a range that may go around the end of the address space. `memcmp` orders two ranges by
the first byte in which they differ. `memcpy` onto a destination inside of its source reads back what
it has written, so it repeats the bytes in front of the destination.
-/

namespace PenelopeOS.Memory

open Machine Foundation

/-- The loop of `memset` from byte `i` on. -/
def fillUpwards (p : Word) (c : BitVec 8) (n : Word) : ℕ → Word → Memory → Except Fault Memory
  | 0, _, _ => .error .divergence
  | fuel + 1, i, memory =>
    if i < n then fillUpwards p c n fuel (i + 1) (Function.update memory (p + i) c)
    else .ok memory

/-- The loop ends after `n` rounds. -/
def memset (s : Word) (c : BitVec 32) (n : Word) (memory : Memory) : Except Fault (Word × Memory) := do
  let memory ← fillUpwards s (c.setWidth 8) n (n.toNat + 1) 0 memory
  return (s, memory)

/-- The loop of `memcmp` from byte `i` on. -/
def compareUpwards (p1 p2 n : Word) (memory : Memory) : ℕ → Word → Except Fault ℤ
  | 0, _ => .error .divergence
  | fuel + 1, i =>
    if i < n then
      if memory (p1 + i) ≠ memory (p2 + i) then
        .ok (if memory (p1 + i) < memory (p2 + i) then -1 else 1)
      else compareUpwards p1 p2 n memory fuel (i + 1)
    else .ok 0

/-- The loop ends after `n` rounds at the latest. -/
def memcmp (s1 s2 n : Word) (memory : Memory) : Except Fault ℤ :=
  compareUpwards s1 s2 n memory (n.toNat + 1) 0

variable {dest src n : Word}

/-! ## Filling -/

theorem fillUpwards_eq {p : Word} {c : BitVec 8} {index remaining : ℕ} (memory : Memory)
    (hn : index + remaining = n.toNat) :
    fillUpwards p c n (remaining + 1) (BitVec.ofNat 64 index) memory =
      .ok fun location ↦
        if index ≤ (location - p).toNat ∧ location - p < n then c else memory location := by
  have hrange := n.isLt
  have hindex : (BitVec.ofNat 64 index).toNat = index := by
    rw [BitVec.toNat_ofNat]
    omega
  induction remaining generalizing index memory with
  | zero =>
    have hend : ¬ BitVec.ofNat 64 index < n := by
      rw [BitVec.lt_def]
      omega
    rw [fillUpwards, if_neg hend]
    congr 1
    funext location
    rw [if_neg]
    rintro ⟨hle, hlt⟩
    rw [BitVec.lt_def] at hlt
    omega
  | succ remaining ih =>
    have hlt : BitVec.ofNat 64 index < n := by
      rw [BitVec.lt_def]
      omega
    have hnext : (BitVec.ofNat 64 (index + 1)).toNat = index + 1 := by
      rw [BitVec.toNat_ofNat]
      omega
    rw [fillUpwards, if_pos hlt, ofNat_add_one, ih _ (by omega) hnext]
    congr 1
    funext location
    by_cases hhere : location = p + BitVec.ofNat 64 index
    · -- the byte of this round
      rw [hhere, Function.update_self, ite_self, add_sub_cancel_left, if_pos ⟨hindex.ge, hlt⟩]
    · have hne : (location - p).toNat ≠ index := by
        intro hsame
        apply hhere
        rw [← hsame, BitVec.ofNat_toNat, BitVec.setWidth_eq]
        exact (add_sub_cancel _ _).symm
      rw [Function.update_of_ne hhere]
      have hiff : (index + 1 ≤ (location - p).toNat ∧ location - p < n) ↔
          (index ≤ (location - p).toNat ∧ location - p < n) := by
        refine and_congr_left fun _ ↦ ?_
        omega
      rw [if_congr hiff rfl rfl]

/-- `memset` fills its range, also one that goes around the end of the address space, and nothing
else. -/
theorem memset_eq (s : Word) (c : BitVec 32) (n : Word) (memory : Memory) :
    memset s c n memory =
      .ok (s, fun location ↦ if location - s < n then c.setWidth 8 else memory location) := by
  have hrun : fillUpwards s (c.setWidth 8) n (n.toNat + 1) (BitVec.ofNat 64 0) memory = _ :=
    fillUpwards_eq memory (Nat.zero_add _)
  rw [memset, show (0 : Word) = BitVec.ofNat 64 0 from rfl, hrun, ok_bind]
  simp only [Nat.zero_le, true_and]
  rfl

/-! ## Comparing -/

/-- The bytes of a range in ascending order. -/
def bytesFrom (memory : Memory) (base : Word) (count : ℕ) : List (BitVec 8) :=
  (List.range count).map fun index ↦ memory (byteAt base index)

/-- The answer of `memcmp` for an order of its arguments. -/
def signOf : Ordering → ℤ
  | .lt => -1
  | .eq => 0
  | .gt => 1

theorem compare_of_ne {first second : BitVec 8} (h : first ≠ second) :
    compare first second = if first < second then .lt else .gt := by
  change (if first < second then _ else if first = second then _ else _) = _
  rw [if_neg h]

theorem compareUpwards_eq {p1 p2 : Word} {index remaining : ℕ} (memory : Memory)
    (hn : index + remaining = n.toNat) :
    compareUpwards p1 p2 n memory (remaining + 1) (BitVec.ofNat 64 index) =
      .ok (signOf (compare
        ((List.range' index remaining).map fun index ↦ memory (byteAt p1 index))
        ((List.range' index remaining).map fun index ↦ memory (byteAt p2 index)))) := by
  have hrange := n.isLt
  have hindex : (BitVec.ofNat 64 index).toNat = index := by
    rw [BitVec.toNat_ofNat]
    omega
  induction remaining generalizing index with
  | zero =>
    have hend : ¬ BitVec.ofNat 64 index < n := by
      rw [BitVec.lt_def]
      omega
    rw [compareUpwards, if_neg hend]
    rfl
  | succ remaining ih =>
    have hlt : BitVec.ofNat 64 index < n := by
      rw [BitVec.lt_def]
      omega
    have hnext : (BitVec.ofNat 64 (index + 1)).toNat = index + 1 := by
      rw [BitVec.toNat_ofNat]
      omega
    rw [compareUpwards, if_pos hlt, ofNat_add_one, ih (by omega) hnext, List.range'_succ, List.map_cons,
      List.map_cons, List.compare_cons_cons]
    change (if memory (byteAt p1 index) ≠ memory (byteAt p2 index) then _ else _) = _
    by_cases hsame : memory (byteAt p1 index) = memory (byteAt p2 index)
    · have hcompare : compare (memory (byteAt p1 index)) (memory (byteAt p2 index)) = .eq :=
        Std.LawfulEqOrd.compare_eq_iff_eq.mpr hsame
      rw [if_neg (not_not.mpr hsame), hcompare]
      rfl
    · rw [if_pos hsame, compare_of_ne hsame]
      change Except.ok (if memory (byteAt p1 index) < memory (byteAt p2 index) then _ else _) = _
      split_ifs <;> rfl

/-- `memcmp` is the lexicographic order of the bytes of its two ranges, which may go around the end
of the address space and overlap in any way. -/
theorem memcmp_eq (s1 s2 n : Word) (memory : Memory) :
    memcmp s1 s2 n memory =
      .ok (signOf (compare (bytesFrom memory s1 n.toNat) (bytesFrom memory s2 n.toNat))) := by
  have hrun : compareUpwards s1 s2 n memory (n.toNat + 1) (BitVec.ofNat 64 0) = _ :=
    compareUpwards_eq memory (Nat.zero_add _)
  rw [← List.range_eq_range'] at hrun
  exact hrun

/-! ## Copying upwards onto itself -/

section Overlap

variable (hdest : dest.toNat + n.toNat ≤ 2 ^ 64) (hsrc : src.toNat + n.toNat ≤ 2 ^ 64)

include hdest

/-- Whatever is copied upwards, no byte outside of the destination changes. -/
theorem copyUpwards_outside (memory : Memory) {location : Word}
    (houtside : ¬ (dest.toNat ≤ location.toNat ∧ location.toNat < dest.toNat + n.toNat)) :
    transfer memory ((List.range n.toNat).map (moveAt (byteAt dest) (byteAt src))) location =
      memory location := by
  refine transfer_of_forall_ne memory fun move hmove ↦ ?_
  obtain ⟨index, hindex, rfl⟩ := List.mem_map.mp hmove
  rintro rfl
  apply houtside
  have hbyte := toNat_byteAt hdest (List.mem_range.mp hindex)
  rw [List.mem_range] at hindex
  simp only [moveAt]
  omega

/-- A destination above the source repeats the bytes between the two addresses. -/
theorem memcpy_above (memory : Memory) (habove : src.toNat < dest.toNat) :
    ∃ memory', memcpy dest src n memory = .ok (dest, memory') ∧
      (∀ index < n.toNat, memory' (byteAt dest index) =
        memory (byteAt src (index % (dest.toNat - src.toNat)))) ∧
      ∀ location : Word,
        ¬ (dest.toNat ≤ location.toNat ∧ location.toNat < dest.toNat + n.toNat) →
          memory' location = memory location := by
  set shift := dest.toNat - src.toNat with hshift
  have hrow : byteAt dest = fun index ↦ byteAt src (shift + index) := by
    funext index
    apply BitVec.eq_of_toNat_eq
    simp only [byteAt, BitVec.toNat_add, BitVec.toNat_ofNat]
    omega
  have hdistinct (lower upper : ℕ) (hlt : lower < upper) (hupper : upper < shift + n.toNat) :
      byteAt src lower ≠ byteAt src upper := by
    intro heq
    have hvalue := congrArg BitVec.toNat heq
    simp only [byteAt, BitVec.toNat_add, BitVec.toNat_ofNat] at hvalue
    omega
  have hrun : copyUpwards dest src n (n.toNat + 1) (BitVec.ofNat 64 0) memory = _ :=
    copyUpwards_eq memory (Nat.zero_add _)
  rw [← List.range_eq_range'] at hrun
  refine ⟨_, congrArg (· >>= _) hrun, fun index hindex ↦ ?_, fun location houtside ↦ ?_⟩
  · have hbytes := transfer_shifted memory (by omega) hdistinct
      (show shift + index < shift + n.toNat by omega)
    rw [Nat.add_mod_left] at hbytes
    rw [hrow]
    exact hbytes
  · exact copyUpwards_outside hdest memory houtside

include hsrc

/-- `memcpy` is right exactly when the source repeats with the distance to a destination above it. So
it is when the destination is not above the source, or not below the end of it. -/
theorem memcpy_moved_iff (memory : Memory) :
    ∃ memory', memcpy dest src n memory = .ok (dest, memory') ∧
      (Moved dest src n memory memory' ↔ (src.toNat < dest.toNat → ∀ index < n.toNat,
        memory (byteAt src index) =
          memory (byteAt src (index % (dest.toNat - src.toNat))))) := by
  have hword (base i : Word) : byteAt base i.toNat = base + i := by
    rw [byteAt, BitVec.ofNat_toNat, BitVec.setWidth_eq]
  by_cases habove : src.toNat < dest.toNat
  · obtain ⟨memory', hrun, hbytes, houtside⟩ := memcpy_above hdest memory habove
    refine ⟨memory', hrun, fun hmoved _ index hindex ↦ ?_, fun hrepeats ↦ ⟨fun i hi ↦ ?_, houtside⟩⟩
    · have hsmall : (BitVec.ofNat 64 index).toNat = index := by
        have hrange := n.isLt
        rw [BitVec.toNat_ofNat]
        omega
      have hcopied := hmoved.copied (BitVec.ofNat 64 index) (by rw [BitVec.lt_def]; omega)
      exact hcopied.symm.trans (hbytes index hindex)
    · rw [← hword dest, ← hword src, hbytes i.toNat hi, hrepeats habove i.toNat hi]
  · obtain ⟨memory', hrun, hmoved⟩ := memcpy_moved memory hdest hsrc (Or.inl (not_lt.mp habove))
    exact ⟨memory', hrun, iff_of_true hmoved fun hlt ↦ absurd hlt habove⟩

end Overlap

/-- Eight bytes of one value are copied up by one; eight ascending ones are not. -/
theorem memcpy_moved_iff_overlap :
    (∃ memory', memcpy 0x1001 0x1000 8 (fun _ ↦ 7) = .ok (0x1001, memory') ∧
      Moved 0x1001 0x1000 8 (fun _ ↦ 7) memory') ∧
    ∃ memory', memcpy 0x1001 0x1000 8 (fun address ↦ address.setWidth 8) = .ok (0x1001, memory') ∧
      ¬ Moved 0x1001 0x1000 8 (fun address ↦ address.setWidth 8) memory' := by
  have hdest : (0x1001 : Word).toNat + (8 : Word).toNat ≤ 2 ^ 64 := by decide
  have hsrc : (0x1000 : Word).toNat + (8 : Word).toNat ≤ 2 ^ 64 := by decide
  obtain ⟨same, hsame, hsameIff⟩ := memcpy_moved_iff hdest hsrc fun _ ↦ 7
  obtain ⟨rising, hrising, hrisingIff⟩ :=
    memcpy_moved_iff hdest hsrc fun address ↦ address.setWidth 8
  refine ⟨⟨same, hsame, hsameIff.mpr fun _ _ _ ↦ rfl⟩, rising, hrising, fun hmoved ↦ ?_⟩
  exact absurd (hrisingIff.mp hmoved (by decide) 1 (by decide)) (by decide)

end PenelopeOS.Memory
