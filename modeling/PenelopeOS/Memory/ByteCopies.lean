import PenelopeOS.Foundation.Transfer
import PenelopeOS.Machine.BitField
import PenelopeOS.Machine.ByteMemory
import PenelopeOS.Machine.Fault

/-!
# Copies of bytes

`memcpy` and `memmove` copy a range of bytes within the one memory, in which every address holds a
byte. `memcpy` goes upwards, which is right unless the destination begins inside of the source.
`memmove` compares the addresses and goes downwards when the source is below the destination.
-/

namespace PenelopeOS.Memory

open Machine Foundation

/-- The loop of `memcpy`, and of `memmove` from a higher source, from byte `i` on. -/
def copyUpwards (pdest psrc n : Word) : ℕ → Word → Memory → Except Fault Memory
  | 0, _, _ => .error .divergence
  | fuel + 1, i, memory =>
    if i < n then
      copyUpwards pdest psrc n fuel (i + 1) (Function.update memory (pdest + i) (memory (psrc + i)))
    else .ok memory

/-- The loop of `memmove` from a lower source, with `i` bytes to go. -/
def copyDownwards (pdest psrc : Word) : ℕ → Word → Memory → Except Fault Memory
  | 0, _, _ => .error .divergence
  | fuel + 1, i, memory =>
    if i > 0 then
      copyDownwards pdest psrc fuel (i - 1)
        (Function.update memory (pdest + (i - 1)) (memory (psrc + (i - 1))))
    else .ok memory

/-- The loops end after `n` rounds. -/
def memcpy (dest src n : Word) (memory : Memory) : Except Fault (Word × Memory) := do
  let memory ← copyUpwards dest src n (n.toNat + 1) 0 memory
  return (dest, memory)

def memmove (dest src n : Word) (memory : Memory) : Except Fault (Word × Memory) := do
  let memory ←
    if src > dest then copyUpwards dest src n (n.toNat + 1) 0 memory
    else if src < dest then copyDownwards dest src (n.toNat + 1) n memory
    else .ok memory
  return (dest, memory)

/-- The destination holds what the source held, and nothing else has changed. -/
structure Moved (dest src n : Word) (memory memory' : Memory) : Prop where
  copied : ∀ i < n, memory' (dest + i) = memory (src + i)
  unchanged : ∀ location : Word,
    ¬ (dest.toNat ≤ location.toNat ∧ location.toNat < dest.toNat + n.toNat) →
      memory' location = memory location

/-! ## Loops -/

variable {dest src n : Word}

/-- The byte of a range with the given number. -/
def byteAt (base : Word) (index : ℕ) : Word := base + BitVec.ofNat 64 index

theorem copyUpwards_eq {index remaining : ℕ} (memory : Memory) (hn : index + remaining = n.toNat) :
    copyUpwards dest src n (remaining + 1) (BitVec.ofNat 64 index) memory =
      .ok (transfer memory
        ((List.range' index remaining).map (moveAt (byteAt dest) (byteAt src)))) := by
  have hrange := n.isLt
  have hindex : (BitVec.ofNat 64 index).toNat = index := by
    rw [BitVec.toNat_ofNat]
    omega
  induction remaining generalizing index memory with
  | zero =>
    have hend : ¬ BitVec.ofNat 64 index < n := by
      rw [BitVec.lt_def]
      omega
    rw [copyUpwards, if_neg hend]
    rfl
  | succ remaining ih =>
    have hlt : BitVec.ofNat 64 index < n := by
      rw [BitVec.lt_def]
      omega
    have hnext : (BitVec.ofNat 64 (index + 1)).toNat = index + 1 := by
      rw [BitVec.toNat_ofNat]
      omega
    rw [copyUpwards, if_pos hlt, ofNat_add_one, ih _ (by omega) hnext]
    rfl

theorem copyDownwards_eq {remaining : ℕ} (memory : Memory) (hremaining : remaining < 2 ^ 64) :
    copyDownwards dest src (remaining + 1) (BitVec.ofNat 64 remaining) memory =
      .ok (transfer memory
        ((List.range remaining).reverse.map (moveAt (byteAt dest) (byteAt src)))) := by
  induction remaining generalizing memory with
  | zero => rfl
  | succ remaining ih =>
    have hpos : BitVec.ofNat 64 (remaining + 1) > 0 := by
      rw [gt_iff_lt, BitVec.lt_def, BitVec.toNat_ofNat]
      change 0 < (remaining + 1) % 2 ^ 64
      omega
    have hbefore : BitVec.ofNat 64 (remaining + 1) - 1 = BitVec.ofNat 64 remaining := by
      rw [← ofNat_add_one]
      exact BitVec.add_sub_cancel _ _
    rw [copyDownwards, if_pos hpos, hbefore, ih _ (by omega), List.range_succ, List.reverse_append]
    rfl

/-! ## Ranges that do not wrap -/

section Ranges

variable (hdest : dest.toNat + n.toNat ≤ 2 ^ 64) (hsrc : src.toNat + n.toNat ≤ 2 ^ 64)

theorem toNat_byteAt {base : Word} {index : ℕ} (hbase : base.toNat + n.toNat ≤ 2 ^ 64)
    (hindex : index < n.toNat) : (byteAt base index).toNat = base.toNat + index := by
  rw [byteAt, BitVec.toNat_add, BitVec.toNat_ofNat]
  omega

/-- Equal bytes of two ranges are equally far up. -/
theorem add_eq_of_byteAt_eq {base base' : Word} {index index' : ℕ}
    (hbase : base.toNat + n.toNat ≤ 2 ^ 64) (hbase' : base'.toNat + n.toNat ≤ 2 ^ 64)
    (hindex : index < n.toNat) (hindex' : index' < n.toNat)
    (h : byteAt base index = byteAt base' index') : base.toNat + index = base'.toNat + index' := by
  rw [← toNat_byteAt hbase hindex, ← toNat_byteAt hbase' hindex', h]

include hdest

theorem byteAt_ne (lower upper : ℕ) (hlt : lower < upper) (hupper : upper < n.toNat) :
    byteAt dest lower ≠ byteAt dest upper := by
  intro heq
  have hsame := add_eq_of_byteAt_eq hdest hdest (hlt.trans hupper) hupper heq
  omega

/-- Copies of all bytes in an order in which none spoils a later one. -/
theorem moved_transfer (memory : Memory) {indices : List ℕ}
    (hindices : ∀ index, index ∈ indices ↔ index < n.toNat)
    (hspares : (indices.map (moveAt (byteAt dest) (byteAt src))).Pairwise Spares) :
    Moved dest src n memory
      (transfer memory (indices.map (moveAt (byteAt dest) (byteAt src)))) where
  copied i hi := by
    have hmem := List.mem_map_of_mem (f := moveAt (byteAt dest) (byteAt src))
      ((hindices i.toNat).mpr hi)
    have hbyte (base : Word) : byteAt base i.toNat = base + i := by
      rw [byteAt, BitVec.ofNat_toNat, BitVec.setWidth_eq]
    have htarget := transfer_target memory hspares hmem
    simpa only [moveAt, hbyte] using htarget
  unchanged location houtside := by
    refine transfer_of_forall_ne memory fun move hmove ↦ ?_
    obtain ⟨index, hindex, rfl⟩ := List.mem_map.mp hmove
    rintro rfl
    have hlt := (hindices index).mp hindex
    rw [show (moveAt (byteAt dest) (byteAt src) index).target = byteAt dest index from rfl,
      toNat_byteAt hdest hlt] at houtside
    omega

include hsrc

theorem moved_copyUpwards (memory : Memory)
    (hdir : dest.toNat ≤ src.toNat ∨ src.toNat + n.toNat ≤ dest.toNat) :
    ∃ memory', copyUpwards dest src n (n.toNat + 1) 0 memory = .ok memory' ∧
      Moved dest src n memory memory' := by
  refine ⟨_, copyUpwards_eq memory (Nat.zero_add _), ?_⟩
  rw [← List.range_eq_range']
  refine moved_transfer hdest memory (fun index ↦ List.mem_range)
    (pairwise_ascending (byteAt_ne hdest) fun lower upper hlt hupper heq ↦ ?_)
  -- a byte that was written is read later only by a source below its destination
  have hsame := add_eq_of_byteAt_eq hsrc hdest hupper (hlt.trans hupper) heq
  omega

theorem moved_copyDownwards (memory : Memory) (hdir : src.toNat ≤ dest.toNat) :
    ∃ memory', copyDownwards dest src (n.toNat + 1) n memory = .ok memory' ∧
      Moved dest src n memory memory' := by
  have hrun : copyDownwards dest src (n.toNat + 1) (BitVec.ofNat 64 n.toNat) memory = _ :=
    copyDownwards_eq memory n.isLt
  rw [BitVec.ofNat_toNat, BitVec.setWidth_eq] at hrun
  refine ⟨_, hrun, moved_transfer hdest memory (fun index ↦ by simp)
    (pairwise_descending (byteAt_ne hdest) fun lower upper hlt hupper heq ↦ ?_)⟩
  have hsame := add_eq_of_byteAt_eq hsrc hdest (hlt.trans hupper) hupper heq
  omega

end Ranges

/-- `memcpy` is right when the destination does not begin behind the first byte of the source and
before its end. -/
theorem memcpy_moved (memory : Memory) (hdest : dest.toNat + n.toNat ≤ 2 ^ 64)
    (hsrc : src.toNat + n.toNat ≤ 2 ^ 64)
    (hdir : dest.toNat ≤ src.toNat ∨ src.toNat + n.toNat ≤ dest.toNat) :
    ∃ memory', memcpy dest src n memory = .ok (dest, memory') ∧ Moved dest src n memory memory' := by
  obtain ⟨memory', hrun, hmoved⟩ := moved_copyUpwards hdest hsrc memory hdir
  refine ⟨memory', ?_, hmoved⟩
  rw [memcpy, hrun, ok_bind]
  rfl

/-- `memmove` is right for all ranges that do not wrap, however they overlap. -/
theorem memmove_moved (memory : Memory) (hdest : dest.toNat + n.toNat ≤ 2 ^ 64)
    (hsrc : src.toNat + n.toNat ≤ 2 ^ 64) :
    ∃ memory', memmove dest src n memory = .ok (dest, memory') ∧ Moved dest src n memory memory' := by
  rw [memmove]
  rcases lt_trichotomy dest.toNat src.toNat with hlt | heq | hlt
  · obtain ⟨memory', hrun, hmoved⟩ := moved_copyUpwards hdest hsrc memory (Or.inl hlt.le)
    have habove : src > dest := hlt
    refine ⟨memory', ?_, hmoved⟩
    rw [if_pos habove, hrun]
    rfl
  · obtain rfl : dest = src := BitVec.eq_of_toNat_eq heq
    refine ⟨memory, ?_, fun _ _ ↦ rfl, fun _ _ ↦ rfl⟩
    rw [if_neg (BitVec.lt_irrefl dest), if_neg (BitVec.lt_irrefl dest)]
    rfl
  · obtain ⟨memory', hrun, hmoved⟩ := moved_copyDownwards hdest hsrc memory hlt.le
    have hbelow : src < dest := hlt
    refine ⟨memory', ?_, hmoved⟩
    rw [if_neg (BitVec.lt_asymm hbelow), if_pos hbelow, hrun]
    rfl

/-- Three bytes move up by one, over two of their own. -/
theorem memmove_moved_up : ∃ memory' : Memory,
    memmove 0x1001 0x1000 3 (fun address ↦ address.setWidth 8) = .ok (0x1001, memory') ∧
      memory' 0x1001 = 0 ∧ memory' 0x1002 = 1 ∧ memory' 0x1003 = 2 ∧ memory' 0x1004 = 4 := by
  obtain ⟨memory', hrun, hmoved⟩ := memmove_moved (fun address ↦ address.setWidth 8)
    (show (0x1001 : Word).toNat + (3 : Word).toNat ≤ 2 ^ 64 by decide)
    (show (0x1000 : Word).toNat + (3 : Word).toNat ≤ 2 ^ 64 by decide)
  exact ⟨memory', hrun, hmoved.copied 0 (by decide), hmoved.copied 1 (by decide),
    hmoved.copied 2 (by decide), hmoved.unchanged 0x1004 (by decide)⟩

end PenelopeOS.Memory
