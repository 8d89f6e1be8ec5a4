import PenelopeOS.Machine.BitField

/-!
# Segment and TSS descriptors

The two encoders of `gdt.cpp`. `constructTsstor` masks a byte of the base and shifts it down.
`constructSegtor` has the same masks and shifts without the parentheses, and there `>>` binds tighter
than `&`: the mask is shifted down, and the low byte of the base goes into both upper fields.
-/

namespace PenelopeOS.Cpu

open Machine

structure SegmentDescriptor where
  limit0 : BitVec 16
  base0 : BitVec 16
  base1 : BitVec 8
  accessbyte : BitVec 8
  flags_limit : BitVec 8
  base2 : BitVec 8
  deriving DecidableEq, Repr

structure TSSDescriptor where
  limit0 : BitVec 16
  base0 : BitVec 16
  base1 : BitVec 8
  accessbyte : BitVec 8
  flags_limit : BitVec 8
  base2 : BitVec 8
  base3 : BitVec 32
  reserved0 : BitVec 8
  res1_zeros : BitVec 8
  res2 : BitVec 16
  deriving DecidableEq, Repr

def constructSegtor (base_address : BitVec 64) (limit : BitVec 16) (accessbyte flagslimit : BitVec 8) :
    SegmentDescriptor :=
  let vaddr := base_address
  let vaddr0 := (vaddr &&& 0xFFFF).setWidth 16
  let vaddr1 := (vaddr &&& ((0xFF : BitVec 64) <<< 0x10) >>> 0x10).setWidth 8
  let vaddr2 := (vaddr &&& ((0xFF : BitVec 64) <<< 0x18) >>> 0x18).setWidth 8
  { limit0 := limit, base0 := vaddr0, base1 := vaddr1, accessbyte := accessbyte,
    flags_limit := flagslimit, base2 := vaddr2 }

def constructTsstor (base_address : BitVec 64) (limit : BitVec 32) : TSSDescriptor :=
  let vaddr := base_address
  let vaddr0 := (vaddr &&& 0xFFFF).setWidth 16
  let vaddr1 := ((vaddr &&& ((0xFF : BitVec 64) <<< 0x10)) >>> 0x10).setWidth 8
  let vaddr2 := ((vaddr &&& ((0xFF : BitVec 64) <<< 0x18)) >>> 0x18).setWidth 8
  let vaddr3 := ((vaddr &&& ((0xFFFFFFFF : BitVec 64) <<< 0x20)) >>> 0x20).setWidth 32
  let limit0 := (limit &&& 0xFFFF).setWidth 16
  let flag_limit1 := ((limit &&& ((0xF : BitVec 32) <<< 0x10)) >>> 0x10).setWidth 8
  { limit0 := limit0, base0 := vaddr0, base1 := vaddr1, accessbyte := 0b10001001,
    flags_limit := flag_limit1, base2 := vaddr2, base3 := vaddr3, reserved0 := 0, res1_zeros := 0,
    res2 := 0 }

/-- The base that the processor puts together from a segment descriptor. -/
def SegmentDescriptor.base (descriptor : SegmentDescriptor) : ℕ :=
  descriptor.base0.toNat + 2 ^ 16 * descriptor.base1.toNat + 2 ^ 24 * descriptor.base2.toNat

/-- The base that the processor puts together from a TSS descriptor. -/
def TSSDescriptor.base (descriptor : TSSDescriptor) : ℕ :=
  descriptor.base0.toNat + 2 ^ 16 * descriptor.base1.toNat + 2 ^ 24 * descriptor.base2.toNat +
    2 ^ 32 * descriptor.base3.toNat

/-- The limit, of which the low half of the flags is the upper part. -/
def TSSDescriptor.limit (descriptor : TSSDescriptor) : ℕ :=
  descriptor.limit0.toNat + 2 ^ 16 * (descriptor.flags_limit.toNat % 2 ^ 4)

/-- Both descriptors carry the base as far as they have room for it, in the same fields, and that of
the TSS carries the limit too. -/
structure DescriptorsCarry (base : BitVec 64) (limit : BitVec 16) (accessbyte flagslimit : BitVec 8)
    (tssLimit : BitVec 32) : Prop where
  segment : (constructSegtor base limit accessbyte flagslimit).base = base.toNat % 2 ^ 32
  base0 : (constructSegtor base limit accessbyte flagslimit).base0 = (constructTsstor base tssLimit).base0
  base1 : (constructSegtor base limit accessbyte flagslimit).base1 = (constructTsstor base tssLimit).base1
  base2 : (constructSegtor base limit accessbyte flagslimit).base2 = (constructTsstor base tssLimit).base2
  tss : (constructTsstor base tssLimit).base = base.toNat
  tssLimit : tssLimit.toNat < 2 ^ 20 → (constructTsstor base tssLimit).limit = tssLimit.toNat

/-- The upper two fields of a segment descriptor hold the lowest byte of the base. -/
theorem toNat_constructSegtor (base : BitVec 64) (limit : BitVec 16) (accessbyte flagslimit : BitVec 8) :
    (constructSegtor base limit accessbyte flagslimit).base0.toNat = base.toNat % 2 ^ 16 ∧
      (constructSegtor base limit accessbyte flagslimit).base1.toNat = base.toNat % 2 ^ 8 ∧
      (constructSegtor base limit accessbyte flagslimit).base2.toNat = base.toNat % 2 ^ 8 := by
  have hbase0 := toNat_lowField base (show (0xFFFF : BitVec 64).setWidth 16 = .allOnes 16 by decide)
  have hbase1 := toNat_lowField base
    (show (((0xFF : BitVec 64) <<< 0x10) >>> 0x10).setWidth 8 = .allOnes 8 by decide)
  have hbase2 := toNat_lowField base
    (show (((0xFF : BitVec 64) <<< 0x18) >>> 0x18).setWidth 8 = .allOnes 8 by decide)
  exact ⟨hbase0, hbase1, hbase2⟩

theorem toNat_constructTsstor (base : BitVec 64) (limit : BitVec 32) :
    (constructTsstor base limit).base0.toNat = base.toNat % 2 ^ 16 ∧
      (constructTsstor base limit).base1.toNat = base.toNat / 2 ^ 16 % 2 ^ 8 ∧
      (constructTsstor base limit).base2.toNat = base.toNat / 2 ^ 24 % 2 ^ 8 ∧
      (constructTsstor base limit).base3.toNat = base.toNat / 2 ^ 32 % 2 ^ 32 ∧
      (constructTsstor base limit).limit0.toNat = limit.toNat % 2 ^ 16 ∧
      (constructTsstor base limit).flags_limit.toNat = limit.toNat / 2 ^ 16 % 2 ^ 4 := by
  have hbase0 := toNat_lowField base (show (0xFFFF : BitVec 64).setWidth 16 = .allOnes 16 by decide)
  have hbase1 := toNat_field base
    (show (((0xFF : BitVec 64) <<< 0x10) >>> 0x10).setWidth 8 = .allOnes 8 by decide)
  have hbase2 := toNat_field base
    (show (((0xFF : BitVec 64) <<< 0x18) >>> 0x18).setWidth 8 = .allOnes 8 by decide)
  have hbase3 := toNat_field base
    (show (((0xFFFFFFFF : BitVec 64) <<< 0x20) >>> 0x20).setWidth 32 = .allOnes 32 by decide)
  have hlimit0 := toNat_lowField limit (show (0xFFFF : BitVec 32).setWidth 16 = .allOnes 16 by decide)
  have hflags := toNat_exactField limit
    (show (((0xF : BitVec 32) <<< 0x10) >>> 0x10).toNat = 2 ^ 4 - 1 by decide)
  refine ⟨hbase0, hbase1, hbase2, hbase3, hlimit0, ?_⟩
  rw [constructTsstor, BitVec.toNat_setWidth, hflags]
  omega

/-- The base comes through whole exactly when its third and fourth byte are copies of the lowest. -/
theorem descriptorsCarry_iff (base : BitVec 64) (limit : BitVec 16) (accessbyte flagslimit : BitVec 8)
    (tssLimit : BitVec 32) :
    DescriptorsCarry base limit accessbyte flagslimit tssLimit ↔
      base.extractLsb' 16 8 = base.extractLsb' 0 8 ∧ base.extractLsb' 24 8 = base.extractLsb' 0 8 := by
  obtain ⟨hbase0, hbase1, hbase2⟩ := toNat_constructSegtor base limit accessbyte flagslimit
  obtain ⟨htss0, htss1, htss2, htss3, hlimit0, hflags⟩ := toNat_constructTsstor base tssLimit
  have hbytes : base.extractLsb' 16 8 = base.extractLsb' 0 8 ∧
        base.extractLsb' 24 8 = base.extractLsb' 0 8 ↔
      base.toNat / 2 ^ 16 % 2 ^ 8 = base.toNat % 2 ^ 8 ∧
        base.toNat / 2 ^ 24 % 2 ^ 8 = base.toNat % 2 ^ 8 := by
    simp only [← BitVec.toNat_inj, BitVec.extractLsb'_toNat, Nat.shiftRight_eq_div_pow, Nat.pow_zero,
      Nat.div_one]
  rw [hbytes]
  constructor
  · intro hcarry
    have hequal1 := congrArg BitVec.toNat hcarry.base1
    have hequal2 := congrArg BitVec.toNat hcarry.base2
    rw [hbase1, htss1] at hequal1
    rw [hbase2, htss2] at hequal2
    exact ⟨hequal1.symm, hequal2.symm⟩
  · rintro ⟨hequal1, hequal2⟩
    have hlow : base.toNat % 2 ^ 16 + 2 ^ 16 * (base.toNat / 2 ^ 16 % 2 ^ 8) +
        2 ^ 24 * (base.toNat / 2 ^ 24 % 2 ^ 8) = base.toNat % 2 ^ 32 := by
      rw [mod_add_field, mod_add_field]
    refine ⟨?_, ?_, ?_, ?_, ?_, fun hlimit ↦ ?_⟩
    · rw [SegmentDescriptor.base, hbase0, hbase1, hbase2, ← hlow, hequal1, hequal2]
    · rw [← BitVec.toNat_inj, hbase0, htss0]
    · rw [← BitVec.toNat_inj, hbase1, htss1, hequal1]
    · rw [← BitVec.toNat_inj, hbase2, htss2, hequal2]
    · rw [TSSDescriptor.base, htss0, htss1, htss2, htss3, hlow, mod_add_field,
        Nat.mod_eq_of_lt base.isLt]
    · rw [TSSDescriptor.limit, hlimit0, hflags, Nat.mod_mod, mod_add_field, Nat.mod_eq_of_lt hlimit]

/-- A code segment whose base is in the third byte. -/
theorem not_descriptorsCarry_third :
    (constructSegtor 0x120000 0xFFFF 0b10011010 0b10101111).base1 = 0 ∧
      (constructTsstor 0x120000 0x67).base1 = 0x12 ∧
      (constructSegtor 0x120000 0xFFFF 0b10011010 0b10101111).base = 0 ∧
      ¬ DescriptorsCarry 0x120000 0xFFFF 0b10011010 0b10101111 0x67 := by
  have hsegment : (constructSegtor 0x120000 0xFFFF 0b10011010 0b10101111).base1 = 0 := by
    decide
  have htss : (constructTsstor 0x120000 0x67).base1 = 0x12 := by
    decide
  refine ⟨hsegment, htss, by decide, fun hcarry ↦ ?_⟩
  cases hsegment.symm.trans (hcarry.base1.trans htss)

end PenelopeOS.Cpu
