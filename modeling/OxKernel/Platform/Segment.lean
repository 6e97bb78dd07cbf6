import Mathlib

/-!
# Segment descriptors

`struct segment_descriptor` with the functions that read its fields and those that write them.
The latter only set bits, so that what they make of a descriptor is the old one and the new one
taken together.

## Main definitions

* `SegmentDescriptor` — a descriptor.
* `protectInitTsssegment` — makes a descriptor one of a task state.
-/
namespace OxKernel.Platform

/-- `struct segment_descriptor`. -/
@[ext] structure SegmentDescriptor where
  lw0 : BitVec 32
  lw1 : BitVec 32
  deriving DecidableEq

namespace SegmentDescriptor

/-- A zeroed descriptor. -/
def zero : SegmentDescriptor := ⟨0, 0⟩

section Fields
variable (desc : SegmentDescriptor)

/-- `_DESC_BASE`. -/
def descBase : BitVec 32 :=
  ((desc.lw0 >>> 16) &&& 0xFFFF#32) ||| ((desc.lw1 &&& 0xFF#32) <<< 16) |||
    (((desc.lw1 >>> 24) &&& 0xFF#32) <<< 24)

/-- `_DESC_LIMIT`. -/
def descLimit : BitVec 32 :=
  ((desc.lw0 &&& 0xFFFF#32) ||| (((desc.lw1 >>> 16) &&& 0xF#32) <<< 16)) &&& 0x000FFFFF#32

/-- `_DESC_DPL`. -/
def descDpl : BitVec 32 := (desc.lw1 >>> 13) &&& 0x3#32

/-- `_DESC_PRESENT`. -/
def descPresent : BitVec 32 := (desc.lw1 >>> 15) &&& 0x1#32

/-- `_DESC_TYPE`. -/
def descType : BitVec 32 := (desc.lw1 >>> 8) &&& 0xF#32

end Fields

section Setters
variable (desc : SegmentDescriptor) (data : BitVec 32)

/-- `_SET_DESC_BASE`. -/
def setDescBase : SegmentDescriptor where
  lw0 := desc.lw0 ||| (0xFFFF#32 &&& data) <<< 16
  lw1 := desc.lw1 ||| (0xFF0000#32 &&& data) >>> 16 ||| (0xFF000000#32 &&& data)

/-- `_SET_DESC_LIMIT`. -/
def setDescLimit : SegmentDescriptor where
  lw0 := desc.lw0 ||| (0xFFFF#32 &&& data)
  lw1 := desc.lw1 ||| (0xF0000#32 &&& data)

/-- The setters of one field of the second word. -/
def setDescField (mask : BitVec 32) (shift : ℕ) : SegmentDescriptor :=
  { desc with lw1 := desc.lw1 ||| (mask &&& data) <<< shift }

/-- `_SET_DESC_GRAN`. -/
def setDescGran : SegmentDescriptor := desc.setDescField data 0x1#32 23

/-- `_SET_DESC_SYSTEM`. -/
def setDescSystem : SegmentDescriptor := desc.setDescField data 0x1#32 12

/-- `_SET_DESC_PRESENT`. -/
def setDescPresent : SegmentDescriptor := desc.setDescField data 0x1#32 15

/-- `_SET_DESC_DPL`. -/
def setDescDpl : SegmentDescriptor := desc.setDescField data 0x3#32 13

/-- `_SET_DESC_TYPE`. -/
def setDescType : SegmentDescriptor := desc.setDescField data 0xF#32 8

end Setters

/-- `_DESC_GRANULARITY`, `_DESC_SYSSEG`, `_DESC_PRESENTF` and `_DESC_TSS`. -/
def descGranularity : BitVec 32 := 1
def descSysseg : BitVec 32 := 0
def descPresentf : BitVec 32 := 1
def descTss : BitVec 32 := 9

section Init
variable (psd : SegmentDescriptor) (base limit : BitVec 32) (privilege : BitVec 8)

/-- `protect_init_systemdesc`. -/
def protectInitSystemdesc : SegmentDescriptor :=
  ((psd.setDescBase base).setDescLimit limit).setDescGran descGranularity

/-- `protect_init_tsssegment`. -/
def protectInitTsssegment : SegmentDescriptor :=
  ((((psd.protectInitSystemdesc base limit).setDescSystem descSysseg).setDescPresent
    descPresentf).setDescDpl (privilege.setWidth 32)).setDescType descTss

end Init

/-! ## Descriptors taken together -/

section Both
variable (d e : SegmentDescriptor)

/-- All bits of two descriptors. -/
def both : SegmentDescriptor := ⟨d.lw0 ||| e.lw0, d.lw1 ||| e.lw1⟩

@[simp] theorem both_lw0 : (d.both e).lw0 = d.lw0 ||| e.lw0 := rfl
@[simp] theorem both_lw1 : (d.both e).lw1 = d.lw1 ||| e.lw1 := rfl

/-- **The setters only add bits.** -/
theorem protectInitTsssegment_eq (base limit : BitVec 32) (privilege : BitVec 8) :
    d.protectInitTsssegment base limit privilege =
      d.both (zero.protectInitTsssegment base limit privilege) := by
  simp [protectInitTsssegment, protectInitSystemdesc, setDescType, setDescDpl, setDescPresent,
    setDescSystem, setDescGran, setDescField, setDescLimit, setDescBase, both, zero,
    BitVec.or_assoc]

theorem or_field (x y mask : BitVec 32) (shift : ℕ) :
    (x ||| y) >>> shift &&& mask = x >>> shift &&& mask ||| y >>> shift &&& mask := by
  rw [BitVec.ushiftRight_or_distrib, BitVec.and_or_distrib_right]

theorem or_or (x x' y y' : BitVec 32) : (x ||| x') ||| (y ||| y') = (x ||| y) ||| (x' ||| y') := by
  ac_rfl

theorem or_or_or (x x' y y' z z' : BitVec 32) :
    (x ||| x') ||| (y ||| y') ||| (z ||| z') = (x ||| y ||| z) ||| (x' ||| y' ||| z') := by
  ac_rfl

theorem descBase_both : (d.both e).descBase = d.descBase ||| e.descBase := by
  rw [descBase, both_lw0, both_lw1, or_field, or_field, BitVec.and_or_distrib_right,
    BitVec.shiftLeft_or_distrib, BitVec.shiftLeft_or_distrib, or_or_or, descBase, descBase]

theorem descLimit_both : (d.both e).descLimit = d.descLimit ||| e.descLimit := by
  rw [descLimit, both_lw0, both_lw1, or_field, BitVec.shiftLeft_or_distrib,
    BitVec.and_or_distrib_right (x := d.lw0), or_or, BitVec.and_or_distrib_right, descLimit,
    descLimit]

theorem descDpl_both : (d.both e).descDpl = d.descDpl ||| e.descDpl := or_field _ _ _ _

theorem descType_both : (d.both e).descType = d.descType ||| e.descType := or_field _ _ _ _

theorem descPresent_both : (d.both e).descPresent = d.descPresent ||| e.descPresent :=
  or_field _ _ _ _

end Both

/-! ## New descriptors -/

/-- The lowest bits. -/
theorem getLsbD_mask {n : ℕ} (hn : n ≤ 32) (i : ℕ) :
    (BitVec.ofNat 32 (2 ^ n - 1)).getLsbD i = decide (i < n) := by
  rw [BitVec.getLsbD_ofNat, Nat.testBit_two_pow_sub_one, ← Bool.decide_and]
  exact decide_eq_decide.mpr ⟨fun h => h.2, fun h => ⟨by omega, h⟩⟩

theorem getLsbD_0xff (i : ℕ) : (0xFF#32).getLsbD i = decide (i < 8) := @getLsbD_mask 8 (by omega) i

theorem getLsbD_0xffff (i : ℕ) : (0xFFFF#32).getLsbD i = decide (i < 16) :=
  @getLsbD_mask 16 (by omega) i

section New
variable (base limit : BitVec 32)

/-- The bits of the base in the words of a descriptor. -/
theorem setDescBase_zero : zero.setDescBase base =
    ⟨(0xFFFF#32 &&& base) <<< 16,
      (0xFF#32 <<< 16 &&& base) >>> 16 ||| (0xFF#32 <<< 24 &&& base)⟩ := by
  simp [setDescBase, zero]

theorem descBase_setDescBase : (zero.setDescBase base).descBase = base := by
  rw [descBase, setDescBase_zero]
  apply BitVec.eq_of_getLsbD_eq
  intro i hi
  simp only [BitVec.getLsbD_or, BitVec.getLsbD_and, BitVec.getLsbD_ushiftRight,
    BitVec.getLsbD_shiftLeft, getLsbD_0xff, getLsbD_0xffff]
  grind

/-- The other fields of `lw1` lie between those of the base. -/
theorem field_setDescBase {mask : BitVec 32} {shift n : ℕ}
    (hmask : mask = BitVec.ofNat 32 (2 ^ n - 1)) (hlow : 8 ≤ shift) (hhigh : shift + n ≤ 24) :
    (zero.setDescBase base).lw1 >>> shift &&& mask = 0 := by
  rw [setDescBase_zero, hmask]
  apply BitVec.eq_of_getLsbD_eq
  intro i hi
  simp only [BitVec.getLsbD_or, BitVec.getLsbD_and, BitVec.getLsbD_ushiftRight,
    BitVec.getLsbD_shiftLeft, getLsbD_0xff, getLsbD_mask (show n ≤ 32 by omega)]
  grind

theorem descDpl_setDescBase : (zero.setDescBase base).descDpl = 0 :=
  field_setDescBase base (n := 2) rfl (by omega) (by omega)

theorem descType_setDescBase : (zero.setDescBase base).descType = 0 :=
  field_setDescBase base (n := 4) rfl (by omega) (by omega)

theorem descPresent_setDescBase : (zero.setDescBase base).descPresent = 0 :=
  field_setDescBase base (n := 1) rfl (by omega) (by omega)

theorem descLimit_setDescBase : (zero.setDescBase base).descLimit = 0 := by
  have hlow : (zero.setDescBase base).lw0 &&& 0xFFFF#32 = 0 := by
    rw [setDescBase_zero]
    apply BitVec.eq_of_getLsbD_eq
    intro i hi
    simp only [BitVec.getLsbD_and, BitVec.getLsbD_shiftLeft, getLsbD_0xffff]
    grind
  have hhigh : (zero.setDescBase base).lw1 >>> 16 &&& 0xF#32 = 0 :=
    field_setDescBase base (n := 4) rfl (by omega) (by omega)
  rw [descLimit, hlow, hhigh]
  rfl

/-- The bits of a new descriptor that do not depend on the base. -/
theorem protectInitTsssegment_zero (privilege : BitVec 8) :
    zero.protectInitTsssegment base limit privilege =
      (zero.setDescBase base).both (zero.protectInitTsssegment 0 limit privilege) := by
  simp [protectInitTsssegment, protectInitSystemdesc, setDescType, setDescDpl, setDescPresent,
    setDescSystem, setDescGran, setDescField, setDescLimit, setDescBase, both, zero,
    BitVec.or_assoc]

end New

/-! ## The descriptor of a task -/

/-- `sizeof(struct tss)`. -/
def sizeofTss : BitVec 32 := 212

/-- What `protect_init_tsssegment` makes of a zeroed descriptor. -/
def newTss (base : BitVec 32) (privilege : BitVec 8) : SegmentDescriptor :=
  zero.protectInitTsssegment base sizeofTss privilege

/-- A descriptor of the task state at an address. -/
structure Describes (d : SegmentDescriptor) (base : BitVec 32) (privilege : BitVec 8) : Prop where
  base : d.descBase = base
  limit : d.descLimit = sizeofTss
  dpl : d.descDpl = privilege.setWidth 32
  type : d.descType = descTss
  present : d.descPresent = 1

section Task
variable (d : SegmentDescriptor) (base : BitVec 32) {privilege : BitVec 8}

/-- **A zeroed descriptor** becomes one of the task state. -/
theorem newTss_describes (h : privilege = 0 ∨ privilege = 3) :
    (newTss base privilege).Describes base privilege := by
  rw [newTss, protectInitTsssegment_zero]
  constructor
  · rw [descBase_both, descBase_setDescBase]
    rcases h with rfl | rfl
    · exact BitVec.or_zero
    · exact BitVec.or_zero
  · rw [descLimit_both, descLimit_setDescBase]
    rcases h with rfl | rfl <;> decide
  · rw [descDpl_both, descDpl_setDescBase]
    rcases h with rfl | rfl <;> decide
  · rw [descType_both, descType_setDescBase]
    rcases h with rfl | rfl <;> decide
  · rw [descPresent_both, descPresent_setDescBase]
    rcases h with rfl | rfl <;> decide

/-- A descriptor has no bits in its fields that one of the task state does not have. -/
structure Covered (d : SegmentDescriptor) (base : BitVec 32) (privilege : BitVec 8) : Prop where
  base : d.descBase ||| base = base
  limit : d.descLimit ||| sizeofTss = sizeofTss
  dpl : d.descDpl ||| privilege.setWidth 32 = privilege.setWidth 32
  type : d.descType ||| descTss = descTss

/-- A bit that is set stays set. -/
theorem descPresent_or_one : d.descPresent ||| 1 = 1 := by
  rw [descPresent]
  apply BitVec.eq_of_getLsbD_eq
  intro i hi
  simp only [BitVec.getLsbD_or, BitVec.getLsbD_and, BitVec.getLsbD_one]
  grind

/-- **Any descriptor** becomes one of the task state exactly if it has no other bits. -/
theorem protectInitTsssegment_describes_iff (h : privilege = 0 ∨ privilege = 3) :
    (d.protectInitTsssegment base sizeofTss privilege).Describes base privilege ↔
      d.Covered base privilege := by
  have hnew := newTss_describes base h
  rw [protectInitTsssegment_eq, ← newTss]
  constructor
  · intro hd
    have hbase := hd.base
    have hlimit := hd.limit
    have hdpl := hd.dpl
    have htype := hd.type
    rw [descBase_both, hnew.base] at hbase
    rw [descLimit_both, hnew.limit] at hlimit
    rw [descDpl_both, hnew.dpl] at hdpl
    rw [descType_both, hnew.type] at htype
    exact ⟨hbase, hlimit, hdpl, htype⟩
  · intro hc
    constructor
    · rw [descBase_both, hnew.base, hc.base]
    · rw [descLimit_both, hnew.limit, hc.limit]
    · rw [descDpl_both, hnew.dpl, hc.dpl]
    · rw [descType_both, hnew.type, hc.type]
    · rw [descPresent_both, hnew.present, descPresent_or_one]

end Task

end SegmentDescriptor
end OxKernel.Platform
