import OxKernel.Lib.BitField
import OxKernel.Lib.Checked
import OxKernel.Lib.Words

/-!
# Fields of bits

A model of `libk/bit.c`. The field at position `p` has `n` bits, of which bit `p` is the
highest. The masks are computed as `int` and meet the word as `unsigned`; an `unsigned long`
has the width of an `unsigned`.

## Main definitions

* `getBits`, `setBits`, `setBitsP` — the functions of `bit.h`.
* `IsField` — the field lies in a word, and its length is a shift that C defines.

## Main results

* `IsField.getBits_eq`, `IsField.setBits_eq` — the functions read and store a field.
* `bits_law` — what is stored is read back and nothing else changes.
-/
namespace OxKernel.Libk

open Lib

/-- `getBits`. -/
def getBits (x : UInt32) (p n : Int32) : UInt32 :=
  (x >>> (p + 1 - n).toUInt32) &&& (~~~(~~~0 <<< n)).toUInt32

/-- `setBits`. -/
def setBits (x : UInt32) (p n : Int32) (y : UInt32) : UInt32 :=
  x &&& (~~~(~~~(~~~0 <<< n) <<< (p + 1 - n))).toUInt32 |||
    (y &&& (~~~(~~~0 <<< n)).toUInt32) <<< (p + 1 - n).toUInt32

/-- `setBits_p`, the word that is stored. -/
def setBitsP (x : UInt32) (p n : Int32) (y : UInt32) : UInt32 :=
  ((x &&& (~~~(~~~(~~~0 <<< n) <<< (p + 1 - n))).toUInt32) |||
    ((y &&& (~~~(~~~0 <<< n)).toUInt32) <<< (p + 1 - n).toUInt32))

/-- The field of `n` bits at position `p`. -/
structure IsField (p n : Int32) : Prop where
  pos : 1 ≤ n.toInt
  length : n.toInt ≤ 31
  bottom : n.toInt ≤ p.toInt + 1
  top : p.toInt + 1 ≤ 32

/-- The lowest bit of a field. -/
def lowest (p n : Int32) : ℕ := (p.toInt + 1 - n.toInt).toNat

/-- One of the two fields ends below the other. -/
def FieldsApart (p n q m : Int32) : Prop :=
  p.toInt < q.toInt + 1 - m.toInt ∨ q.toInt < p.toInt + 1 - n.toInt

section

variable {p n q m : Int32}

/-! ### Shifts -/

theorem IsField.toInt_shift (h : IsField p n) : (p + 1 - n).toInt = lowest p n := by
  have hpos := h.pos
  have hbottom := h.bottom
  have htop := h.top
  have hsum : (p + 1).toInt = p.toInt + 1 := by
    rw [Int32.toInt_add]
    exact Checked.bmod_of_inRange ⟨by simp; omega, by simp; omega⟩
  have hdiff : (p + 1 - n).toInt = p.toInt + 1 - n.toInt := by
    rw [Int32.toInt_sub, hsum]
    exact Checked.bmod_of_inRange ⟨by omega, by omega⟩
  rw [hdiff, lowest]
  omega

theorem IsField.lowest_add_le (h : IsField p n) : lowest p n + n.toInt.toNat ≤ 32 := by
  have hpos := h.pos
  have hbottom := h.bottom
  have htop := h.top
  rw [lowest]
  omega

theorem IsField.shift_nonneg (h : IsField p n) : 0 ≤ (p + 1 - n).toInt := by
  rw [h.toInt_shift]
  exact Int.natCast_nonneg _

/-- The position as a shift of an `unsigned`. -/
theorem IsField.toNat_shift (h : IsField p n) :
    ((p + 1 - n).toUInt32.toBitVec % 32).toNat = lowest p n := by
  have hlowest := h.lowest_add_le
  have hpos := h.pos
  rw [BitVec.toNat_umod, Int32.toBitVec_toUInt32, toNat_toBitVec_of_nonneg h.shift_nonneg,
    h.toInt_shift, Int.toNat_natCast]
  exact Nat.mod_eq_of_lt (by simp; omega)

/-- `~(~0 << n)`. -/
theorem IsField.toBitVec_mask (h : IsField p n) :
    (~~~(~~~0 <<< n) : Int32).toUInt32.toBitVec = lowMask 32 n.toInt.toNat := by
  have hpos := h.pos
  have hlength := h.length
  rw [Int32.toBitVec_toUInt32, Int32.toBitVec_not, toBitVec_shiftLeft_of_lt _ (by omega) (by omega)]
  rfl

/-- `~(~(~0 << n) << (p+1-n))`. -/
theorem IsField.toBitVec_hole (h : IsField p n) :
    (~~~(~~~(~~~0 <<< n) <<< (p + 1 - n)) : Int32).toUInt32.toBitVec =
      ~~~(lowMask 32 n.toInt.toNat <<< lowest p n) := by
  have hlowest := h.lowest_add_le
  have hpos := h.pos
  have hlt : (p + 1 - n).toInt < 32 := by
    rw [h.toInt_shift]
    omega
  have hmask := h.toBitVec_mask
  rw [Int32.toBitVec_toUInt32] at hmask
  rw [Int32.toBitVec_toUInt32, Int32.toBitVec_not,
    toBitVec_shiftLeft_of_lt _ h.shift_nonneg hlt, hmask, h.toInt_shift, Int.toNat_natCast]

/-! ### The functions -/

/-- `getBits` reads the field. -/
theorem IsField.getBits_eq (h : IsField p n) (x : UInt32) :
    (getBits x p n).toBitVec = field x.toBitVec (lowest p n) n.toInt.toNat := by
  rw [getBits, UInt32.toBitVec_and, UInt32.toBitVec_shiftRight, BitVec.ushiftRight_eq',
    h.toNat_shift, h.toBitVec_mask, field]

/-- `setBits` stores the field. -/
theorem IsField.setBits_eq (h : IsField p n) (x y : UInt32) :
    (setBits x p n y).toBitVec =
      setField x.toBitVec (lowest p n) n.toInt.toNat y.toBitVec := by
  rw [setBits, UInt32.toBitVec_or, UInt32.toBitVec_and, UInt32.toBitVec_shiftLeft,
    UInt32.toBitVec_and, BitVec.shiftLeft_eq', h.toNat_shift, h.toBitVec_mask,
    h.toBitVec_hole, setField]

/-- Fields that are apart as positions are apart as bits. -/
theorem FieldsApart.lowest (h : FieldsApart p n q m) (hp : IsField p n) (hq : IsField q m) :
    lowest q m + m.toInt.toNat ≤ lowest p n ∨ lowest p n + n.toInt.toNat ≤ lowest q m := by
  have hpos := hp.pos
  have hpos' := hq.pos
  have hbottom := hp.bottom
  have hbottom' := hq.bottom
  simp only [FieldsApart, Libk.lowest] at h ⊢
  omega

/-- What is stored in a field is read back. -/
theorem getBits_setBits (h : IsField p n) (x y : UInt32) :
    (getBits (setBits x p n y) p n).toNat = y.toNat % 2 ^ n.toInt.toNat := by
  have hlowest := h.lowest_add_le
  rw [← UInt32.toNat_toBitVec, h.getBits_eq, h.setBits_eq, field_setField hlowest,
    toNat_and_lowMask (by omega), UInt32.toNat_toBitVec]

/-- The other fields stay. -/
theorem getBits_setBits_of_apart (h : IsField p n) (hq : IsField q m) (hapart : FieldsApart p n q m)
    (x y : UInt32) : getBits (setBits x p n y) q m = getBits x q m := by
  rw [← UInt32.toBitVec_inj, hq.getBits_eq, hq.getBits_eq, h.setBits_eq]
  exact field_setField_of_disjoint (hapart.lowest h hq)

/-- A field stored in its own place. -/
theorem setBits_getBits (h : IsField p n) (x : UInt32) :
    setBits x p n (getBits x p n) = x := by
  rw [← UInt32.toBitVec_inj, h.setBits_eq, h.getBits_eq]
  exact setField_field

/-- **The laws of a bit field**: what is stored is read back, other fields stay, a field
stored in its own place changes nothing, and the two setters agree. -/
theorem bits_law (h : IsField p n) (x y : UInt32) :
    (getBits (setBits x p n y) p n).toNat = y.toNat % 2 ^ n.toInt.toNat ∧
      (∀ q m, IsField q m → FieldsApart p n q m →
        getBits (setBits x p n y) q m = getBits x q m) ∧
      setBits x p n (getBits x p n) = x ∧ setBitsP x p n y = setBits x p n y := by
  refine ⟨getBits_setBits h x y, ?_, setBits_getBits h x, rfl⟩
  intro q m hq hapart
  exact getBits_setBits_of_apart h hq hapart x y

end

theorem isField_mid : IsField 7 4 := by
  constructor <;> decide

/-- The laws at bits 4 to 7 of a word. -/
theorem bits_law_mid :
    IsField 7 4 ∧ (getBits (setBits 0xabcd 7 4 0x25) 7 4).toNat = 5 ∧
      getBits (setBits 0xabcd 7 4 0x25) 3 4 = getBits 0xabcd 3 4 := by
  have hlow : IsField 3 4 := by constructor <;> decide
  obtain ⟨hget, hother, -, -⟩ := bits_law isField_mid 0xabcd 0x25
  refine ⟨isField_mid, hget, hother 3 4 hlow ?_⟩
  right
  decide

end OxKernel.Libk
