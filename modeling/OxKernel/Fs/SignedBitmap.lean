import OxKernel.Fs.Bitmap
import OxKernel.Lib.Words

/-!
# Bits in a stream of signed bytes

`bitmap.c` with the arithmetic of C: a `char` is signed, it is promoted to `int` before it
meets the mask, and what is stored is cut down to a `char` again. Bit numbers and values are
`int`. The operations are those of the model over unsigned bytes.

## Main definitions

* `Signed.bitGet`, `Signed.bitSet` — the functions of `bitmap.h`.
* `bytes` — the data as unsigned bytes.

## Main results

* `Signed.bitGet_eq`, `Signed.bytes_bitSet` — both models agree.
* `Signed.bitGet_bitSet_self`, `Signed.bitGet_bitSet_of_ne` — what is set is read, and nothing
  else changes.
-/
namespace OxKernel.Fs

open Lib

/-- The data as unsigned bytes. -/
def bytes {n : ℕ} (data : Fin n → Int8) : Fin n → UInt8 := fun i => (data i).toUInt8

namespace Signed

variable {n : ℕ}

/-- `data[pos]`. -/
def charAt (data : Fin n → Int8) (pos : Int32) : Int8 :=
  if h : 0 ≤ pos.toInt ∧ pos.toInt.toNat < n then data ⟨pos.toInt.toNat, h.2⟩ else 0

/-- `bit_get`. -/
def bitGet (data : Fin n → Int8) (bit : Int32) : Int32 :=
  let pos := bit / 8
  let b := bit % 8
  if (charAt data pos).toInt32 &&& (1 <<< b) ≠ 0 then 1 else 0

/-- `bit_set`. -/
def bitSet (data : Fin n → Int8) (bit value : Int32) : Fin n → Int8 := fun i =>
  let pos := bit / 8
  let b := bit % 8
  if (i : ℤ) = pos.toInt then
    if value = 0 then ((data i).toInt32 &&& ~~~(1 <<< b)).toInt8
    else if value = 1 then ((data i).toInt32 ||| (1 <<< b)).toInt8
    else data i
  else data i

section

variable {k bit value : Int32} {data : Fin n → Int8}

/-! ### One byte -/

/-- `1 << b`. -/
theorem toBitVec_mask (hk : 0 ≤ k.toInt) (hk8 : k.toInt < 8) :
    (1 <<< k : Int32).toBitVec = BitVec.twoPow 32 k.toInt.toNat := by
  rw [toBitVec_shiftLeft_of_lt _ hk (by omega)]
  rfl

/-- The low eight bits of the mask. -/
theorem toUInt8_mask (hk : 0 ≤ k.toInt) (hk8 : k.toInt < 8) :
    (1 <<< k : Int32).toInt8.toUInt8 = bitMask k.toInt.toNat := by
  have hcut : ∀ b : Fin 8, (BitVec.twoPow 32 b).signExtend 8 = BitVec.twoPow 8 b := by decide
  have hb : k.toInt.toNat < 8 := by omega
  rw [← UInt8.toBitVec_inj, Int8.toBitVec_toUInt8, Int32.toBitVec_toInt8,
    toBitVec_mask hk hk8, bitMask_toBitVec hb]
  exact hcut ⟨_, hb⟩

/-- The bit is set in the low eight bits. -/
theorem toUInt8_or (x : Int8) (hk : 0 ≤ k.toInt) (hk8 : k.toInt < 8) :
    (x.toInt32 ||| (1 <<< k)).toInt8.toUInt8 = x.toUInt8 ||| bitMask k.toInt.toNat := by
  rw [Int32.toInt8_or, Int8.toInt8_toInt32, Int8.toUInt8_or, toUInt8_mask hk hk8]

/-- The bit is cleared in the low eight bits. -/
theorem toUInt8_and_not (x : Int8) (hk : 0 ≤ k.toInt) (hk8 : k.toInt < 8) :
    (x.toInt32 &&& ~~~(1 <<< k)).toInt8.toUInt8 =
      x.toUInt8 &&& ~~~bitMask k.toInt.toNat := by
  rw [Int32.toInt8_and, Int8.toInt8_toInt32, Int8.toUInt8_and, Int32.toInt8_not,
    Int8.toUInt8_not, toUInt8_mask hk hk8]

/-- The mask picks a bit of the byte, whatever its sign bit is copied to. -/
theorem toInt32_and_mask (x : Int8) (hk : 0 ≤ k.toInt) (hk8 : k.toInt < 8) :
    x.toInt32 &&& (1 <<< k) =
      if x.toUInt8.toBitVec.getLsbD k.toInt.toNat then 1 <<< k else 0 := by
  have hb : k.toInt.toNat < 8 := by omega
  have hb32 : k.toInt.toNat < 32 := by omega
  rw [← Int32.toBitVec_inj, Int32.toBitVec_and, toBitVec_mask hk hk8, BitVec.and_twoPow,
    Int8.toBitVec_toInt32, BitVec.getLsbD_signExtend, Int8.toBitVec_toUInt8]
  simp only [hb, hb32, decide_true, Bool.true_and, if_true]
  split
  · exact (toBitVec_mask hk hk8).symm
  · rfl

theorem mask_ne_zero (hk : 0 ≤ k.toInt) (hk8 : k.toInt < 8) : (1 <<< k : Int32) ≠ 0 := by
  have hne : ∀ b : Fin 8, BitVec.twoPow 32 b ≠ 0 := by decide
  intro hzero
  have hmask := toBitVec_mask hk hk8
  rw [hzero] at hmask
  exact hne ⟨k.toInt.toNat, by omega⟩ hmask.symm

/-! ### Bit numbers -/

theorem toInt_div_eight (hbit : 0 ≤ bit.toInt) : (bit / 8).toInt = bit.toInt / 8 := by
  rw [Int32.toInt_div_of_ne_right bit 8 (by decide)]
  exact Int.tdiv_eq_ediv_of_nonneg hbit

theorem toInt_mod_eight (hbit : 0 ≤ bit.toInt) : (bit % 8).toInt = bit.toInt % 8 := by
  rw [Int32.toInt_mod]
  exact Int.tmod_eq_emod_of_nonneg hbit

theorem mod_eight_bounds (hbit : 0 ≤ bit.toInt) :
    0 ≤ (bit % 8).toInt ∧ (bit % 8).toInt < 8 ∧
      (bit % 8).toInt.toNat = bit.toInt.toNat % 8 := by
  rw [toInt_mod_eight hbit]
  omega

theorem toUInt8_charAt (data : Fin n → Int8) (hbit : 0 ≤ bit.toInt) :
    (charAt data (bit / 8)).toUInt8 = byteAt (bytes data) (bit.toInt.toNat / 8) := by
  have hpos : (bit / 8).toInt.toNat = bit.toInt.toNat / 8 := by
    rw [toInt_div_eight hbit]
    omega
  have hnonneg : 0 ≤ (bit / 8).toInt := by
    rw [toInt_div_eight hbit]
    omega
  by_cases hn : bit.toInt.toNat / 8 < n
  · simp only [charAt, byteAt, bytes, hpos, hnonneg, hn, and_self, dif_pos]
  · simp only [charAt, byteAt, hpos, hn, and_false, dif_neg, not_false_eq_true]
    rfl

/-! ### The functions -/

/-- `bit_get` of both models. -/
theorem bitGet_eq (data : Fin n → Int8) (hbit : 0 ≤ bit.toInt) :
    bitGet data bit = if Fs.bitGet (bytes data) bit.toInt.toNat = 1 then 1 else 0 := by
  obtain ⟨hk, hk8, hmod⟩ := mod_eight_bounds hbit
  have hne := mask_ne_zero hk hk8
  have hiff : (charAt data (bit / 8)).toInt32 &&& (1 <<< (bit % 8)) ≠ 0 ↔
      Fs.bitGet (bytes data) bit.toInt.toNat = 1 := by
    rw [bitGet_eq_one, toInt32_and_mask _ hk hk8, hmod, toUInt8_charAt data hbit]
    split
    · rename_i hset
      exact iff_of_true hne hset
    · rename_i hclear
      exact iff_of_false (fun h => h rfl) hclear
  exact if_congr hiff rfl rfl

/-- A word is determined by its bits. -/
theorem toNat_toUInt32_eq (a b : Int32) : a.toUInt32.toNat = b.toUInt32.toNat ↔ a = b := by
  rw [UInt32.toNat_inj]
  constructor
  · intro h
    rw [← Int32.toBitVec_inj, ← Int32.toBitVec_toUInt32, h, Int32.toBitVec_toUInt32]
  · rintro rfl
    rfl

/-- `bit_set` of both models. -/
theorem bytes_bitSet (data : Fin n → Int8) (hbit : 0 ≤ bit.toInt) (value : Int32) :
    bytes (bitSet data bit value) =
      Fs.bitSet (bytes data) bit.toInt.toNat value.toUInt32.toNat := by
  obtain ⟨hk, hk8, hmod⟩ := mod_eight_bounds hbit
  have hzero : value.toUInt32.toNat = 0 ↔ value = 0 := toNat_toUInt32_eq value 0
  have hone : value.toUInt32.toNat = 1 ↔ value = 1 := toNat_toUInt32_eq value 1
  funext i
  have hpos : (i : ℤ) = (bit / 8).toInt ↔ (i : ℕ) = bit.toInt.toNat / 8 := by
    rw [toInt_div_eight hbit]
    omega
  simp only [bytes, bitSet, Fs.bitSet, hpos, hzero, hone]
  split
  · split
    · rw [toUInt8_and_not _ hk hk8, hmod]
    · split
      · rw [toUInt8_or _ hk hk8, hmod]
      · rfl
  · rfl

/-- `data` has the bit. -/
def HasBit (n : ℕ) (bit : Int32) : Prop := 0 ≤ bit.toInt ∧ bit.toInt < 8 * n

/-- A set bit reads back. -/
theorem bitGet_bitSet_self (data : Fin n → Int8) (hbit : HasBit n bit)
    (hvalue : value = 0 ∨ value = 1) : bitGet (bitSet data bit value) bit = value := by
  obtain ⟨hnonneg, hlt⟩ := hbit
  have hbyte : bit.toInt.toNat / 8 < n := by omega
  have hread : value.toUInt32.toNat = 0 ∨ value.toUInt32.toNat = 1 := by
    rcases hvalue with rfl | rfl
    · left
      rfl
    · right
      rfl
  rw [bitGet_eq _ hnonneg, bytes_bitSet data hnonneg, Fs.bitGet_bitSet_self hbyte hread]
  rcases hvalue with rfl | rfl <;> rfl

/-- Other bits do not change. -/
theorem bitGet_bitSet_of_ne (data : Fin n → Int8) {c : Int32} (hbit : HasBit n bit)
    (hc : HasBit n c) (hne : c ≠ bit) : bitGet (bitSet data bit value) c = bitGet data c := by
  have hnum : c.toInt.toNat ≠ bit.toInt.toNat := by
    intro h
    have hbit0 := hbit.1
    have hc0 := hc.1
    exact hne (Int32.toInt.inj (by omega))
  rw [bitGet_eq _ hc.1, bitGet_eq _ hc.1, bytes_bitSet data hbit.1,
    Fs.bitGet_bitSet_of_ne hnum]

end

end Signed

end OxKernel.Fs
