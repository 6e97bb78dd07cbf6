import Mathlib.Algebra.Group.Nat.Defs

/-!
# Fields of bits in a word

A field is `n` bits of a word from bit `s` on. It is read by a shift and a mask, and stored by
clearing it and putting the low bits of another word in its place. Both are described bit by
bit, for words of any width.

## Main definitions

* `lowMask` — the word of the `n` low bits.
* `field`, `setField` — a field, and the word with another one in its place.

## Main results

* `getLsbD_field`, `getLsbD_setField` — every bit.
* `field_setField`, `field_setField_of_disjoint`, `setField_field` — what is stored is read
  back, other fields stay, and a field that is stored in its own place changes nothing.
-/
namespace OxKernel.Lib

variable {w s n t m : ℕ} {x y : BitVec w}

/-- The word with the `n` low bits set. -/
def lowMask (w n : ℕ) : BitVec w := ~~~(~~~0#w <<< n)

/-- The `n` bits from bit `s` on. -/
def field (x : BitVec w) (s n : ℕ) : BitVec w := (x >>> s) &&& lowMask w n

/-- The word with the low bits of `y` in the place of the field. -/
def setField (x : BitVec w) (s n : ℕ) (y : BitVec w) : BitVec w :=
  (x &&& ~~~(lowMask w n <<< s)) ||| ((y &&& lowMask w n) <<< s)

theorem getLsbD_lowMask (w n i : ℕ) :
    (lowMask w n).getLsbD i = (decide (i < w) && decide (i < n)) := by
  by_cases hw : i < w
  · by_cases hn : i < n
    · simp [lowMask, hw, hn]
    · simp [lowMask, hw, hn]
  · simp [lowMask, hw]

theorem getLsbD_field (x : BitVec w) (s n i : ℕ) :
    (field x s n).getLsbD i = (decide (i < n) && x.getLsbD (s + i)) := by
  rw [field, BitVec.getLsbD_and, BitVec.getLsbD_ushiftRight, getLsbD_lowMask]
  by_cases hw : i < w
  · simp [hw, Bool.and_comm]
  · have hbeyond : x.getLsbD (s + i) = false := BitVec.getLsbD_of_ge x (s + i) (by omega)
    simp [hbeyond]

/-- A bit of the field is a low bit of `y`, the other bits stay. -/
theorem getLsbD_setField {i : ℕ} (hi : i < w) :
    (setField x s n y).getLsbD i =
      if s ≤ i ∧ i < s + n then y.getLsbD (i - s) else x.getLsbD i := by
  rw [setField, BitVec.getLsbD_or, BitVec.getLsbD_and, BitVec.getLsbD_not,
    BitVec.getLsbD_shiftLeft, BitVec.getLsbD_shiftLeft, BitVec.getLsbD_and, getLsbD_lowMask]
  by_cases hs : i < s
  · have hout : ¬ (s ≤ i ∧ i < s + n) := by omega
    simp [hi, hs, hout]
  · have hw : i - s < w := by omega
    by_cases hn : i - s < n
    · have hin : s ≤ i ∧ i < s + n := by omega
      simp [hi, hs, hw, hn, hin]
    · have hout : ¬ (s ≤ i ∧ i < s + n) := by omega
      simp [hi, hs, hn, hout]

/-- **What is stored is read back.** -/
theorem field_setField (h : s + n ≤ w) : field (setField x s n y) s n = y &&& lowMask w n := by
  apply BitVec.eq_of_getLsbD_eq
  intro i hi
  rw [getLsbD_field, BitVec.getLsbD_and, getLsbD_lowMask]
  by_cases hn : i < n
  · have hin : s ≤ s + i ∧ s + i < s + n := by omega
    rw [getLsbD_setField (by omega), if_pos hin, Nat.add_sub_cancel_left]
    simp [hi, hn]
  · simp [hn]

/-- **Other fields stay.** -/
theorem field_setField_of_disjoint (h : t + m ≤ s ∨ s + n ≤ t) :
    field (setField x s n y) t m = field x t m := by
  apply BitVec.eq_of_getLsbD_eq
  intro i hi
  rw [getLsbD_field, getLsbD_field]
  by_cases hm : i < m
  · by_cases hw : t + i < w
    · have hout : ¬ (s ≤ t + i ∧ t + i < s + n) := by omega
      rw [getLsbD_setField hw, if_neg hout]
    · rw [BitVec.getLsbD_of_ge _ _ (by omega), BitVec.getLsbD_of_ge _ _ (by omega)]
  · simp [hm]

/-- **A field stored in its own place** changes nothing. -/
theorem setField_field : setField x s n (field x s n) = x := by
  apply BitVec.eq_of_getLsbD_eq
  intro i hi
  rw [getLsbD_setField hi]
  split
  · rename_i hin
    have hn : i - s < n := by omega
    have hadd : s + (i - s) = i := by omega
    rw [getLsbD_field, hadd]
    simp [hn]
  · rfl

/-- The low bits of a word as a number. -/
theorem toNat_and_lowMask (hn : n ≤ w) : (y &&& lowMask w n).toNat = y.toNat % 2 ^ n := by
  apply Nat.eq_of_testBit_eq
  intro i
  rw [BitVec.testBit_toNat, BitVec.getLsbD_and, getLsbD_lowMask, Nat.testBit_mod_two_pow,
    BitVec.testBit_toNat]
  by_cases hi : i < n
  · have hw : i < w := by omega
    simp [hi, hw]
  · simp [hi]

end OxKernel.Lib
