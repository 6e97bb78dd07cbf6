import Mathlib.Algebra.Group.Nat.Defs

/-!
# Words as numbers

Arithmetic of 32-bit words that is the arithmetic of numbers: sums that fit, an index that
goes around a power of two, and offsets from a place. An offset `a - b` is a number below
`2 ^ 32` also where the addresses go around, so "`a` is among the `n` bytes from `b` on" is
`(a - b).toNat < n`.

## Main results

* `toNat_add_of_lt`, `toNat_succ`, `toNat_succ_of_lt` — a sum that fits.
* `toNat_succ_mod` — the next index of a ring of 512.
* `lt_of_part` — a byte of a part is a byte of the whole.
* `toBitVec_shiftLeft_of_lt` — a shift of a signed word.
-/
namespace OxKernel.Lib

variable {a b base k : UInt32} {n m : ℕ}

theorem toNat_add_of_lt (h : a.toNat + b.toNat < 2 ^ 32) :
    (a + b).toNat = a.toNat + b.toNat := by
  rw [UInt32.toNat_add]
  exact Nat.mod_eq_of_lt h

theorem toNat_succ (h : a.toNat + 1 < 2 ^ 32) : (a + 1).toNat = a.toNat + 1 :=
  toNat_add_of_lt h

/-- A word that another one exceeds has a successor. -/
theorem toNat_succ_of_lt (h : a < b) : (a + 1).toNat = a.toNat + 1 := by
  have hb := b.toNat_lt
  have hlt := UInt32.lt_iff_toNat_lt.mp h
  exact toNat_succ (by omega)

theorem toNat_succ_mod (a : UInt32) : ((a + 1) % 512).toNat = (a.toNat + 1) % 512 := by
  have h512 : (512 : UInt32).toNat = 512 := rfl
  have hone : (1 : UInt32).toNat = 1 := rfl
  rw [UInt32.toNat_mod, UInt32.toNat_add, h512, hone]
  -- 512 divides the number of words.
  exact Nat.mod_mod_of_dvd _ ⟨2 ^ 23, rfl⟩

/-- `n` bytes at offset `k` are among the first `m` bytes. -/
theorem lt_of_part (h : (a - (base + k)).toNat < n) (hkn : k.toNat + n ≤ m)
    (hm : m ≤ 2 ^ 32) : (a - base).toNat < m := by
  have ha := a.toNat_lt
  have hbase := base.toNat_lt
  rw [UInt32.toNat_sub, UInt32.toNat_add] at h
  rw [UInt32.toNat_sub]
  omega

/-! ### Signed words -/

section

variable {k : Int32}

/-- A nonnegative word as a number. -/
theorem toNat_toBitVec_of_nonneg (hk : 0 ≤ k.toInt) : k.toBitVec.toNat = k.toInt.toNat := by
  have hlt := k.toBitVec.isLt
  have hcond := BitVec.toInt_eq_toNat_cond k.toBitVec
  rw [Int32.toInt_toBitVec] at hcond
  split at hcond
  · omega
  · omega

/-- A shift by less than the width. -/
theorem toBitVec_shiftLeft_of_lt (a : Int32) (hk : 0 ≤ k.toInt) (hlt : k.toInt < 32) :
    (a <<< k).toBitVec = a.toBitVec <<< k.toInt.toNat := by
  have hmod : (k.toBitVec.smod 32).toInt = k.toInt := by
    rw [BitVec.toInt_smod]
    exact Int.fmod_eq_of_lt hk hlt
  have hword : k.toBitVec.smod 32 = k.toBitVec := BitVec.eq_of_toInt_eq hmod
  rw [Int32.toBitVec_shiftLeft, hword, BitVec.shiftLeft_eq', toNat_toBitVec_of_nonneg hk]

end

end OxKernel.Lib
