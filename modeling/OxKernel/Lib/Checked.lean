import Mathlib.Algebra.Group.Int.Defs
import Mathlib.Algebra.Group.Nat.Defs
import Mathlib.Data.Int.Order.Basic

/-!
# Signed arithmetic that keeps track of overflow

A 32-bit signed word together with a flag that says whether every operation on the way to it
came to the same value as over the integers. The word is what a machine that wraps around has
in its register; where the flag is set, no intermediate value has overflowed.

## Main definitions

* `Checked` — a word and its flag, with the arithmetic of C.
* `Checked.Holds` — no overflow up to here, and the value.
* `Checked.Wraps` — the value modulo `2 ^ 32`, overflow or not.

## Main results

* `Holds.add` and its companions — the value of an operation that stays in range.
* `Wraps.add` and its companions — the value of an operation modulo `2 ^ 32`.
-/
namespace OxKernel.Lib

/-- A word, and whether it is exact. -/
structure Checked where
  val : Int32
  exact : Bool
  deriving DecidableEq, Repr

namespace Checked

/-- An operation on words stands for one on the integers. -/
def lift (f : Int32 → Int32 → Int32) (g : ℤ → ℤ → ℤ) (a b : Checked) : Checked :=
  ⟨f a.val b.val, a.exact && b.exact && (f a.val b.val).toInt = g a.val.toInt b.val.toInt⟩

instance : Add Checked := ⟨lift (· + ·) (· + ·)⟩
instance : Sub Checked := ⟨lift (· - ·) (· - ·)⟩
instance : Mul Checked := ⟨lift (· * ·) (· * ·)⟩
/-- Division in C truncates. -/
instance : Div Checked := ⟨lift (· / ·) Int.tdiv⟩
instance : Mod Checked := ⟨lift (· % ·) Int.tmod⟩
instance : Coe Int32 Checked := ⟨fun a => ⟨a, true⟩⟩
instance (n : ℕ) : OfNat Checked n := ⟨⟨Int32.ofNat n, true⟩⟩

/-- The result of a branch, with what was computed for its condition. -/
def after (a c : Checked) : Checked := ⟨a.val, a.exact && c.exact⟩

variable {a b : Checked} {m n : ℤ}

@[simp] theorem add_val : (a + b).val = a.val + b.val := rfl
@[simp] theorem sub_val : (a - b).val = a.val - b.val := rfl
@[simp] theorem mul_val : (a * b).val = a.val * b.val := rfl
@[simp] theorem div_val : (a / b).val = a.val / b.val := rfl
@[simp] theorem mod_val : (a % b).val = a.val % b.val := rfl
@[simp] theorem after_val : (a.after b).val = a.val := rfl

/-! ### Values in range -/

/-- An integer that a word can hold. -/
def InRange (n : ℤ) : Prop := -2 ^ 31 ≤ n ∧ n < 2 ^ 31

theorem inRange_toInt (x : Int32) : InRange x.toInt := ⟨x.le_toInt, x.toInt_lt⟩

theorem bmod_of_inRange (h : InRange n) : n.bmod (2 ^ 32) = n :=
  Int.bmod_eq_of_le h.1 h.2

/-- Nothing has overflowed, and the value is `n`. -/
def Holds (a : Checked) (n : ℤ) : Prop := a.exact = true ∧ a.val.toInt = n

theorem Holds.coe (x : Int32) : Holds x x.toInt := ⟨rfl, rfl⟩

theorem Holds.inRange (h : Holds a n) : InRange n := h.2 ▸ inRange_toInt a.val

theorem Holds.lift {f : Int32 → Int32 → Int32} {g : ℤ → ℤ → ℤ} (ha : Holds a m) (hb : Holds b n)
    (h : (f a.val b.val).toInt = g a.val.toInt b.val.toInt) : Holds (lift f g a b) (g m n) := by
  obtain ⟨hae, rfl⟩ := ha
  obtain ⟨hbe, rfl⟩ := hb
  exact ⟨by simp [Checked.lift, hae, hbe, h], h⟩

theorem Holds.add (ha : Holds a m) (hb : Holds b n) (h : InRange (m + n)) :
    Holds (a + b) (m + n) := by
  apply Holds.lift ha hb
  rw [Int32.toInt_add, ha.2, hb.2, bmod_of_inRange h]

theorem Holds.sub (ha : Holds a m) (hb : Holds b n) (h : InRange (m - n)) :
    Holds (a - b) (m - n) := by
  apply Holds.lift ha hb
  rw [Int32.toInt_sub, ha.2, hb.2, bmod_of_inRange h]

theorem Holds.mul (ha : Holds a m) (hb : Holds b n) (h : InRange (m * n)) :
    Holds (a * b) (m * n) := by
  apply Holds.lift ha hb
  rw [Int32.toInt_mul, ha.2, hb.2, bmod_of_inRange h]

/-- Only the minimum divided by `-1` overflows. -/
theorem Holds.div (ha : Holds a m) (hb : Holds b n) (h : n ≠ -1) :
    Holds (a / b) (m.tdiv n) := by
  apply Holds.lift ha hb
  apply Int32.toInt_div_of_ne_right
  rintro hval
  exact h (by rw [← hb.2, hval]; rfl)

theorem Holds.mod (ha : Holds a m) (hb : Holds b n) : Holds (a % b) (m.tmod n) :=
  Holds.lift ha hb (Int32.toInt_mod ..)

theorem Holds.after (ha : Holds a m) (hb : Holds b n) : Holds (a.after b) m :=
  ⟨by simp [Checked.after, ha.1, hb.1], ha.2⟩

/-! ### Values modulo `2 ^ 32` -/

/-- The value is `n`, modulo `2 ^ 32`. -/
def Wraps (a : Checked) (n : ℤ) : Prop := a.val = Int32.ofInt n

theorem Wraps.add (ha : Wraps a m) (hb : Wraps b n) : Wraps (a + b) (m + n) := by
  rw [Wraps, add_val, ha, hb, Int32.ofInt_add]

theorem Wraps.sub (ha : Wraps a m) (hb : Wraps b n) : Wraps (a - b) (m - n) := by
  rw [Wraps, sub_val, ha, hb, Int32.ofInt_sub]

theorem Wraps.mul (ha : Wraps a m) (hb : Wraps b n) : Wraps (a * b) (m * n) := by
  rw [Wraps, mul_val, ha, hb, Int32.ofInt_mul]

theorem Wraps.after (ha : Wraps a m) (b : Checked) : Wraps (a.after b) m := ha

end Checked
end OxKernel.Lib
