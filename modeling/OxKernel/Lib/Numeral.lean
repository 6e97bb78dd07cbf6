import Mathlib.Data.Nat.Digits.Defs

/-!
# Numerals

Numbers in a base, written with the most significant digit first. A reader goes through the
digits once and keeps the value of what it has seen; a writer divides by the base and gets
the digits in the other order.

## Main definitions

* `readDigits` — the value of digits read on top of a value.

## Main results

* `readDigits_reverse` — a writer's digits read back, and `readDigits_digits` for the digits
  of a number.
* `toDigits_eq` — the characters of a number.
-/
namespace OxKernel.Lib

/-- Read digits on top of a value. -/
def readDigits (b : ℕ) : List ℕ → ℕ → ℕ
  | [], n => n
  | d :: ds, n => readDigits b ds (n * b + d)

variable {b : ℕ}

@[simp] theorem readDigits_nil (n : ℕ) : readDigits b [] n = n := rfl

@[simp] theorem readDigits_cons (d : ℕ) (ds : List ℕ) (n : ℕ) :
    readDigits b (d :: ds) n = readDigits b ds (n * b + d) := rfl

theorem readDigits_append (ds es : List ℕ) (n : ℕ) :
    readDigits b (ds ++ es) n = readDigits b es (readDigits b ds n) := by
  induction ds generalizing n with
  | nil => rfl
  | cons d ds ih => exact ih (n * b + d)

/-- Digits that were written from the least significant one on. -/
theorem readDigits_reverse (ds : List ℕ) : readDigits b ds.reverse 0 = Nat.ofDigits b ds := by
  induction ds with
  | nil => rfl
  | cons d ds ih =>
      rw [List.reverse_cons, readDigits_append, ih, readDigits_cons, readDigits_nil,
        Nat.ofDigits_cons, Nat.mul_comm, Nat.add_comm]

/-- **The digits of a number read back as the number.** -/
theorem readDigits_digits (b n : ℕ) : readDigits b (b.digits n).reverse 0 = n := by
  rw [readDigits_reverse, Nat.ofDigits_digits]

/-- **The characters of a number**, the most significant one first. -/
theorem toDigits_eq (hb : 1 < b) {n : ℕ} (hn : n ≠ 0) :
    Nat.toDigits b n = ((b.digits n).map Nat.digitChar).reverse := by
  induction n using Nat.strong_induction_on with
  | _ n ih =>
      have hdigits := Nat.digits_def' hb (Nat.pos_of_ne_zero hn)
      by_cases hlt : n < b
      · simp [hdigits, Nat.toDigits_of_lt_base hlt, Nat.div_eq_of_lt hlt, Nat.mod_eq_of_lt hlt]
      · have hle : b ≤ n := not_lt.mp hlt
        have hdiv : n / b ≠ 0 := (Nat.div_pos hle (by omega)).ne'
        rw [Nat.toDigits_of_base_le hb hle, ih (n / b) (Nat.div_lt_self (by omega) hb) hdiv, hdigits]
        simp

end OxKernel.Lib
