import Mathlib.Algebra.BigOperators.Fin
import Mathlib.Algebra.BigOperators.Group.Finset.Piecewise
import Mathlib.Data.Fintype.Card

/-!
# Counting entries of a table

The number of entries of a finite table that have some property, and how it changes with one
entry: what a counter kept beside a table is compared with.

## Main definitions

* `tally` — the number of entries with a property.
-/
namespace OxKernel.Lib

universe u v
variable {ι : Type u} {α : Type v} [Fintype ι] (c : α → Prop) [DecidablePred c]

/-- The number of entries with a property. -/
def tally (f : ι → α) : ℕ := (Finset.univ.filter fun i => c (f i)).card

variable {c} {f : ι → α} {i : ι} {x : α}

theorem tally_eq_sum : tally c f = ∑ i, if c (f i) then 1 else 0 := Finset.card_filter ..

theorem tally_le : tally c f ≤ Fintype.card ι := Finset.card_le_univ _

theorem tally_eq_zero : tally c f = 0 ↔ ∀ i, ¬ c (f i) := by
  rw [tally, Finset.card_eq_zero, Finset.filter_eq_empty_iff]
  simp

theorem tally_congr {g : ι → α} (h : ∀ i, c (f i) ↔ c (g i)) : tally c f = tally c g := by
  rw [tally, tally, Finset.filter_congr fun i _ => h i]

/-- **One entry changes.** -/
theorem tally_update [DecidableEq ι] :
    tally c (Function.update f i x) + (if c (f i) then 1 else 0) =
      tally c f + if c x then 1 else 0 := by
  have hcomp : ∀ y : α, (tally c (Function.update f i y)) =
      (if c y then 1 else 0) + ∑ j ∈ Finset.univ \ {i}, if c (f j) then 1 else 0 := by
    intro y
    rw [tally_eq_sum, ← Finset.sum_update_of_mem (Finset.mem_univ i)]
    apply Finset.sum_congr rfl
    intro j _
    by_cases hj : j = i
    · subst hj
      simp
    · simp [Function.update_of_ne hj]
  have hself := hcomp (f i)
  rw [Function.update_eq_self] at hself
  have hx := hcomp x
  omega

/-- An entry that comes to have the property. -/
theorem tally_gain [DecidableEq ι] (hf : ¬ c (f i)) (hx : c x) :
    tally c (Function.update f i x) = tally c f + 1 := by
  have h := tally_update (c := c) (f := f) (i := i) (x := x)
  rwa [if_neg hf, if_pos hx] at h

/-- An entry that loses the property. -/
theorem tally_lose [DecidableEq ι] (hf : c (f i)) (hx : ¬ c x) :
    tally c (Function.update f i x) + 1 = tally c f := by
  have h := tally_update (c := c) (f := f) (i := i) (x := x)
  rwa [if_pos hf, if_neg hx] at h

/-- An entry that stays with or without the property. -/
theorem tally_same [DecidableEq ι] (h : c x ↔ c (f i)) :
    tally c (Function.update f i x) = tally c f := by
  apply tally_congr
  intro j
  by_cases hj : j = i
  · subst hj
    rwa [Function.update_self]
  · rw [Function.update_of_ne hj]

/-- An entry without the property behind the others. -/
theorem tally_castSucc {n : ℕ} {f : Fin (n + 1) → α} (h : ¬ c (f (Fin.last n))) :
    tally c f = tally c fun i : Fin n => f i.castSucc := by
  rw [tally_eq_sum, tally_eq_sum, Fin.sum_univ_castSucc, if_neg h, add_zero]

/-- The entries with a property, in the order of their indices. -/
theorem countP_finRange {n : ℕ} {f : Fin n → α} :
    (List.finRange n).countP (fun i => c (f i)) = tally c f := by
  rw [List.countP_eq_length_filter]
  rfl

end OxKernel.Lib
