import Mathlib.Data.List.Basic
import Mathlib.Order.WellFounded

/-!
# Loops with a variant

A loop is a body that either goes on from a new state or leaves with a result,
together with a variant that every round decreases. The variant is a field of the
loop, so `run` is a total function and no fuel appears in statements about it;
`exists_iter_eq_run` says in terms of single rounds that the loop is left.

## Main definitions

* `Loop.run` — the result of the loop.
* `Loop.iter` — a given number of rounds.
* `Loop.run_rule` — the invariant rule.

A loop that only looks for the first entry of a table with some property is `List.find?`
over `List.finRange`.
-/
namespace OxKernel.Lib

universe u v w
variable {σ : Type u} {ρ : Type v} {α : Type w} [WellFoundedRelation α]

/-- A loop body and the variant that shows its termination. -/
structure Loop (σ : Type u) (ρ : Type v) (α : Type w) [WellFoundedRelation α] where
  /-- One round: a new state, or the result. -/
  body : σ → σ ⊕ ρ
  /-- What every round decreases. -/
  variant : σ → α
  decreases : ∀ s s', body s = .inl s' → WellFoundedRelation.rel (variant s') (variant s)

/-- The lexicographic order of triples, the variant of three nested loops. -/
theorem rel_triple {a b : ℕ × ℕ × ℕ} :
    WellFoundedRelation.rel a b ↔
      a.1 < b.1 ∨ a.1 = b.1 ∧ (a.2.1 < b.2.1 ∨ a.2.1 = b.2.1 ∧ a.2.2 < b.2.2) := by
  have h : WellFoundedRelation.rel a b ↔ Prod.Lex (· < ·) (Prod.Lex (· < ·) (· < ·)) a b := Iff.rfl
  rw [h, Prod.lex_def, Prod.lex_def]

namespace Loop

/-- Run the loop until it is left. -/
def run (L : Loop σ ρ α) (s : σ) : ρ :=
  match _h : L.body s with
  | .inl s' => L.run s'
  | .inr r => r
termination_by L.variant s
decreasing_by exact L.decreases s s' (by assumption)

/-- Run `n` rounds, or fewer if the loop is left before. -/
def iter (L : Loop σ ρ α) : ℕ → σ → σ ⊕ ρ
  | 0, s => .inl s
  | n + 1, s =>
    match L.body s with
    | .inl s' => L.iter n s'
    | .inr r => .inr r

variable {L : Loop σ ρ α} {s s' : σ} {r : ρ}

theorem run_of_inl (h : L.body s = .inl s') : L.run s = L.run s' := by
  rw [run]
  split
  · rename_i h'
    rw [h] at h'
    rw [Sum.inl.inj h']
  · rename_i h'
    rw [h] at h'
    cases h'

theorem run_of_inr (h : L.body s = .inr r) : L.run s = r := by
  rw [run]
  split
  · rename_i h'
    rw [h] at h'
    cases h'
  · rename_i h'
    rw [h] at h'
    exact (Sum.inr.inj h').symm

variable (L) in
/-- **Induction along a loop**: a property of states holds everywhere if each state
inherits it from the next round. -/
theorem induction {C : σ → Prop} (h : ∀ s, (∀ s', L.body s = .inl s' → C s') → C s) (s : σ) :
    C s := by
  have hwf : WellFounded fun a b => WellFoundedRelation.rel (L.variant a) (L.variant b) :=
    InvImage.wf L.variant WellFoundedRelation.wf
  induction s using hwf.induction with
  | _ s ih => exact h s fun s' hs => ih s' (L.decreases s s' hs)

/-- **The loop is left after finitely many rounds**, with the result of `run`. -/
theorem exists_iter_eq_run (s : σ) : ∃ n, L.iter n s = .inr (L.run s) := by
  induction s using L.induction with
  | _ s ih =>
      cases h : L.body s with
      | inl s' =>
          obtain ⟨n, hn⟩ := ih s' h
          refine ⟨n + 1, ?_⟩
          rw [iter, h, run_of_inl h]
          exact hn
      | inr r =>
          refine ⟨1, ?_⟩
          rw [iter, h, run_of_inr h]

/-- **The invariant rule.** An invariant that every round keeps, and that gives the
postcondition when the loop is left, gives it for the result. -/
theorem run_rule {P : σ → Prop} {Q : ρ → Prop} (hkeep : ∀ s s', P s → L.body s = .inl s' → P s')
    (hleave : ∀ s r, P s → L.body s = .inr r → Q r) (s : σ) (hs : P s) : Q (L.run s) := by
  induction s using L.induction with
  | _ s ih =>
      cases h : L.body s with
      | inl s' =>
          rw [run_of_inl h]
          exact ih s' h (hkeep s s' hs h)
      | inr r =>
          rw [run_of_inr h]
          exact hleave s r hs h

end Loop

/-- A search loop over the indices of a table returns the first index that passes the
test. -/
theorem find?_finRange_eq_some {n : ℕ} {p : Fin n → Bool} {i : Fin n} (hi : p i = true)
    (hlt : ∀ j, j < i → p j = false) : (List.finRange n).find? p = some i := by
  rw [List.find?_eq_some_iff_getElem]
  refine ⟨hi, i, by simp, by simp, fun j hj => ?_⟩
  have := hlt ⟨j, hj.trans i.isLt⟩ hj
  simpa using this

end OxKernel.Lib
