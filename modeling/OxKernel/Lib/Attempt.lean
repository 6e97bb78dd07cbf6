import Mathlib.Data.List.Basic

/-!
# Computations that may fail

A function of the source that leaves with an error keeps whatever it has changed so far,
so a computation here is a state transformer whose result is optional: a failure has a
final state too. Statements about such computations are triples with two postconditions,
one for the result and one for the failure.

## Main definitions

* `Attempt` — computations over a state that may fail.
* `Attempt.iterate` — a fixed number of rounds.
* `Attempt.Spec` — a precondition, a postcondition and a failure condition.
* `Attempt.Keeps` — a condition that a computation keeps.
-/
namespace OxKernel.Lib

/-- A computation over states `σ` that returns an `α` or fails. -/
def Attempt (σ α : Type) := σ → Option α × σ

namespace Attempt
variable {σ α β : Type}

instance : Monad (Attempt σ) where
  pure a := fun s => (some a, s)
  bind x f := fun s =>
    match x s with
    | (some a, s') => f a s'
    | (none, s') => (none, s')

/-- The state. -/
def get : Attempt σ σ := fun s => (some s, s)

/-- Change the state. -/
def modify (f : σ → σ) : Attempt σ Unit := fun s => (some (), f s)

/-- Run `f` for `n` rounds, each on the result of the one before. -/
def iterate (f : α → Attempt σ α) : ℕ → α → Attempt σ α
  | 0, a => pure a
  | n + 1, a => f a >>= iterate f n

@[simp] theorem pure_apply (a : α) (s : σ) : (pure a : Attempt σ α) s = (some a, s) := rfl

@[simp] theorem get_apply (s : σ) : (get : Attempt σ σ) s = (some s, s) := rfl

@[simp] theorem modify_apply (f : σ → σ) (s : σ) : modify f s = (some (), f s) := rfl

theorem bind_of_some {x : Attempt σ α} {f : α → Attempt σ β} {s s' : σ} {a : α}
    (h : x s = (some a, s')) : (x >>= f) s = f a s' := by
  show (match x s with | (some a, s') => f a s' | (none, s') => (none, s')) = _
  rw [h]

theorem bind_of_none {x : Attempt σ α} {f : α → Attempt σ β} {s s' : σ}
    (h : x s = (none, s')) : (x >>= f) s = (none, s') := by
  show (match x s with | (some a, s') => f a s' | (none, s') => (none, s')) = _
  rw [h]

/-- A computation that returns has returned from its first part and from the rest. -/
theorem bind_eq_some {x : Attempt σ α} {f : α → Attempt σ β} {s s' : σ} {b : β} :
    (x >>= f) s = (some b, s') ↔ ∃ a s₁, x s = (some a, s₁) ∧ f a s₁ = (some b, s') := by
  constructor
  · intro h
    rcases hr : x s with ⟨_ | a, s₁⟩
    · rw [bind_of_none hr] at h
      cases h
    · rw [bind_of_some hr] at h
      exact ⟨a, s₁, rfl, h⟩
  · rintro ⟨a, s₁, hr, h⟩
    rw [bind_of_some hr]
    exact h

@[simp] theorem pure_bind_apply (a : α) (f : α → Attempt σ β) (s : σ) :
    ((pure a : Attempt σ α) >>= f) s = f a s := rfl

@[simp] theorem get_bind_apply (f : σ → Attempt σ β) (s : σ) : (get >>= f) s = f s s := rfl

@[simp] theorem modify_bind_apply (g : σ → σ) (f : Unit → Attempt σ β) (s : σ) :
    (modify g >>= f) s = f () (g s) := rfl

@[simp] theorem iterate_zero (f : α → Attempt σ α) (a : α) : iterate f 0 a = pure a := rfl

theorem iterate_succ (f : α → Attempt σ α) (n : ℕ) (a : α) :
    iterate f (n + 1) a = f a >>= iterate f n := rfl

/-- From a state with `P` the computation returns a result with `Q`, or fails with `E`. -/
def Spec (P : σ → Prop) (x : Attempt σ α) (Q : α → σ → Prop) (E : σ → Prop) : Prop :=
  ∀ s, P s → (∃ a s', x s = (some a, s') ∧ Q a s') ∨ ∃ s', x s = (none, s') ∧ E s'

variable {P : σ → Prop} {Q : α → σ → Prop} {E : σ → Prop}

/-- One computation after another. -/
theorem Spec.bind {x : Attempt σ α} {f : α → Attempt σ β} {R : β → σ → Prop} (hx : Spec P x Q E)
    (hf : ∀ a, Spec (Q a) (f a) R E) : Spec P (x >>= f) R E := by
  intro s hs
  rcases hx s hs with ⟨a, s', hr, ha⟩ | ⟨s', hr, he⟩
  · rw [bind_of_some hr]
    exact hf a s' ha
  · right
    exact ⟨s', bind_of_none hr, he⟩

/-- **The loop rule.** An invariant that may mention the number of the round. -/
theorem Spec.iterate {f : α → Attempt σ α} {I : ℕ → α → σ → Prop} {n : ℕ}
    (h : ∀ i a, i < n → Spec (I i a) (f a) (I (i + 1)) E) (a : α) :
    Spec (I 0 a) (Attempt.iterate f n a) (I n) E := by
  have hgo : ∀ k i a, i + k = n → Spec (I i a) (Attempt.iterate f k a) (I n) E := by
    intro k
    induction k with
    | zero =>
        intro i a hi s hs
        left
        refine ⟨a, s, rfl, ?_⟩
        rw [← hi]
        exact hs
    | succ k ih =>
        intro i a hi
        rw [iterate_succ]
        exact Spec.bind (h i a (by omega)) fun b => ih (i + 1) b (by omega)
  exact hgo n 0 a (Nat.zero_add n)

/-! ## Conditions that computations keep -/

section Keeps
variable {x : Attempt σ α}

/-- Whether it returns or fails, the computation leaves the condition as it is. -/
def Keeps (P : σ → Prop) (x : Attempt σ α) : Prop := ∀ s, P s → P (x s).2

theorem Keeps.pure (a : α) : Keeps P (Pure.pure a : Attempt σ α) := fun _ h => h

theorem Keeps.bind {f : α → Attempt σ β} (hx : Keeps P x) (hf : ∀ a, Keeps P (f a)) :
    Keeps P (x >>= f) := by
  intro s hs
  have hs' := hx s hs
  rcases hr : x s with ⟨_ | a, s'⟩
  · rw [hr] at hs'
    rw [bind_of_none hr]
    exact hs'
  · rw [hr] at hs'
    rw [bind_of_some hr]
    exact hf a s' hs'

theorem Keeps.ite {c : Prop} [Decidable c] {y : Attempt σ α} (hx : Keeps P x) (hy : Keeps P y) :
    Keeps P (if c then x else y) := by
  split
  · exact hx
  · exact hy

theorem Keeps.iterate {f : α → Attempt σ α} (h : ∀ a, Keeps P (f a)) (n : ℕ) (a : α) :
    Keeps P (iterate f n a) := by
  induction n generalizing a with
  | zero => exact Keeps.pure a
  | succ n ih => exact (h a).bind ih

/-- What a computation keeps holds in the state it returns in. -/
theorem Keeps.after (h : Keeps P x) {s s' : σ} {r : Option α} (hs : P s) (hr : x s = (r, s')) :
    P s' := by
  have hs' := h s hs
  rwa [hr] at hs'

end Keeps

end Attempt
end OxKernel.Lib
