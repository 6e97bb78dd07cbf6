import Mathlib.Tactic.Common

/-!
# Computations that leave a trace

A computation without a state that may give up, and that lists what it touches on its way.
What it touches before it gives up is in the list, too, so a condition on the whole list is
one on every step that is taken.

## Main definitions

* `Traced` — the result, if there is one, and the list.
* `Traced.touch`, `Traced.require` — touch something, and give up unless a condition holds.
* `Traced.All` — everything that is touched has a property.

## Main results

* `Traced.all_bind` — a sequence touches what its parts touch.
-/
namespace OxKernel.Lib

variable {τ α β : Type}

/-- The result, and what is touched. -/
def Traced (τ α : Type) : Type := Option α × List τ

namespace Traced

/-- The result, unless the computation gives up. -/
def value (x : Traced τ α) : Option α := x.1

/-- What is touched. -/
def trace (x : Traced τ α) : List τ := x.2

instance : Monad (Traced τ) where
  pure a := (some a, [])
  bind x f :=
    match x with
    | (none, l) => (none, l)
    | (some a, l) => ((f a).1, l ++ (f a).2)

/-- Touch the things of a list. -/
def touch (l : List τ) : Traced τ Unit := (some (), l)

/-- Give up. -/
def fail : Traced τ α := (none, [])

/-- Go on if a condition holds. -/
def require (c : Prop) [Decidable c] : Traced τ Unit := if c then pure () else fail

/-- Everything that is touched has a property. -/
def All (P : τ → Prop) (x : Traced τ α) : Prop := ∀ t ∈ x.trace, P t

section
variable {P : τ → Prop} {x : Traced τ α} {f : α → Traced τ β} {a : α} {b : β} {l : List τ}

@[simp] theorem value_pure (a : α) : (pure a : Traced τ α).value = some a := rfl

@[simp] theorem value_fail : (fail : Traced τ α).value = none := rfl

@[simp] theorem value_touch (l : List τ) : (touch l).value = some () := rfl

@[simp] theorem value_require {c : Prop} [Decidable c] :
    (require c : Traced τ Unit).value = if c then some () else none := by
  rw [require]
  split <;> rfl

@[simp] theorem value_bind (x : Traced τ α) (f : α → Traced τ β) :
    (x >>= f).value = x.value.bind fun a => (f a).value := by
  rcases x with ⟨_ | a, l⟩ <;> rfl

@[simp] theorem all_pure (a : α) : (pure a : Traced τ α).All P := fun _ h => absurd h List.not_mem_nil

@[simp] theorem all_fail : (fail : Traced τ α).All P := fun _ h => absurd h List.not_mem_nil

theorem all_touch : (touch l).All P ↔ ∀ t ∈ l, P t := Iff.rfl

@[simp] theorem all_require {c : Prop} [Decidable c] : (require c : Traced τ Unit).All P := by
  rw [require]
  split
  · exact all_pure ()
  · exact all_fail

/-- **A sequence** touches what its first part touches and, if that has a result, what the rest
touches. -/
@[simp] theorem all_bind :
    (x >>= f).All P ↔ x.All P ∧ ∀ a, x.value = some a → (f a).All P := by
  rcases x with ⟨_ | a, l⟩
  · exact ⟨fun h => ⟨h, fun a ha => by cases ha⟩, fun h => h.1⟩
  · constructor
    · intro h
      refine ⟨fun t ht => h t (List.mem_append_left _ ht), fun b hb t ht => ?_⟩
      cases hb
      exact h t (List.mem_append_right _ ht)
    · rintro ⟨hx, hf⟩ t ht
      rcases List.mem_append.mp ht with ht | ht
      · exact hx t ht
      · exact hf a rfl t ht

theorem trace_eq_nil : x.trace = [] ↔ x.All fun _ => False := List.eq_nil_iff_forall_not_mem

end

end Traced

end OxKernel.Lib
