import OxKernel.Lib.Call

/-!
# Computations that return a known result

From a state with one condition a computation returns a result that is known beforehand, and
leaves a state with another condition. Such computations are put together one after the
other.

## Main definitions

* `Call.Gives` — a condition before, the result, and a condition after.
-/
namespace OxKernel.Lib.Call

variable {ε σ α β : Type} {P Q R : σ → Prop} {x : Call ε σ α} {a : α}

/-- From a state with `P` the computation returns `a`, in a state with `Q`. -/
def Gives (P : σ → Prop) (x : Call ε σ α) (a : α) (Q : σ → Prop) : Prop :=
  ∀ s, P s → ∃ s', x s = some (.ok a, s') ∧ Q s'

theorem Gives.pure (a : α) : Gives P (Pure.pure a : Call ε σ α) a P := fun s hs => ⟨s, rfl, hs⟩

theorem Gives.modify {f : σ → σ} (h : ∀ s, P s → Q (f s)) :
    Gives P (Call.modify f : Call ε σ Unit) () Q := fun s hs => ⟨f s, rfl, h s hs⟩

theorem Gives.bind {x : Call ε σ β} {f : β → Call ε σ α} {b : β} (hx : Gives P x b Q)
    (hf : Gives Q (f b) a R) : Gives P (x >>= f) a R := by
  intro s hs
  obtain ⟨s₁, hrun, hs₁⟩ := hx s hs
  obtain ⟨s₂, hrun₂, hs₂⟩ := hf s₁ hs₁
  exact ⟨s₂, (bind_of_ok hrun).trans hrun₂, hs₂⟩

theorem Gives.require {c : Prop} [Decidable c] (h : c) (e : ε) :
    Gives P (Call.require c e : Call ε σ Unit) () P := fun s hs => ⟨s, require_of_pos h, hs⟩

theorem Gives.orFail (h : Gives P x a Q) (e : ε) : Gives P (Call.orFail x e) a Q := by
  intro s hs
  obtain ⟨s', hrun, hs'⟩ := h s hs
  exact ⟨s', orFail_of_ok hrun, hs'⟩

theorem Gives.ite_pos {y : Call ε σ α} {c : Prop} [Decidable c] (hc : c) (h : Gives P x a Q) :
    Gives P (if c then x else y) a Q := by
  rwa [if_pos hc]

theorem Gives.ite_neg {y : Call ε σ α} {c : Prop} [Decidable c] (hc : ¬ c) (h : Gives P y a Q) :
    Gives P (if c then x else y) a Q := by
  rwa [if_neg hc]

end OxKernel.Lib.Call
