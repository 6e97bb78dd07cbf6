import Mathlib.Data.List.Basic

/-!
# Reachable states under a guard

A transition system answers a call in a state with any of the states its relation
allows; an allocator that relies on another one's answers is of this kind. `Reach`
collects the states reached by finitely many calls that all meet a guard, and
`Reach.invariant` carries a state predicate along.

## Main definitions

* `System` — initial states and a labelled step relation.
* `System.Reach` — the states of the runs whose calls meet the guard.
-/
namespace OxKernel.Lib

universe u v
variable {σ : Type u} {ι : Type v}

/-- A transition system with states `σ` and calls `ι`. -/
structure System (σ : Type u) (ι : Type v) where
  /-- Where a run may start. -/
  init : σ → Prop
  /-- What a call may do. -/
  step : ι → σ → σ → Prop

/-- The states that a run reaches when each of its calls meets `guard` in the state it is
made in. -/
inductive System.Reach (S : System σ ι) (guard : σ → ι → Prop) : σ → Prop
  | init {s : σ} (h : S.init s) : Reach S guard s
  | step {s s' : σ} {c : ι} (hr : Reach S guard s) (hg : guard s c) (hs : S.step c s s') :
      Reach S guard s'

namespace System
variable {S : System σ ι} {guard guard' : σ → ι → Prop}

/-- **The invariant rule**: what holds at the start and is kept by every guarded call
holds in every state reached. -/
theorem Reach.invariant {P : σ → Prop} (hinit : ∀ s, S.init s → P s)
    (hstep : ∀ s c s', P s → guard s c → S.step c s s' → P s') {s : σ} (h : S.Reach guard s) :
    P s := by
  induction h with
  | init h => exact hinit _ h
  | step _ hg hs ih => exact hstep _ _ _ ih hg hs

/-- A weaker guard reaches more states. -/
theorem Reach.mono (himp : ∀ s c, guard s c → guard' s c) {s : σ} (h : S.Reach guard s) :
    S.Reach guard' s := by
  induction h with
  | init h => exact .init h
  | step _ hg hs ih => exact .step ih (himp _ _ hg) hs

/-- A run seen through a function is a run of another system where every call is one of its
calls. -/
theorem Reach.map {τ : Type u} {κ : Type v} {S' : System τ κ} {guard' : τ → κ → Prop} (f : σ → τ)
    (hinit : ∀ s, S.init s → S'.init (f s))
    (hstep : ∀ s c s', guard s c → S.step c s s' → ∃ c', guard' (f s) c' ∧ S'.step c' (f s) (f s'))
    {s : σ} (h : S.Reach guard s) : S'.Reach guard' (f s) := by
  induction h with
  | init h => exact .init (hinit _ h)
  | step _ hg hs ih =>
      obtain ⟨c', hg', hs'⟩ := hstep _ _ _ hg hs
      exact .step ih hg' hs'

end System
end OxKernel.Lib
