import OxKernel.Lib.Ring

/-!
# Conditions that computations keep

A condition on the state that each part of a computation keeps, the computation keeps, whether
it returns or fails and whatever the structures it goes over look like.

## Main results

* `Keeps.bind`, `Keeps.ite`, `Keeps.modify` — the constructs of computations.
* `Keeps.ringLoop` — the loop over a ring.
-/
namespace OxKernel.Lib
namespace Call

variable {ε σ τ α β : Type} {P : σ → Prop} {x : Call ε σ α}

theorem Keeps.fail (e : ε) : Keeps P (fail e : Call ε σ α) := by
  intro s hs
  constructor
  · intro a s' h
    cases h
  · intro e' s' h
    cases h
    exact hs

theorem Keeps.get : Keeps P (get : Call ε σ σ) := by
  intro s hs
  constructor
  · intro a s' h
    cases h
    exact hs
  · intro e s' h
    cases h

theorem Keeps.modify {f : σ → σ} (h : ∀ s, P s → P (f s)) :
    Keeps P (modify f : Call ε σ Unit) := by
  intro s hs
  constructor
  · intro a s' hrun
    cases hrun
    exact h s hs
  · intro e s' hrun
    cases hrun

theorem Keeps.bind {x : Call ε σ β} {f : β → Call ε σ α} (hx : Keeps P x)
    (hf : ∀ b, Keeps P (f b)) : Keeps P (x >>= f) := by
  intro s hs
  constructor
  · intro a s'' h
    obtain ⟨b, s', hxs, hfs⟩ := bind_eq_ok.mp h
    exact (hf b s' ((hx s hs).1 b s' hxs)).1 a s'' hfs
  · intro e s'' h
    rcases bind_eq_error.mp h with hxs | ⟨b, s', hxs, hfs⟩
    · exact (hx s hs).2 e s'' hxs
    · exact (hf b s' ((hx s hs).1 b s' hxs)).2 e s'' hfs

/-- A computation that goes on with the state. -/
theorem Keeps.get_bind {f : σ → Call ε σ α} (hf : ∀ s, Keeps P (f s)) : Keeps P (Call.get >>= f) :=
  Keeps.get.bind hf

theorem Keeps.ite {c : Prop} [Decidable c] {y : Call ε σ α} (hx : Keeps P x) (hy : Keeps P y) :
    Keeps P (if c then x else y) := by
  split
  · exact hx
  · exact hy

/-- A condition on the state without the local variable. -/
theorem Keeps.lift (h : Keeps P x) : Keeps (fun s => P s.1) (lift x : Call ε (σ × τ) α) := by
  intro s hs
  rcases hx : x s.1 with _ | ⟨_ | a, s'⟩
  · simp [Call.lift, hx]
  · simp only [Call.lift, hx, Option.some.injEq, Prod.mk.injEq, reduceCtorEq, false_and,
      Except.error.injEq]
    exact ⟨fun _ _ h => h.elim, by rintro e _ ⟨-, rfl⟩; exact (h s.1 hs).2 _ s' hx⟩
  · simp only [Call.lift, hx, Option.some.injEq, Prod.mk.injEq, reduceCtorEq, false_and,
      Except.ok.injEq]
    exact ⟨by rintro e _ ⟨-, rfl⟩; exact (h s.1 hs).1 _ s' hx, fun _ _ h => h.elim⟩

theorem Keeps.withLocal {t : τ} {y : Call ε (σ × τ) α} (h : Keeps (fun s => P s.1) y) :
    Keeps P (withLocal t y) := by
  intro s hs
  rcases hy : y (s, t) with _ | ⟨_ | a, s', t'⟩
  · simp [Call.withLocal, hy]
  · simp only [Call.withLocal, hy, Option.some.injEq, Prod.mk.injEq, reduceCtorEq, false_and,
      Except.error.injEq]
    exact ⟨fun _ _ h => h.elim, by rintro e _ ⟨-, rfl⟩; exact (h (s, t) hs).2 _ _ hy⟩
  · simp only [Call.withLocal, hy, Option.some.injEq, Prod.mk.injEq, reduceCtorEq, false_and,
      Except.ok.injEq]
    exact ⟨by rintro e _ ⟨-, rfl⟩; exact (h (s, t) hs).1 _ _ hy, fun _ _ h => h.elim⟩

/-! ## Loops -/

section Loop
variable {γ ρ : Type} {body : γ → Call ε σ (Option ρ)}

theorem Keeps.firstOf {l : List γ} (h : ∀ a, Keeps P (body a)) : Keeps P (firstOf body l) := by
  induction l with
  | nil => exact Keeps.pure none
  | cons a l ih =>
      refine (h a).bind fun r => ?_
      cases r with
      | none => exact ih
      | some r => exact Keeps.pure (some r)

theorem Keeps.ringLoop [DecidableEq γ] {links : σ → Links γ} {head : σ → Option γ} {fuel : ℕ}
    {o : Option γ} (h : ∀ a, Keeps P (body a)) : Keeps P (ringLoop links head body fuel o) := by
  induction fuel generalizing o with
  | zero =>
      cases o with
      | none => exact Keeps.pure none
      | some a => exact Keeps.loop
  | succ fuel ih =>
      cases o with
      | none => exact Keeps.pure none
      | some a =>
          refine (h a).bind fun r => ?_
          cases r with
          | some r => exact Keeps.pure (some r)
          | none => exact Keeps.get_bind fun s => (Keeps.pure none).ite ih

end Loop

end Call
end OxKernel.Lib
