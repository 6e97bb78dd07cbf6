import OxKernel.Lib.Attempt
import OxKernel.Lib.Call
import OxKernel.Lib.Machine

/-!
# Computations that track one another

Two computations over different states that are written alike, over two implementations of
one interface: what one of them ends with, the other one ends with too, in a related state.
The relation may only hold as long as the first run is good, so that a run is judged at its
end: a run that ends well was good all along.

## Main definitions

* `Tracked` — one run, and the runs from related states.
* `Call.Tracks`, `Attempt.Tracks` — `y` does what `x` does in the runs of `x` that end well.
* `Machine.tracked_run` — machines whose steps track one another.
* `Call.attempt` — a computation whose error is part of its result.
-/
namespace OxKernel.Lib

section Tracked
variable {σ τ : Type} {good : σ → Prop} {S : σ → τ → Prop} {s m e : σ} {P Q R : τ → τ → Prop}

/-- A run from `s` to `e` that ends well was good at its start, and every state related to `s`
has a run in `P` to a state related to `e`. -/
def Tracked (good : σ → Prop) (S : σ → τ → Prop) (s e : σ) (P : τ → τ → Prop) : Prop :=
  good e → good s ∧ ∀ t, S s t → ∃ t', P t t' ∧ S e t'

theorem Tracked.refl (h : ∀ t, P t t) : Tracked good S s s P :=
  fun hs => ⟨hs, fun t ht => ⟨t, h t, ht⟩⟩

theorem Tracked.trans (h₁ : Tracked good S s m P) (h₂ : Tracked good S m e Q)
    (h : ∀ t t' t'', P t t' → Q t' t'' → R t t'') : Tracked good S s e R := by
  intro he
  obtain ⟨hm, hsim₂⟩ := h₂ he
  obtain ⟨hs, hsim₁⟩ := h₁ hm
  refine ⟨hs, fun t ht => ?_⟩
  obtain ⟨t', hP, ht'⟩ := hsim₁ t ht
  obtain ⟨t'', hQ, ht''⟩ := hsim₂ t' ht'
  exact ⟨t'', h t t' t'' hP hQ, ht''⟩

theorem Tracked.imp (h : Tracked good S s e P) (hPQ : ∀ t t', P t t' → Q t t') :
    Tracked good S s e Q := by
  intro he
  obtain ⟨hs, hsim⟩ := h he
  refine ⟨hs, fun t ht => ?_⟩
  obtain ⟨t', hP, ht'⟩ := hsim t ht
  exact ⟨t', hPQ t t' hP, ht'⟩

end Tracked

namespace Call
variable {ε σ τ α β γ : Type} {good : σ → Prop} {S : σ → τ → Prop}

/-- A run of `x` that ends well was good at its start, and from a related state `y` ends with
the same result or error, in a state that is related again. -/
def Tracks (good : σ → Prop) (S : σ → τ → Prop) (x : Call ε σ α) (y : Call ε τ α) : Prop :=
  ∀ s r s', x s = some (r, s') → Tracked good S s s' fun t t' => y t = some (r, t')

theorem Tracks.pure (a : α) : Tracks good S (pure a : Call ε σ α) (pure a) := by
  intro s r s' h
  cases h
  exact Tracked.refl fun _ => rfl

theorem Tracks.fail (e : ε) : Tracks good S (fail e : Call ε σ α) (fail e) := by
  intro s r s' h
  cases h
  exact Tracked.refl fun _ => rfl

theorem Tracks.loop {y : Call ε τ α} : Tracks good S (loop : Call ε σ α) y := by
  intro s r s' h
  cases h

theorem Tracks.require {c : Prop} [Decidable c] {e : ε} :
    Tracks good S (require c e : Call ε σ Unit) (require c e) := by
  by_cases hc : c
  · rw [Call.require, Call.require, if_pos hc, if_pos hc]
    exact Tracks.pure ()
  · rw [Call.require, Call.require, if_neg hc, if_neg hc]
    exact Tracks.fail e

theorem Tracks.modify {f : σ → σ} {g : τ → τ} (hgood : ∀ s, good (f s) → good s)
    (h : ∀ s t, S s t → S (f s) (g t)) :
    Tracks good S (modify f : Call ε σ Unit) (modify g) := by
  intro s r s' hx hs'
  cases hx
  exact ⟨hgood s hs', fun t ht => ⟨g t, rfl, h s t ht⟩⟩

theorem Tracks.bind {x : Call ε σ α} {y : Call ε τ α} {f : α → Call ε σ β} {g : α → Call ε τ β}
    (hx : Tracks good S x y) (hf : ∀ a, Tracks good S (f a) (g a)) :
    Tracks good S (x >>= f) (y >>= g) := by
  intro s r s' h
  rcases hxs : x s with _ | ⟨_ | a, s₁⟩
  · rw [bind_of_none hxs] at h
    cases h
  · rw [bind_of_error hxs] at h
    cases h
    exact (hx _ _ _ hxs).imp fun _ _ => bind_of_error
  · rw [bind_of_ok hxs] at h
    exact (hx _ _ _ hxs).trans (hf a _ _ _ h) fun _ _ _ hy hg => (bind_of_ok hy).trans hg

/-- The state is read for something that related states have in common. -/
theorem Tracks.get_bind {p : σ → γ} {q : τ → γ} {f : γ → Call ε σ β} {g : γ → Call ε τ β}
    (hpq : ∀ s t, S s t → q t = p s) (hf : ∀ c, Tracks good S (f c) (g c)) :
    Tracks good S (get >>= fun s => f (p s)) (get >>= fun t => g (q t)) := by
  intro s r s' h hgood
  rw [get_bind_apply] at h
  obtain ⟨hs, hsim⟩ := hf _ _ _ _ h hgood
  refine ⟨hs, fun t ht => ?_⟩
  obtain ⟨t', hg, ht'⟩ := hsim t ht
  refine ⟨t', ?_, ht'⟩
  show g (q t) t = _
  rw [hpq s t ht]
  exact hg

theorem Tracks.recover {x : Call ε σ α} {y : Call ε τ α} (hx : Tracks good S x y) (a : α) :
    Tracks good S (recover x a) (recover y a) := by
  intro s r s' h
  rw [Call.recover] at h
  rcases hxs : x s with _ | ⟨_ | b, s₁⟩
  · rw [hxs] at h
    cases h
  · rw [hxs] at h
    cases h
    exact (hx _ _ _ hxs).imp fun _ _ => recover_of_error
  · rw [hxs] at h
    cases h
    exact (hx _ _ _ hxs).imp fun _ _ => recover_of_ok

theorem Tracks.orFail {x : Call ε σ α} {y : Call ε τ α} (hx : Tracks good S x y) (e : ε) :
    Tracks good S (orFail x e) (orFail y e) := by
  intro s r s' h
  rw [Call.orFail] at h
  rcases hxs : x s with _ | ⟨_ | b, s₁⟩
  · rw [hxs] at h
    cases h
  · rw [hxs] at h
    cases h
    exact (hx _ _ _ hxs).imp fun _ _ hy => orFail_eq_error.mpr ⟨rfl, _, hy⟩
  · rw [hxs] at h
    cases h
    exact (hx _ _ _ hxs).imp fun _ _ => orFail_of_ok

/-- The computation with its error as part of the result. -/
def attempt (x : Call ε σ α) : Call ε σ (Except ε α) := fun s =>
  (x s).map fun a => (.ok a.1, a.2)

theorem attempt_eq_some {x : Call ε σ α} {r : Except ε (Except ε α)} {s s' : σ} :
    attempt x s = some (r, s') ↔ ∃ r', r = .ok r' ∧ x s = some (r', s') := by
  rw [attempt, Option.map_eq_some_iff]
  constructor
  · rintro ⟨⟨r', s₁⟩, hx, heq⟩
    cases heq
    exact ⟨r', rfl, hx⟩
  · rintro ⟨r', rfl, hx⟩
    exact ⟨(r', s'), hx, rfl⟩

theorem Tracks.attempt {x : Call ε σ α} {y : Call ε τ α} (hx : Tracks good S x y) :
    Tracks good S (attempt x) (attempt y) := by
  intro s r s' h
  obtain ⟨r', rfl, hxs⟩ := attempt_eq_some.mp h
  exact (hx _ _ _ hxs).imp fun _ _ hy => attempt_eq_some.mpr ⟨r', rfl, hy⟩

end Call

namespace Attempt
variable {σ τ α β γ : Type} {good : σ → Prop} {S : σ → τ → Prop}

/-- A run of `x` that ends well was good at its start, and from a related state `y` has the
same result or fails too, in a state that is related again. -/
def Tracks (good : σ → Prop) (S : σ → τ → Prop) (x : Attempt σ α) (y : Attempt τ α) : Prop :=
  ∀ s, Tracked good S s (x s).2 fun t t' => y t = ((x s).1, t')

theorem Tracks.pure (a : α) : Tracks good S (pure a : Attempt σ α) (pure a) :=
  fun _ => Tracked.refl fun _ => rfl

theorem Tracks.modify {f : σ → σ} {g : τ → τ} (hgood : ∀ s, good (f s) → good s)
    (h : ∀ s t, S s t → S (f s) (g t)) :
    Tracks good S (modify f : Attempt σ Unit) (modify g) :=
  fun s hs => ⟨hgood s hs, fun t ht => ⟨g t, rfl, h s t ht⟩⟩

theorem Tracks.bind {x : Attempt σ α} {y : Attempt τ α} {f : α → Attempt σ β}
    {g : α → Attempt τ β} (hx : Tracks good S x y) (hf : ∀ a, Tracks good S (f a) (g a)) :
    Tracks good S (x >>= f) (y >>= g) := by
  intro s
  have hxs := hx s
  rcases hr : x s with ⟨_ | a, s₁⟩
  · rw [hr] at hxs
    rw [bind_of_none hr]
    exact hxs.imp fun _ _ => bind_of_none
  · rw [hr] at hxs
    rw [bind_of_some hr]
    exact hxs.trans (hf a s₁) fun _ _ _ hy hg => (bind_of_some hy).trans hg

/-- The state is read for something that related states have in common. -/
theorem Tracks.get_bind {p : σ → γ} {q : τ → γ} {f : γ → Attempt σ β} {g : γ → Attempt τ β}
    (hpq : ∀ s t, S s t → q t = p s) (hf : ∀ c, Tracks good S (f c) (g c)) :
    Tracks good S (get >>= fun s => f (p s)) (get >>= fun t => g (q t)) := by
  intro s hgood
  rw [get_bind_apply] at hgood
  obtain ⟨hs, hsim⟩ := hf (p s) s hgood
  refine ⟨hs, fun t ht => ?_⟩
  obtain ⟨t', hg, ht'⟩ := hsim t ht
  refine ⟨t', ?_, ht'⟩
  show g (q t) t = _
  rw [hpq s t ht]
  exact hg

theorem Tracks.iterate {f : α → Attempt σ α} {g : α → Attempt τ α}
    (h : ∀ a, Tracks good S (f a) (g a)) (n : ℕ) (a : α) :
    Tracks good S (iterate f n a) (iterate g n a) := by
  induction n generalizing a with
  | zero => exact Tracks.pure a
  | succ n ih => exact (h a).bind ih

end Attempt

namespace Machine
variable {σ τ ι ο : Type} {good : σ → Prop} {S : σ → τ → Prop} {M : Machine σ ι ο}
  {M' : Machine τ ι ο}

/-- **The run rule.** If every step is tracked, so is every run. -/
theorem tracked_run
    (h : ∀ i s, Tracked good S s (M.step i s).2 fun t t' => M'.step i t = ((M.step i s).1, t'))
    (is : List ι) (s : σ) : Tracked good S s (M.exec is s) fun t t' =>
      M'.trace is t = M.trace is s ∧ M'.exec is t = t' := by
  induction is generalizing s with
  | nil => exact Tracked.refl fun _ => ⟨rfl, rfl⟩
  | cons i is ih =>
      rw [exec_cons]
      refine (h i s).trans (ih _) fun t t' t'' hstep hrun => ?_
      rw [trace_cons, exec_cons, hstep, trace_cons, hrun.1]
      exact ⟨rfl, hrun.2⟩

end Machine
end OxKernel.Lib
