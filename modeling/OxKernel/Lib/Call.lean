import Mathlib.Data.List.Basic

/-!
# Computations that may fail or not return

A function of the source that returns an error code keeps whatever it has changed so far,
and a function with a loop over a structure on disk may not return at all. A computation
here is a partial state transformer: it ends with a result or an error, in a state, or it
does not end. The inversion lemmas take a run of a sequence apart; a triple is about the
runs that end.

## Main definitions

* `Call` — computations over a state that may fail or not return.
* `Call.fail`, `Call.loop` — an error, and no end.
* `Call.recover`, `Call.orFail`, `Call.orStop` — a result, an error or no end in the place
  of an error.
* `Call.Spec` — a precondition, a postcondition and a condition for errors.
* `Call.Keeps` — a condition that a computation keeps.
* `Call.Ends` — a computation that ends, keeps a condition and returns what has a property.
* `Call.Within` — the ends of one computation are ends of another one.
* `Call.Follows` — what one computation returns, another one returns in a related state.
* `Call.Mirrors` — what one computation finds, another one finds too.
* `Call.withLocal` — a computation with a local variable.
-/
namespace OxKernel.Lib

/-- A computation over states `σ` that returns an `α`, fails with an `ε` or does not end. -/
def Call (ε σ α : Type) := σ → Option (Except ε α × σ)

namespace Call
variable {ε σ α β : Type}

instance : Monad (Call ε σ) where
  pure a := fun s => some (.ok a, s)
  bind x f := fun s =>
    match x s with
    | some (.ok a, s') => f a s'
    | some (.error e, s') => some (.error e, s')
    | none => none

/-- Leave with an error. -/
def fail (e : ε) : Call ε σ α := fun s => some (.error e, s)

/-- Do not return. -/
def loop : Call ε σ α := fun _ => none

/-- The state. -/
def get : Call ε σ σ := fun s => some (.ok s, s)

/-- Change the state. -/
def modify (f : σ → σ) : Call ε σ Unit := fun s => some (.ok (), f s)

/-- Leave with an error unless a condition holds. -/
def require (c : Prop) [Decidable c] (e : ε) : Call ε σ Unit := if c then pure () else fail e

/-- Go on with a result of its own after an error. -/
def recover (x : Call ε σ α) (a : α) : Call ε σ α := fun s =>
  match x s with
  | some (.ok a', s') => some (.ok a', s')
  | some (.error _, s') => some (.ok a, s')
  | none => none

/-- Leave with an error of its own after an error. -/
def orFail (x : Call ε σ α) (e : ε) : Call ε σ α := fun s =>
  match x s with
  | some (.ok a, s') => some (.ok a, s')
  | some (.error _, s') => some (.error e, s')
  | none => none

/-- Do not return after an error. -/
def orStop (x : Call ε σ α) : Call ε σ α := fun s =>
  match x s with
  | some (.ok a, s') => some (.ok a, s')
  | some (.error _, _) => none
  | none => none

@[simp] theorem pure_apply (a : α) (s : σ) : (pure a : Call ε σ α) s = some (.ok a, s) := rfl

@[simp] theorem fail_apply (e : ε) (s : σ) : (fail e : Call ε σ α) s = some (.error e, s) := rfl

@[simp] theorem get_apply (s : σ) : (get : Call ε σ σ) s = some (.ok s, s) := rfl

@[simp] theorem modify_apply (f : σ → σ) (s : σ) :
    (modify f : Call ε σ Unit) s = some (.ok (), f s) := rfl

section Bind
variable {x : Call ε σ α} {f : α → Call ε σ β} {s s' s'' : σ} {a : α} {b : β} {e : ε}

theorem bind_of_ok (h : x s = some (.ok a, s')) : (x >>= f) s = f a s' := by
  show (match x s with
    | some (.ok a, s') => f a s' | some (.error e, s') => some (.error e, s') | none => none) = _
  rw [h]

theorem bind_of_error (h : x s = some (.error e, s')) : (x >>= f) s = some (.error e, s') := by
  show (match x s with
    | some (.ok a, s') => f a s' | some (.error e, s') => some (.error e, s') | none => none) = _
  rw [h]

theorem bind_of_none (h : x s = none) : (x >>= f) s = none := by
  show (match x s with
    | some (.ok a, s') => f a s' | some (.error e, s') => some (.error e, s') | none => none) = _
  rw [h]

/-- A sequence that returns. -/
theorem bind_eq_ok :
    (x >>= f) s = some (.ok b, s'') ↔
      ∃ a s', x s = some (.ok a, s') ∧ f a s' = some (.ok b, s'') := by
  constructor
  · intro h
    rcases hx : x s with _ | ⟨_ | a, s'⟩
    · rw [bind_of_none hx] at h
      cases h
    · rw [bind_of_error hx] at h
      cases h
    · rw [bind_of_ok hx] at h
      exact ⟨a, s', rfl, h⟩
  · rintro ⟨a, s', hx, hf⟩
    rw [bind_of_ok hx, hf]

/-- A sequence that fails. -/
theorem bind_eq_error :
    (x >>= f) s = some (.error e, s'') ↔
      x s = some (.error e, s'') ∨
        ∃ a s', x s = some (.ok a, s') ∧ f a s' = some (.error e, s'') := by
  constructor
  · intro h
    rcases hx : x s with _ | ⟨_ | a, s'⟩
    · rw [bind_of_none hx] at h
      cases h
    · rw [bind_of_error hx] at h
      cases h
      exact Or.inl rfl
    · rw [bind_of_ok hx] at h
      exact Or.inr ⟨a, s', rfl, h⟩
  · rintro (hx | ⟨a, s', hx, hf⟩)
    · exact bind_of_error hx
    · rw [bind_of_ok hx, hf]

theorem bind_assoc {γ : Type} (x : Call ε σ α) (f : α → Call ε σ β) (g : β → Call ε σ γ) :
    (x >>= f) >>= g = x >>= fun a => f a >>= g := by
  funext s
  rcases h : x s with _ | ⟨_ | a, s'⟩
  · rw [bind_of_none (bind_of_none h), bind_of_none h]
  · rw [bind_of_error (bind_of_error h), bind_of_error h]
  · rw [bind_of_ok h]
    rcases h' : f a s' with _ | ⟨_ | b, s''⟩
    · rw [bind_of_none h', bind_of_none ((bind_of_ok h).trans h')]
    · rw [bind_of_error h', bind_of_error ((bind_of_ok h).trans h')]
    · rw [bind_of_ok h', bind_of_ok ((bind_of_ok h).trans h')]

@[simp] theorem pure_bind_apply (a : α) (f : α → Call ε σ β) (s : σ) :
    ((pure a : Call ε σ α) >>= f) s = f a s := rfl

@[simp] theorem fail_bind_apply (e : ε) (f : α → Call ε σ β) (s : σ) :
    ((fail e : Call ε σ α) >>= f) s = some (.error e, s) := rfl

@[simp] theorem get_bind_apply (f : σ → Call ε σ β) (s : σ) : (get >>= f) s = f s s := rfl

@[simp] theorem modify_bind_apply (g : σ → σ) (f : Unit → Call ε σ β) (s : σ) :
    (modify g >>= f) s = f () (g s) := rfl

/-- A condition that was required holds. -/
theorem require_eq_ok {c : Prop} [Decidable c] {u : Unit} :
    (require c e : Call ε σ Unit) s = some (.ok u, s') ↔ c ∧ s' = s := by
  rw [require]
  by_cases hc : c
  · rw [if_pos hc]
    simp only [pure_apply, Option.some.injEq, Prod.mk.injEq, true_and, hc]
    exact eq_comm
  · rw [if_neg hc]
    simp [hc]

theorem require_of_pos {c : Prop} [Decidable c] (h : c) :
    (require c e : Call ε σ Unit) s = some (.ok (), s) := by
  rw [require, if_pos h]
  rfl

theorem require_of_neg {c : Prop} [Decidable c] (h : ¬ c) :
    (require c e : Call ε σ Unit) s = some (.error e, s) := by
  rw [require, if_neg h]
  rfl

theorem require_bind_apply {c : Prop} [Decidable c] (f : Unit → Call ε σ β) :
    (require c e >>= f) s = if c then f () s else some (.error e, s) := by
  rw [require]
  split <;> rfl

/-- A sequence that returns met what it required first. -/
theorem require_bind_eq_ok {c : Prop} [Decidable c] {f : Unit → Call ε σ β} :
    (require c e >>= f) s = some (.ok b, s') ↔ c ∧ f () s = some (.ok b, s') := by
  constructor
  · intro h
    obtain ⟨u, s₁, hreq, hf⟩ := bind_eq_ok.mp h
    obtain ⟨hc, rfl⟩ := require_eq_ok.mp hreq
    exact ⟨hc, hf⟩
  · rintro ⟨hc, hf⟩
    rw [bind_of_ok (require_of_pos hc), hf]

theorem recover_of_ok {d : α} (h : x s = some (.ok a, s')) :
    recover x d s = some (.ok a, s') := by
  rw [recover, h]

theorem recover_of_error {d : α} (h : x s = some (.error e, s')) :
    recover x d s = some (.ok d, s') := by
  rw [recover, h]

theorem orStop_of_ok (h : x s = some (.ok a, s')) : orStop x s = some (.ok a, s') := by
  rw [orStop, h]

theorem orFail_of_ok (h : x s = some (.ok a, s')) : orFail x e s = some (.ok a, s') := by
  rw [orFail, h]

theorem orFail_eq_ok : orFail x e s = some (.ok a, s') ↔ x s = some (.ok a, s') := by
  constructor
  · intro h
    rw [orFail] at h
    rcases hx : x s with _ | ⟨_ | a', s₁⟩
    · rw [hx] at h
      cases h
    · rw [hx] at h
      cases h
    · rw [hx] at h
      cases h
      rfl
  · exact orFail_of_ok

theorem orFail_eq_error {e' : ε} :
    orFail x e s = some (.error e', s') ↔ e' = e ∧ ∃ e₀, x s = some (.error e₀, s') := by
  rw [orFail]
  rcases x s with _ | ⟨_ | _, _⟩ <;> simp [eq_comm]

/-- A result other than the one for errors comes from the computation. -/
theorem recover_eq_some {d : α} {r : Except ε α} (h : recover x d s = some (r, s')) :
    ∃ a, r = .ok a ∧ (a ≠ d → x s = some (.ok a, s')) := by
  rw [recover] at h
  rcases hx : x s with _ | ⟨_ | a', s₁⟩
  · rw [hx] at h
    cases h
  · rw [hx] at h
    cases h
    exact ⟨d, rfl, fun hd => absurd rfl hd⟩
  · rw [hx] at h
    cases h
    exact ⟨a', rfl, fun _ => rfl⟩

end Bind

/-- Of the runs from a state with `P`, one that returns ends with `Q`, and one that fails
ends with `E`. -/
def Spec (P : σ → Prop) (x : Call ε σ α) (Q : α → σ → Prop) (E : ε → σ → Prop) : Prop :=
  ∀ s, P s → (∀ a s', x s = some (.ok a, s') → Q a s') ∧ ∀ e s', x s = some (.error e, s') → E e s'

variable {P : σ → Prop} {Q : α → σ → Prop} {E : ε → σ → Prop}

theorem Spec.pure {a : α} (h : ∀ s, P s → Q a s) : Spec P (pure a) Q E := by
  intro s hs
  constructor
  · intro b s' hb
    cases hb
    exact h s hs
  · intro e s' he
    cases he

/-- A condition on the state that a computation keeps, whether it returns or fails. -/
def Keeps (P : σ → Prop) (x : Call ε σ α) : Prop := Spec P x (fun _ => P) fun _ => P

theorem Keeps.pure (a : α) : Keeps P (Pure.pure a : Call ε σ α) := Spec.pure fun _ h => h

theorem Keeps.loop : Keeps P (loop : Call ε σ α) := by
  intro s _
  constructor
  · intro a s' h
    cases h
  · intro e s' h
    cases h

/-- What holds before a computation holds after it. -/
theorem Keeps.after {x : Call ε σ α} (hx : Keeps P x) {s s' : σ} {r : Except ε α} (hs : P s)
    (h : x s = some (r, s')) : P s' := by
  cases r with
  | error e => exact (hx s hs).2 e s' h
  | ok a => exact (hx s hs).1 a s' h

/-! ## What a computation returns -/

section Returns
variable {Q : α → Prop}

/-- Every result the computation returns has `Q`. -/
def Returns (x : Call ε σ α) (Q : α → Prop) : Prop := ∀ s a s', x s = some (.ok a, s') → Q a

theorem Returns.pure {a : α} (h : Q a) : Returns (Pure.pure a : Call ε σ α) Q := by
  intro s b s' hb
  cases hb
  exact h

theorem Returns.bind {x : Call ε σ β} {f : β → Call ε σ α} (hf : ∀ b, Returns (f b) Q) :
    Returns (x >>= f) Q := by
  intro s a s' h
  obtain ⟨b, s₁, -, hb⟩ := bind_eq_ok.mp h
  exact hf b s₁ a s' hb

theorem Returns.ite {c : Prop} [Decidable c] {x y : Call ε σ α} (hx : Returns x Q)
    (hy : Returns y Q) : Returns (if c then x else y) Q := by
  split
  · exact hx
  · exact hy

end Returns

/-! ## Computations that end -/

section Ends
variable {Q : α → Prop} {R : β → Prop} {x : Call ε σ α}

/-- From a state with `P` the computation ends in one, and a result it returns has `Q`. -/
def Ends (P : σ → Prop) (x : Call ε σ α) (Q : α → Prop) : Prop :=
  ∀ s, P s → ∃ r s', x s = some (r, s') ∧ P s' ∧ ∀ a, r = .ok a → Q a

theorem Ends.pure {a : α} (h : Q a) : Ends P (Pure.pure a : Call ε σ α) Q := by
  intro s hs
  refine ⟨.ok a, s, rfl, hs, ?_⟩
  intro b hb
  cases hb
  exact h

theorem Ends.fail (e : ε) : Ends P (fail e : Call ε σ α) Q := by
  intro s hs
  refine ⟨.error e, s, rfl, hs, ?_⟩
  intro b hb
  cases hb

theorem Ends.require {c : Prop} [Decidable c] {e : ε} :
    Ends P (require c e : Call ε σ Unit) fun _ => c := by
  rw [Call.require]
  split
  · rename_i hc
    exact Ends.pure hc
  · exact Ends.fail e

theorem Ends.bind {f : α → Call ε σ β} (hx : Ends P x Q) (hf : ∀ a, Q a → Ends P (f a) R) :
    Ends P (x >>= f) R := by
  intro s hs
  obtain ⟨r, s₁, hxs, hs₁, hQ⟩ := hx s hs
  cases r with
  | error e =>
      refine ⟨.error e, s₁, bind_of_error hxs, hs₁, ?_⟩
      intro b hb
      cases hb
  | ok a =>
      rw [bind_of_ok hxs]
      exact hf a (hQ a rfl) s₁ hs₁

end Ends

/-! ## Computations that end less often -/

section Within
variable {R : σ → σ → Prop} {x y : Call ε σ α}

/-- What `y` ends with, `x` ends with too, in a state that `R` relates to the one before. -/
def Within (R : σ → σ → Prop) (y x : Call ε σ α) : Prop :=
  ∀ s r s', y s = some (r, s') → x s = some (r, s') ∧ R s s'

theorem Within.loop : Within R (loop : Call ε σ α) x := by
  intro s r s' h
  cases h

theorem Within.modify {f : σ → σ} (h : ∀ s, R s (f s)) :
    Within R (modify f : Call ε σ Unit) (modify f) := by
  intro s r s' hx
  cases hx
  exact ⟨rfl, h s⟩

theorem Within.orFail (h : Within R y x) (e : ε) : Within R (orFail y e) (orFail x e) := by
  intro s r s' hy
  rw [Call.orFail] at hy ⊢
  rcases hys : y s with _ | ⟨_ | a, s₁⟩
  · rw [hys] at hy
    cases hy
  · rw [hys] at hy
    cases hy
    rw [(h _ _ _ hys).1]
    exact ⟨rfl, (h _ _ _ hys).2⟩
  · rw [hys] at hy
    cases hy
    rw [(h _ _ _ hys).1]
    exact ⟨rfl, (h _ _ _ hys).2⟩

theorem Within.recover (h : Within R y x) (d : α) : Within R (recover y d) (recover x d) := by
  intro s r s' hy
  rw [Call.recover] at hy ⊢
  rcases hys : y s with _ | ⟨_ | a, s₁⟩
  · rw [hys] at hy
    cases hy
  · rw [hys] at hy
    cases hy
    rw [(h _ _ _ hys).1]
    exact ⟨rfl, (h _ _ _ hys).2⟩
  · rw [hys] at hy
    cases hy
    rw [(h _ _ _ hys).1]
    exact ⟨rfl, (h _ _ _ hys).2⟩

theorem Within.bind [IsTrans σ R] {f g : α → Call ε σ β} (hx : Within R y x)
    (hf : ∀ a, Within R (g a) (f a)) : Within R (y >>= g) (x >>= f) := by
  intro s r s'' h
  rcases hy : y s with _ | ⟨_ | a, s'⟩
  · rw [bind_of_none hy] at h
    cases h
  · rw [bind_of_error hy] at h
    cases h
    obtain ⟨hxs, hR⟩ := hx _ _ _ hy
    exact ⟨bind_of_error hxs, hR⟩
  · rw [bind_of_ok hy] at h
    obtain ⟨hxs, hR⟩ := hx _ _ _ hy
    obtain ⟨hfs, hR'⟩ := hf a _ _ _ h
    rw [bind_of_ok hxs]
    exact ⟨hfs, IsTrans.trans _ _ _ hR hR'⟩

variable [Std.Refl R]

theorem Within.pure (a : α) : Within R (Pure.pure a : Call ε σ α) (Pure.pure a) := by
  intro s r s' h
  cases h
  exact ⟨rfl, Std.Refl.refl s⟩

theorem Within.fail (e : ε) : Within R (fail e : Call ε σ α) (fail e) := by
  intro s r s' h
  cases h
  exact ⟨rfl, Std.Refl.refl s⟩

theorem Within.get : Within R (get : Call ε σ σ) get := by
  intro s r s' h
  cases h
  exact ⟨rfl, Std.Refl.refl s⟩

theorem Within.require {c : Prop} [Decidable c] {e : ε} :
    Within R (require c e : Call ε σ Unit) (require c e) := by
  rw [Call.require]
  split
  · exact Within.pure ()
  · exact Within.fail e

end Within

/-! ## Computations in related states -/

section Follows
variable {τ : Type} {S : σ → τ → Prop} {x : Call ε σ α} {y : Call ε τ α}

/-- What `x` returns, `y` returns too from a related state, and ends in one. -/
def Follows (S : σ → τ → Prop) (x : Call ε σ α) (y : Call ε τ α) : Prop :=
  ∀ s t, S s t → ∀ a s', x s = some (.ok a, s') → ∃ t', y t = some (.ok a, t') ∧ S s' t'

theorem Follows.loop : Follows S (loop : Call ε σ α) y := by
  intro s t _ a s' h
  cases h

theorem Follows.fail (e : ε) : Follows S (fail e : Call ε σ α) y := by
  intro s t _ a s' h
  cases h

theorem Follows.pure (a : α) : Follows S (Pure.pure a : Call ε σ α) (Pure.pure a) := by
  intro s t hst b s' h
  cases h
  exact ⟨t, rfl, hst⟩

theorem Follows.require {c : Prop} [Decidable c] {e : ε} :
    Follows S (require c e : Call ε σ Unit) (require c e) := by
  intro s t hst b s' h
  obtain ⟨hc, rfl⟩ := require_eq_ok.mp h
  exact ⟨t, require_of_pos hc, hst⟩

theorem Follows.bind {f : α → Call ε σ β} {g : α → Call ε τ β} (hx : Follows S x y)
    (hf : ∀ a, Follows S (f a) (g a)) : Follows S (x >>= f) (y >>= g) := by
  intro s t hst b s'' h
  obtain ⟨a, s', hxs, hfs⟩ := bind_eq_ok.mp h
  obtain ⟨t', hyt, hst'⟩ := hx s t hst a s' hxs
  obtain ⟨t'', hgt, hst''⟩ := hf a s' t' hst' b s'' hfs
  exact ⟨t'', by rw [bind_of_ok hyt, hgt], hst''⟩

end Follows

/-! ## Computations that only look -/

section Mirrors
variable {τ γ δ : Type} {s : σ} {t : τ}

/-- What one computation returns, the other one returns too, in its own state; neither
changes the state then. -/
def Mirrors (R : α → β → Prop) (x : Call ε σ α) (s : σ) (y : Call ε τ β) (t : τ) : Prop :=
  ∀ a s', x s = some (.ok a, s') → s' = s ∧ ∃ b, y t = some (.ok b, t) ∧ R a b

theorem Mirrors.pure {R : α → β → Prop} {a : α} {b : β} (h : R a b) :
    Mirrors R (pure a : Call ε σ α) s (pure b) t := by
  intro a' s' hx
  cases hx
  exact ⟨rfl, b, rfl, h⟩

theorem Mirrors.get :
    Mirrors (fun a b => a = s ∧ b = t) (get : Call ε σ σ) s (get : Call ε τ τ) t := by
  intro a s' hx
  cases hx
  exact ⟨rfl, t, rfl, rfl, rfl⟩

theorem Mirrors.fail {R : α → β → Prop} {e : ε} {y : Call ε τ β} :
    Mirrors R (fail e : Call ε σ α) s y t := by
  intro a s' hx
  cases hx

theorem Mirrors.loop {R : α → β → Prop} {y : Call ε τ β} :
    Mirrors R (loop : Call ε σ α) s y t := by
  intro a s' hx
  cases hx

theorem Mirrors.bind {R : α → β → Prop} {R' : γ → δ → Prop} {x : Call ε σ α} {y : Call ε τ β}
    {f : α → Call ε σ γ} {g : β → Call ε τ δ} (hx : Mirrors R x s y t)
    (hf : ∀ a b, R a b → Mirrors R' (f a) s (g b) t) : Mirrors R' (x >>= f) s (y >>= g) t := by
  intro c s'' h
  obtain ⟨a, s', hxs, hfs⟩ := bind_eq_ok.mp h
  obtain ⟨rfl, b, hy, hab⟩ := hx a s' hxs
  rw [bind_of_ok hy]
  exact hf a b hab c s'' hfs

theorem Mirrors.require {c c' : Prop} [Decidable c] [Decidable c'] {e e' : ε} (h : c → c') :
    Mirrors (fun _ _ => c) (require c e : Call ε σ Unit) s (require c' e' : Call ε τ Unit) t := by
  intro a s' hx
  obtain ⟨hc, rfl⟩ := require_eq_ok.mp hx
  exact ⟨rfl, (), require_of_pos (h hc), hc⟩

end Mirrors

/-! ## Local variables -/

section Local
variable {τ : Type} {x : Call ε σ α} {y : Call ε (σ × τ) α} {s s' : σ} {t t' : τ} {a : α} {e : ε}

/-- A computation in one with a local variable. -/
def lift (x : Call ε σ α) : Call ε (σ × τ) α := fun s =>
  match x s.1 with
  | some (r, s') => some (r, (s', s.2))
  | none => none

/-- Declare a local variable and return its value at the end. -/
def withLocal (t : τ) (y : Call ε (σ × τ) α) : Call ε σ (α × τ) := fun s =>
  match y (s, t) with
  | some (.ok a, (s', t')) => some (.ok (a, t'), s')
  | some (.error e, (s', _)) => some (.error e, s')
  | none => none

theorem lift_of_ok (h : x s = some (.ok a, s')) : lift x (s, t) = some (.ok a, (s', t)) := by
  rw [lift, h]

theorem lift_eq_ok :
    lift x (s, t) = some (.ok a, (s', t')) ↔ x s = some (.ok a, s') ∧ t' = t := by
  constructor
  · intro h
    rw [lift] at h
    split at h
    · next hx =>
      cases h
      exact ⟨hx, rfl⟩
    · cases h
  · rintro ⟨h, rfl⟩
    exact lift_of_ok h

theorem withLocal_of_ok (h : y (s, t) = some (.ok a, (s', t'))) :
    withLocal t y s = some (.ok (a, t'), s') := by
  rw [withLocal, h]

theorem withLocal_eq_ok :
    withLocal t y s = some (.ok (a, t'), s') ↔ y (s, t) = some (.ok a, (s', t')) := by
  constructor
  · intro h
    rw [withLocal] at h
    split at h
    · next hy =>
      cases h
      exact hy
    · cases h
    · cases h
  · exact withLocal_of_ok

end Local

end Call
end OxKernel.Lib
