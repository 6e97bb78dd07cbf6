import OxKernel.Lib.Call

/-!
# Exact conditions for safety

A computation on states of which some are in order, where what has gone wrong once stays so.
`Meets` gives the exact condition under which a computation from a good state stays in order,
and what it returns then.

## Main definitions

* `Call.Sticky` — a computation that ends, and puts nothing in order that was not.
* `Call.Meets` — the exact condition for a computation to stay in order, with its result.
-/
namespace OxKernel.Lib.Call

variable {ε σ α β : Type} {Ok Good : σ → Prop}

/-- The computation ends, and puts nothing in order that was not. A class, so that the
instances find it for what is put together of such computations. -/
class Sticky (Ok : σ → Prop) (x : Call ε σ α) : Prop where
  ends : ∀ s, ∃ r s', x s = some (r, s') ∧ (Ok s' → Ok s)

/-- From a good state the computation ends in order exactly if `c` holds, and then it comes to
`r` in a good state. -/
def Meets (Ok Good : σ → Prop) (x : Call ε σ α) (c : Prop) (r : Except ε α) : Prop :=
  ∀ s, Good s → ∃ r' s', x s = some (r', s') ∧ (Ok s' ↔ c) ∧ (c → r' = r ∧ Good s')

section Sticky
variable {x y : Call ε σ α}

instance Sticky.pure (a : α) : Sticky Ok (Pure.pure a : Call ε σ α) :=
  ⟨fun s => ⟨.ok a, s, rfl, id⟩⟩

instance Sticky.fail (e : ε) : Sticky Ok (fail e : Call ε σ α) :=
  ⟨fun s => ⟨.error e, s, rfl, id⟩⟩

instance Sticky.bind {x : Call ε σ β} {f : β → Call ε σ α} [hx : Sticky Ok x]
    [hf : ∀ b, Sticky Ok (f b)] : Sticky Ok (x >>= f) := by
  refine ⟨fun s => ?_⟩
  obtain ⟨r, s₁, hrun, hok⟩ := hx.ends s
  cases r with
  | error e => exact ⟨.error e, s₁, bind_of_error hrun, hok⟩
  | ok b =>
      obtain ⟨r', s₂, hrun', hok'⟩ := (hf b).ends s₁
      exact ⟨r', s₂, (bind_of_ok hrun).trans hrun', fun h => hok (hok' h)⟩

instance Sticky.ite {c : Prop} [Decidable c] [hx : Sticky Ok x] [hy : Sticky Ok y] :
    Sticky Ok (if c then x else y) := by
  split
  · exact hx
  · exact hy

instance Sticky.require {c : Prop} [Decidable c] (e : ε) :
    Sticky Ok (require c e : Call ε σ Unit) := by
  rw [Call.require]
  infer_instance

instance Sticky.orFail [hx : Sticky Ok x] (e : ε) : Sticky Ok (orFail x e) := by
  refine ⟨fun s => ?_⟩
  obtain ⟨r, s₁, hrun, hok⟩ := hx.ends s
  rw [Call.orFail, hrun]
  cases r with
  | error e' => exact ⟨.error e, s₁, rfl, hok⟩
  | ok a => exact ⟨.ok a, s₁, rfl, hok⟩

end Sticky

section Meets
variable {x y : Call ε σ α} {c d : Prop} {r : Except ε α}

theorem Meets.pure (hgood : ∀ s, Good s → Ok s) (a : α) :
    Meets Ok Good (Pure.pure a : Call ε σ α) True (.ok a) := fun s hs =>
  ⟨.ok a, s, rfl, iff_of_true (hgood s hs) trivial, fun _ => ⟨rfl, hs⟩⟩

theorem Meets.fail (hgood : ∀ s, Good s → Ok s) (e : ε) :
    Meets Ok Good (fail e : Call ε σ α) True (.error e) := fun s hs =>
  ⟨.error e, s, rfl, iff_of_true (hgood s hs) trivial, fun _ => ⟨rfl, hs⟩⟩

theorem Meets.congr (h : Meets Ok Good x c r) (hcd : c ↔ d) : Meets Ok Good x d r := by
  rwa [propext hcd] at h

/-- **One computation after the other**; the condition of the first one may be used for the
second. -/
theorem Meets.bind {x : Call ε σ β} {f : β → Call ε σ α} {b : β} (hx : Meets Ok Good x c (.ok b))
    (hf : c → Meets Ok Good (f b) d r) [hs : ∀ b, Sticky Ok (f b)] :
    Meets Ok Good (x >>= f) (c ∧ d) r := by
  intro s hgood
  obtain ⟨r₁, s₁, hrun, hok, hres⟩ := hx s hgood
  by_cases hc : c
  · obtain ⟨rfl, hgood₁⟩ := hres hc
    obtain ⟨r₂, s₂, hrun₂, hok₂, hres₂⟩ := hf hc s₁ hgood₁
    refine ⟨r₂, s₂, (bind_of_ok hrun).trans hrun₂, ?_, fun h => hres₂ h.2⟩
    rw [hok₂]
    exact (and_iff_right hc).symm
  · have hbad : ¬ Ok s₁ := fun h => hc (hok.mp h)
    cases r₁ with
    | error e =>
        exact ⟨.error e, s₁, bind_of_error hrun, iff_of_false hbad fun h => hc h.1,
          fun h => absurd h.1 hc⟩
    | ok b' =>
        obtain ⟨r₂, s₂, hrun₂, hok₂⟩ := (hs b').ends s₁
        exact ⟨r₂, s₂, (bind_of_ok hrun).trans hrun₂,
          iff_of_false (fun h => hbad (hok₂ h)) fun h => hc h.1, fun h => absurd h.1 hc⟩

/-- A first computation whose condition holds. -/
theorem Meets.bind_known {x : Call ε σ β} {f : β → Call ε σ α} {b : β}
    (hx : Meets Ok Good x c (.ok b)) (hc : c) (hf : Meets Ok Good (f b) d r)
    [∀ b, Sticky Ok (f b)] : Meets Ok Good (x >>= f) d r :=
  (hx.bind fun _ => hf).congr (and_iff_right hc)

/-- A computation that does not fail, with an error of its own. -/
theorem Meets.orFail {a : α} (hx : Meets Ok Good x c (.ok a)) (e : ε) :
    Meets Ok Good (orFail x e) c (.ok a) := by
  intro s hgood
  obtain ⟨r₁, s₁, hrun, hok, hres⟩ := hx s hgood
  rw [Call.orFail, hrun]
  cases r₁ with
  | error e' =>
      exact ⟨.error e, s₁, rfl, hok, fun hc => by cases (hres hc).1⟩
  | ok b => exact ⟨.ok b, s₁, rfl, hok, hres⟩

theorem Meets.require_of_pos {p : Prop} [Decidable p] (hgood : ∀ s, Good s → Ok s) (hp : p)
    (e : ε) : Meets Ok Good (require p e : Call ε σ Unit) True (.ok ()) := by
  rw [require, if_pos hp]
  exact .pure hgood ()

theorem Meets.require_of_neg {p : Prop} [Decidable p] (hgood : ∀ s, Good s → Ok s) (hp : ¬ p)
    (e : ε) : Meets Ok Good (require p e : Call ε σ Unit) True (.error e) := by
  rw [require, if_neg hp]
  exact .fail hgood e

theorem Meets.ite_pos {p : Prop} [Decidable p] (hp : p) (h : Meets Ok Good x c r) :
    Meets Ok Good (if p then x else y) c r := by
  rwa [if_pos hp]

theorem Meets.ite_neg {p : Prop} [Decidable p] (hp : ¬ p) (h : Meets Ok Good y c r) :
    Meets Ok Good (if p then x else y) c r := by
  rwa [if_neg hp]

end Meets
end OxKernel.Lib.Call
