import Mathlib.Logic.Function.Basic
import OxKernel.Lib.Machine

/-!
# Families of machines

A machine of its own for each index, with inputs that name the index they are for. What a
member of the family does depends on its own inputs only. A machine that answers like a
family is so many separate machines in one.

## Main definitions

* `Machine.family` — the machine of a family of states.
* `Machine.own` — the inputs for one index.
* `Machine.trace_refines` — a machine that answers like another one.
-/
namespace OxKernel.Lib.Machine

universe u v w x
variable {σ : Type u} {ι : Type v} {ο : Type w} {τ : Type x} {κ : Type} [DecidableEq κ]

/-- A machine for each index. -/
def family (M : Machine σ ι ο) : Machine (κ → σ) (κ × ι) ο where
  step c f := ((M.step c.2 (f c.1)).1, Function.update f c.1 (M.step c.2 (f c.1)).2)

/-- The inputs for one index. -/
def own (k : κ) (cs : List (κ × ι)) : List ι :=
  cs.filterMap fun c => if c.1 = k then some c.2 else none

variable {M : Machine σ ι ο}

theorem own_cons_self (k : κ) (i : ι) (cs : List (κ × ι)) : own k ((k, i) :: cs) = i :: own k cs :=
  List.filterMap_cons_some (if_pos rfl)

theorem own_cons_of_ne {k k' : κ} (h : k' ≠ k) (i : ι) (cs : List (κ × ι)) :
    own k ((k', i) :: cs) = own k cs := List.filterMap_cons_none (if_neg h)

/-- **A member of a family** runs through its own inputs only. -/
theorem family_exec (cs : List (κ × ι)) (f : κ → σ) (k : κ) :
    M.family.exec cs f k = M.exec (own k cs) (f k) := by
  induction cs generalizing f with
  | nil => rfl
  | cons c cs ih =>
      obtain ⟨k', i⟩ := c
      rw [exec_cons, ih]
      by_cases hk : k' = k
      · subst hk
        rw [own_cons_self, exec_cons]
        exact congrArg (M.exec _) (Function.update_self ..)
      · rw [own_cons_of_ne hk]
        exact congrArg (M.exec _) (Function.update_of_ne (Ne.symm hk) ..)

/-- The inputs of a run on one member. -/
theorem own_map (k : κ) (is : List ι) : own k (is.map fun i => (k, i)) = is := by
  induction is with
  | nil => rfl
  | cons i is ih => rw [List.map_cons, own_cons_self, ih]

theorem own_map_of_ne {k k' : κ} (h : k' ≠ k) (is : List ι) :
    own k (is.map fun i => (k', i)) = [] := by
  induction is with
  | nil => rfl
  | cons i is ih => rw [List.map_cons, own_cons_of_ne h, ih]

/-- The answers of a run on one member are its own. -/
theorem family_trace_map (k : κ) (is : List ι) (f : κ → σ) :
    (M.family.trace (is.map fun i => (k, i)) f).map Prod.snd = (M.trace is (f k)).map Prod.snd := by
  induction is generalizing f with
  | nil => rfl
  | cons i is ih =>
      have hself : (M.family.step (k, i) f).2 k = (M.step i (f k)).2 := Function.update_self ..
      rw [List.map_cons, trace_cons, List.map_cons, ih, hself, trace_cons, List.map_cons]
      rfl

/-- **The refinement rule.** If every step that meets the guard of the abstract machine has the
answer of the abstract step and keeps `R`, so has every run. -/
theorem trace_refines {N : Machine τ ι ο} {guard : τ → ι → Prop} {R : σ → τ → Prop}
    (hstep : ∀ s t i, R s t → guard t i →
      (M.step i s).1 = (N.step i t).1 ∧ R (M.step i s).2 (N.step i t).2)
    (is : List ι) {s : σ} {t : τ} (hR : R s t) (h : N.Admits guard is t) :
    M.trace is s = N.trace is t ∧ R (M.exec is s) (N.exec is t) := by
  induction is generalizing s t with
  | nil => exact ⟨rfl, hR⟩
  | cons i is ih =>
      obtain ⟨hout, hR'⟩ := hstep s t i hR h.1
      obtain ⟨htrace, hend⟩ := ih hR' h.2
      exact ⟨by rw [trace_cons, trace_cons, hout, htrace], hend⟩

end OxKernel.Lib.Machine
