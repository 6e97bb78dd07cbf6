import Mathlib.Data.List.Basic

/-!
# Deterministic machines and their runs

A `Machine` takes an input in a state and answers with an output and a new state.
The module supplies the two rules every statement about whole runs goes through:
`exec_invariant` carries a state predicate along a run, and `trace_simulates`
carries a relation with an abstract state that is recomputed from the events seen
so far. Both take a guard, so that a result can be restricted to the runs all of
whose steps meet a condition on the state before the step.

## Main definitions

* `Machine.exec`, `Machine.trace` — the last state of a run, and its events.
* `Machine.Admits` — every step of a run meets the guard.
* `replay` — the abstract state after a list of events.
-/
namespace OxKernel.Lib

universe u v w x
variable {σ : Type u} {ι : Type v} {ο : Type w} {τ : Type x}

/-- A deterministic machine with states `σ`, inputs `ι` and outputs `ο`. -/
structure Machine (σ : Type u) (ι : Type v) (ο : Type w) where
  /-- Consume one input. -/
  step : ι → σ → ο × σ

/-- Recompute an abstract state from the events of a run. -/
def replay (upd : ι → ο → τ → τ) (es : List (ι × ο)) (t : τ) : τ :=
  es.foldl (fun t e => upd e.1 e.2 t) t

@[simp] theorem replay_nil (upd : ι → ο → τ → τ) (t : τ) : replay upd [] t = t := rfl

@[simp] theorem replay_cons (upd : ι → ο → τ → τ) (e : ι × ο) (es : List (ι × ο)) (t : τ) :
    replay upd (e :: es) t = replay upd es (upd e.1 e.2 t) := rfl

theorem replay_append (upd : ι → ο → τ → τ) (es fs : List (ι × ο)) (t : τ) :
    replay upd (es ++ fs) t = replay upd fs (replay upd es t) := by
  simp [replay, List.foldl_append]

namespace Machine
variable (M : Machine σ ι ο)

/-- The state a run ends in. -/
def exec : List ι → σ → σ
  | [], s => s
  | i :: is, s => exec is (M.step i s).2

/-- The events of a run: each input with its output. -/
def trace : List ι → σ → List (ι × ο)
  | [], _ => []
  | i :: is, s => (i, (M.step i s).1) :: trace is (M.step i s).2

/-- Every step of the run meets the guard in the state it starts from. -/
def Admits (guard : σ → ι → Prop) : List ι → σ → Prop
  | [], _ => True
  | i :: is, s => guard s i ∧ Admits guard is (M.step i s).2

@[simp] theorem exec_nil (s : σ) : M.exec [] s = s := rfl
@[simp] theorem exec_cons (i : ι) (is : List ι) (s : σ) :
    M.exec (i :: is) s = M.exec is (M.step i s).2 := rfl
@[simp] theorem trace_nil (s : σ) : M.trace [] s = [] := rfl
@[simp] theorem trace_cons (i : ι) (is : List ι) (s : σ) :
    M.trace (i :: is) s = (i, (M.step i s).1) :: M.trace is (M.step i s).2 := rfl

theorem exec_append (is js : List ι) (s : σ) :
    M.exec (is ++ js) s = M.exec js (M.exec is s) := by
  induction is generalizing s with
  | nil => rfl
  | cons i is ih => simp [ih]

theorem trace_append (is js : List ι) (s : σ) :
    M.trace (is ++ js) s = M.trace is s ++ M.trace js (M.exec is s) := by
  induction is generalizing s with
  | nil => rfl
  | cons i is ih => simp [ih]

theorem map_fst_trace (is : List ι) (s : σ) : (M.trace is s).map Prod.fst = is := by
  induction is generalizing s with
  | nil => rfl
  | cons i is ih => simp [ih]

variable {M}

theorem Admits.of_forall {guard : σ → ι → Prop} (is : List ι) (s : σ)
    (h : ∀ i ∈ is, ∀ s, guard s i) : M.Admits guard is s := by
  induction is generalizing s with
  | nil => trivial
  | cons i is ih =>
      exact ⟨h i List.mem_cons_self s, ih _ fun j hj => h j (List.mem_cons_of_mem _ hj)⟩

theorem Admits.append {guard : σ → ι → Prop} {is js : List ι} {s : σ} (hi : M.Admits guard is s)
    (hj : M.Admits guard js (M.exec is s)) : M.Admits guard (is ++ js) s := by
  induction is generalizing s with
  | nil => exact hj
  | cons i is ih => exact ⟨hi.1, ih hi.2 hj⟩

/-- The two parts of an admitted run. -/
theorem Admits.split {guard : σ → ι → Prop} {is js : List ι} {s : σ}
    (h : M.Admits guard (is ++ js) s) : M.Admits guard is s ∧ M.Admits guard js (M.exec is s) := by
  induction is generalizing s with
  | nil => exact ⟨trivial, h⟩
  | cons i is ih => exact ⟨⟨h.1, (ih h.2).1⟩, (ih h.2).2⟩

/-- A run that meets a guard meets every guard that follows from it. -/
theorem Admits.imp {guard guard' : σ → ι → Prop} (is : List ι) (s : σ)
    (h : ∀ i ∈ is, ∀ s, guard s i → guard' s i) (ha : M.Admits guard is s) :
    M.Admits guard' is s := by
  induction is generalizing s with
  | nil => trivial
  | cons i is ih =>
      exact ⟨h i List.mem_cons_self s ha.1,
        ih _ (fun j hj => h j (List.mem_cons_of_mem _ hj)) ha.2⟩

/-- **The invariant rule.** A predicate that every admitted step preserves holds at
the end of every admitted run. -/
theorem exec_invariant {guard : σ → ι → Prop} {P : σ → Prop}
    (hstep : ∀ s i, P s → guard s i → P (M.step i s).2) :
    ∀ (is : List ι) (s : σ), P s → M.Admits guard is s → P (M.exec is s) := by
  intro is
  induction is with
  | nil => intro s hs _; exact hs
  | cons i is ih =>
      intro s hs h
      exact ih _ (hstep s i hs h.1) h.2

/-- **The simulation rule.** `R` relates concrete and abstract states, `upd` moves
the abstract state along an event, and `good` is what the abstract state promises
about the next event. If every admitted step keeps `R` and the promise, then every
event of an admitted run meets the promise made by the events before it. -/
theorem trace_simulates {guard : σ → ι → Prop} {R : σ → τ → Prop}
    {upd : ι → ο → τ → τ} {good : τ → ι → ο → Prop}
    (hstep : ∀ s t i, R s t → guard s i →
      good t i (M.step i s).1 ∧ R (M.step i s).2 (upd i (M.step i s).1 t)) :
    ∀ (is : List ι) (s : σ) (t : τ), R s t → M.Admits guard is s →
      ∀ pre e post, M.trace is s = pre ++ e :: post → good (replay upd pre t) e.1 e.2 := by
  intro is
  induction is with
  | nil => intro s t _ _ pre e post h; simp at h
  | cons i is ih =>
      intro s t hR hg pre e post h
      obtain ⟨hgood, hR'⟩ := hstep s t i hR hg.1
      cases pre with
      | nil =>
          rw [trace_cons, List.nil_append, List.cons.injEq] at h
          rw [← h.1]
          exact hgood
      | cons p pre =>
          rw [trace_cons, List.cons_append, List.cons.injEq] at h
          rw [← h.1]
          exact ih _ _ hR' hg.2 pre e post h.2

/-- An invariant that promises something about every admitted step promises it about
every event of an admitted run. -/
theorem trace_invariant {guard : σ → ι → Prop} {P : σ → Prop} (good : ι → ο → Prop)
    (hstep : ∀ s i, P s → guard s i → good i (M.step i s).1 ∧ P (M.step i s).2) (is : List ι)
    (s : σ) (hs : P s) (h : M.Admits guard is s) : ∀ e ∈ M.trace is s, good e.1 e.2 := by
  induction is generalizing s with
  | nil => intro e he; cases he
  | cons i is ih =>
      intro e he
      obtain ⟨hgood, hP⟩ := hstep s i hs h.1
      rcases List.mem_cons.mp he with rfl | he
      · exact hgood
      · exact ih _ hP h.2 e he

/-- The relation itself holds at the end of every admitted run. -/
theorem exec_simulates {guard : σ → ι → Prop} {R : σ → τ → Prop} {upd : ι → ο → τ → τ}
    (hstep : ∀ s t i, R s t → guard s i → R (M.step i s).2 (upd i (M.step i s).1 t)) :
    ∀ (is : List ι) (s : σ) (t : τ), R s t → M.Admits guard is s →
      R (M.exec is s) (replay upd (M.trace is s) t) := by
  intro is
  induction is with
  | nil => intro s t hR _; exact hR
  | cons i is ih =>
      intro s t hR hg
      exact ih _ _ (hstep s t i hR hg.1) hg.2

/-- **The exact runs.** If a step from a state with `P` leads to one with `P` exactly if it meets
the guard, the runs with `P` in every state are those whose steps all meet the guard. `Q` is what
holds in every state anyway. -/
theorem forall_exec_iff {guard : σ → ι → Prop} {P Q : σ → Prop}
    (hQ : ∀ s i, Q s → Q (M.step i s).2)
    (hstep : ∀ s i, Q s → P s → (P (M.step i s).2 ↔ guard s i)) (is : List ι) (s : σ) (hq : Q s)
    (hs : P s) : (∀ pre, pre <+: is → P (M.exec pre s)) ↔ M.Admits guard is s := by
  induction is generalizing s with
  | nil =>
      refine iff_of_true (fun pre hpre => ?_) trivial
      rwa [List.prefix_nil.mp hpre]
  | cons i is ih =>
      rw [Admits, ← hstep s i hq hs]
      constructor
      · intro hall
        have hnext : P (M.step i s).2 := hall [i] ⟨is, rfl⟩
        refine ⟨hnext, (ih _ (hQ s i hq) hnext).mp fun pre hpre => ?_⟩
        exact hall (i :: pre) (List.cons_prefix_cons.mpr ⟨rfl, hpre⟩)
      · rintro ⟨hnext, hrest⟩ pre hpre
        cases pre with
        | nil => exact hs
        | cons j pre =>
            obtain ⟨rfl, hpre'⟩ := List.cons_prefix_cons.mp hpre
            exact (ih _ (hQ s j hq) hnext).mpr hrest pre hpre'

/-- **The exact events.** If the output of a step from a state with `P` is a good one exactly if
the step meets the guard, the runs with good events only are those whose steps all meet the guard.
`V` is what is asked of the inputs. -/
theorem forall_trace_iff {guard : σ → ι → Prop} {P : σ → Prop} {V : ι → Prop} {good : ι → ο → Prop}
    (hkeep : ∀ s i, P s → V i → P (M.step i s).2)
    (hstep : ∀ s i, P s → V i → (good i (M.step i s).1 ↔ guard s i)) (is : List ι) (s : σ)
    (hs : P s) (hV : ∀ i ∈ is, V i) :
    (∀ e ∈ M.trace is s, good e.1 e.2) ↔ M.Admits guard is s := by
  induction is generalizing s with
  | nil => exact iff_of_true (fun _ he => absurd he List.not_mem_nil) trivial
  | cons i is ih =>
      have hi := hV i List.mem_cons_self
      rw [trace_cons, List.forall_mem_cons, Admits, hstep s i hs hi]
      exact and_congr_right fun _ =>
        ih _ (hkeep s i hs hi) fun j hj => hV j (List.mem_cons_of_mem _ hj)

end Machine
end OxKernel.Lib
