import Mathlib.Data.List.FinRange
import Mathlib.Data.List.Rotate
import OxKernel.Lib.Loop

/-!
# Walks around a circle

A loop over the entries of a circular table, from some entry on until that entry comes round
again: `do { … } while (ptr != start)`, which may be left early. It visits each entry once.

## Main definitions

* `next` — the entry behind another one.
* `around` — the entries in the order of the visit.
* `visit` — what the body does on a list of entries.
* `doWhile` — the loop.
* `run_doWhile` — the loop visits the entries in that order.
-/
namespace OxKernel.Lib

universe u
variable {n : ℕ} {σ : Type u}

/-- The entry behind another one; behind the last one is the first. -/
def next (i : Fin n) : Fin n := if h : i.val + 1 < n then ⟨i + 1, h⟩ else ⟨0, i.pos⟩

/-- `k` entries, from one on. -/
def walk : ℕ → Fin n → List (Fin n)
  | 0, _ => []
  | k + 1, i => i :: walk k (next i)

/-- The entries, from one on, around the circle. -/
def around (start : Fin n) : List (Fin n) := walk n start

theorem val_next (i : Fin n) : (next i).val = (i.val + 1) % n := by
  have hlt := i.isLt
  rw [next]
  split
  · rename_i h
    exact (Nat.mod_eq_of_lt h).symm
  · have hn : i.val + 1 = n := by omega
    simp [hn]

@[simp] theorem length_walk (k : ℕ) (i : Fin n) : (walk k i).length = k := by
  induction k generalizing i with
  | zero => rfl
  | succ k ih => simp [walk, ih]

theorem val_getElem_walk {k j : ℕ} {i : Fin n} (h : j < (walk k i).length) :
    ((walk k i)[j]).val = (i.val + j) % n := by
  induction k generalizing i j with
  | zero => simp [walk] at h
  | succ k ih =>
      cases j with
      | zero => simp [walk, Nat.mod_eq_of_lt i.isLt]
      | succ j =>
          have hj : j < (walk k (next i)).length := Nat.lt_of_succ_lt_succ h
          simp only [walk, List.getElem_cons_succ]
          rw [ih hj, val_next, Nat.mod_add_mod, Nat.add_assoc, Nat.add_comm 1 j]

/-- **Each entry is visited once.** -/
theorem around_perm (start : Fin n) : (around start).Perm (List.finRange n) := by
  have hrotate : around start = (List.finRange n).rotate start := by
    apply List.ext_getElem
    · simp [around]
    · intro j h h'
      apply Fin.ext
      rw [List.getElem_rotate]
      simp only [around, val_getElem_walk, List.getElem_finRange, List.length_finRange, Fin.val_cast,
        Nat.add_comm]
  rw [hrotate]
  exact List.rotate_perm _ _

@[simp] theorem mem_around {start i : Fin n} : i ∈ around start := by
  rw [(around_perm start).mem_iff]
  exact List.mem_finRange i

/-- The body of a loop on a list of entries, until it leaves the loop with `inr`. -/
def visit (body : Fin n → σ → σ ⊕ σ) : List (Fin n) → σ → σ
  | [], s => s
  | i :: l, s =>
    match body i s with
    | .inl s' => visit body l s'
    | .inr s' => s'

section Visit
variable {body : Fin n → σ → σ ⊕ σ} {l : List (Fin n)} {s : σ}

/-- A loop that is not left early. -/
theorem visit_eq_foldl {f : σ → Fin n → σ} (h : ∀ i s, body i s = .inl (f s i)) :
    visit body l s = l.foldl f s := by
  induction l generalizing s with
  | nil => rfl
  | cons i l ih => simp only [visit, h, List.foldl_cons, ih]

/-- A loop that is left at the first entry with a property, and does nothing before. -/
theorem visit_eq_find {p : Fin n → Bool} {f : Fin n → σ}
    (h : ∀ i, body i s = if p i then .inr (f i) else .inl s) :
    visit body l s = ((l.find? p).map f).getD s := by
  induction l with
  | nil => rfl
  | cons i l ih =>
      by_cases hp : p i = true
      · simp [visit, h, hp]
      · simp [visit, h, hp, ih]

end Visit

/-! ## The loop -/

/-- The number of entries that are left, from `i` on, until `start` comes round. -/
def toVisit (start i : Fin n) : ℕ := if i < start then start - i else n - i + start

/-- The entry behind another one is one less to visit. -/
theorem toVisit_next {start i : Fin n} (h : next i ≠ start) :
    toVisit start (next i) + 1 = toVisit start i := by
  have hlt := i.isLt
  have hstart := start.isLt
  have hne : (next i).val ≠ start.val := fun h' => h (Fin.ext h')
  rw [next] at hne ⊢
  split at hne <;> rename_i hlast
  · rw [dif_pos hlast, toVisit, toVisit]
    simp only [Fin.lt_def] at hne ⊢
    split <;> split <;> omega
  · rw [dif_neg hlast, toVisit, toVisit]
    simp only [Fin.lt_def] at hne ⊢
    split <;> split <;> omega

/-- The entry in front of the first one is the last to visit. -/
theorem toVisit_last {start i : Fin n} (h : next i = start) : toVisit start i = 1 := by
  have hlt := i.isLt
  have hval := congrArg Fin.val h
  rw [next] at hval
  rw [toVisit]
  simp only [Fin.lt_def]
  split at hval <;> simp only [] at hval <;> split <;> omega

theorem toVisit_self (start : Fin n) : toVisit start start = n := by
  have hlt := start.isLt
  rw [toVisit, if_neg (lt_irrefl start)]
  omega

/-- `do … while (ptr != start)`, with a body that may leave the loop. -/
def doWhile (start : Fin n) (body : Fin n → σ → σ ⊕ σ) : Loop (Fin n × σ) σ ℕ where
  body x :=
    match body x.1 x.2 with
    | .inl s => if next x.1 = start then .inr s else .inl (next x.1, s)
    | .inr s => .inr s
  variant x := toVisit start x.1
  decreases := by
    intro x x' h
    split at h
    · split at h
      · cases h
      · rename_i hnext
        cases h
        have hless := toVisit_next hnext
        exact Nat.lt_of_succ_le hless.le
    · cases h

variable {start i : Fin n} {body : Fin n → σ → σ ⊕ σ} {s s' : σ}

theorem run_doWhile_walk :
    (doWhile start body).run (i, s) = visit body (walk (toVisit start i) i) s := by
  induction hk : toVisit start i generalizing i s with
  | zero =>
      by_cases hnext : next i = start
      · rw [toVisit_last hnext] at hk
        cases hk
      · have hless := toVisit_next hnext
        omega
  | succ k ih =>
      rw [walk, visit]
      cases hbody : body i s with
      | inr s' =>
          have hround : (doWhile start body).body (i, s) = .inr s' := by simp only [doWhile, hbody]
          rw [Loop.run_of_inr hround]
      | inl s' =>
          by_cases hnext : next i = start
          · have hround : (doWhile start body).body (i, s) = .inr s' := by
              simp only [doWhile, hbody, if_pos hnext]
            rw [toVisit_last hnext] at hk
            rw [Loop.run_of_inr hround, ← Nat.succ.inj hk]
            rfl
          · have hround : (doWhile start body).body (i, s) = .inl (next i, s') := by
              simp only [doWhile, hbody, if_neg hnext]
            have hless := toVisit_next hnext
            rw [Loop.run_of_inl hround]
            exact ih (by omega)

/-- **The loop visits the entries once around the circle.** -/
theorem run_doWhile : (doWhile start body).run (start, s) = visit body (around start) s := by
  rw [run_doWhile_walk, toVisit_self, around]

end OxKernel.Lib
