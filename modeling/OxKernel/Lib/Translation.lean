import Mathlib.Logic.Function.Basic
import Mathlib.Data.Set.Defs
import Mathlib.Order.Lattice

/-!
# Translated addresses

A processor finds a page through tables of two levels in the memory, and remembers what it has
found until it is told to forget it. A store to a table is seen by the next walk and not by what
is remembered, so a store that changes where a page leads is followed by an order to forget it.

## Main definitions

* `Tables.walk` — from the root of the tables to the frame of a page.
* `Translator.find`, `Translator.store`, `Translator.forget` — what a processor does.
* `Translator.Maps` — where a set of pages leads, by a walk and by what is remembered.

## Main results

* `Maps.find`, `Maps.find_state` — a page is found where it leads.
* `Maps.store` — a store that keeps the walks.
* `Maps.storeForget` — a store that changes one page, and the order to forget this page.
-/
namespace OxKernel.Lib

universe u v w x
variable {A : Type u} {W : Type v} {P : Type w} {R : Type x}

/-- How tables of two levels are laid out: words of type `W` at addresses of type `A`. -/
structure Tables (A : Type u) (W : Type v) (P : Type w) (R : Type x) where
  /-- Where the directory at an address has the entry of a page. -/
  directoryEntry : A → P → A
  /-- Where the table at an address has the entry of a page. -/
  tableEntry : A → P → A
  present : W → Bool
  frame : W → A
  rights : W → R

/-- The walk to the frame of a page, with the rights that both levels give. -/
def Tables.walk [Min R] (T : Tables A W P R) (mem : A → W) (root : A) (p : P) : Option (A × R) :=
  let d := mem (T.directoryEntry root p)
  let e := mem (T.tableEntry (T.frame d) p)
  if T.present d ∧ T.present e then some (T.frame e, T.rights d ⊓ T.rights e) else none

/-- A walk that finds both entries. -/
theorem Tables.walk_eq [Min R] {T : Tables A W P R} {mem : A → W} {root : A} {p : P} {d e : W}
    (hd : mem (T.directoryEntry root p) = d) (he : mem (T.tableEntry (T.frame d) p) = e)
    (hdp : T.present d = true) (hep : T.present e = true) :
    T.walk mem root p = some (T.frame e, T.rights d ⊓ T.rights e) := by
  subst hd he
  rw [Tables.walk]
  exact if_pos ⟨hdp, hep⟩

/-- A walk that ends at the directory. -/
theorem Tables.walk_absent [Min R] {T : Tables A W P R} {mem : A → W} {root : A} {p : P}
    (h : T.present (mem (T.directoryEntry root p)) = false) : T.walk mem root p = none := by
  rw [Tables.walk]
  refine if_neg fun hboth => ?_
  rw [h] at hboth
  cases hboth.1

/-- A memory beside the translations that are remembered. -/
structure Translator (A : Type u) (W : Type v) (P : Type w) (R : Type x) where
  mem : A → W
  known : P → Option (A × R)

namespace Translator
variable [DecidableEq P] [Min R] {T : Tables A W P R} {root : A} {K : Set P}
  {m m' : P → A × R} {s : Translator A W P R} {p : P} {a : A} {y : W}

/-- Find a page, and remember it if a walk has found it. -/
def find (T : Tables A W P R) (root : A) (p : P) (s : Translator A W P R) :
    Option (A × R) × Translator A W P R :=
  match s.known p with
  | some found => (some found, s)
  | none =>
    let found := T.walk s.mem root p
    (found, { s with known := Function.update s.known p found })

/-- Store a word. -/
def store [DecidableEq A] (a : A) (y : W) (s : Translator A W P R) : Translator A W P R :=
  { s with mem := Function.update s.mem a y }

/-- Forget a page. -/
def forget (p : P) (s : Translator A W P R) : Translator A W P R :=
  { s with known := Function.update s.known p none }

/-- Every page of `K` leads where `m` says. -/
structure Maps (T : Tables A W P R) (root : A) (K : Set P) (m : P → A × R)
    (s : Translator A W P R) : Prop where
  walk : ∀ p ∈ K, T.walk s.mem root p = some (m p)
  known : ∀ p ∈ K, ∀ found, s.known p = some found → found = m p

theorem find_of_known {found : A × R} (h : s.known p = some found) :
    s.find T root p = (some found, s) := by
  rw [find, h]

theorem find_of_unknown (h : s.known p = none) :
    s.find T root p = (T.walk s.mem root p,
      { s with known := Function.update s.known p (T.walk s.mem root p) }) := by
  rw [find, h]

/-- To find a page is no store. -/
@[simp] theorem mem_find (s : Translator A W P R) (p : P) : (s.find T root p).2.mem = s.mem := by
  cases hs : s.known p with
  | some found => rw [find_of_known hs]
  | none => rw [find_of_unknown hs]

theorem Maps.find (h : Maps T root K m s) (hp : p ∈ K) : (s.find T root p).1 = some (m p) := by
  cases hs : s.known p with
  | some found =>
      rw [find_of_known hs]
      exact congrArg some (h.known p hp found hs)
  | none =>
      rw [find_of_unknown hs]
      exact h.walk p hp

/-- What is found is remembered. -/
theorem Maps.find_state (h : Maps T root K m s) (p : P) : Maps T root K m (s.find T root p).2 := by
  cases hs : s.known p with
  | some found =>
      rw [find_of_known hs]
      exact h
  | none =>
      rw [find_of_unknown hs]
      refine ⟨h.walk, fun q hq found hfound => ?_⟩
      dsimp only at hfound
      by_cases hqp : q = p
      · subst hqp
        rw [Function.update_self, h.walk q hq] at hfound
        exact (Option.some.inj hfound).symm
      · rw [Function.update_of_ne hqp] at hfound
        exact h.known q hq found hfound

section Stores
variable [DecidableEq A]

omit [DecidableEq P] in
/-- A store that keeps the walks. -/
theorem Maps.store (h : Maps T root K m s)
    (hwalk : ∀ q ∈ K, T.walk (Function.update s.mem a y) root q = some (m q)) :
    Maps T root K m (s.store a y) := ⟨hwalk, h.known⟩

/-- **A store that changes one page**, and the order to forget this page. -/
theorem Maps.storeForget (h : Maps T root K m s)
    (hwalk : ∀ q ∈ K, T.walk (Function.update s.mem a y) root q = some (m' q))
    (hsame : ∀ q, q ≠ p → m' q = m q) : Maps T root K m' ((s.store a y).forget p) := by
  refine ⟨hwalk, fun q hq found hfound => ?_⟩
  simp only [Translator.forget] at hfound
  by_cases hqp : q = p
  · subst hqp
    rw [Function.update_self] at hfound
    cases hfound
  · rw [Function.update_of_ne hqp] at hfound
    rw [hsame q hqp]
    exact h.known q hq found hfound

end Stores

end Translator
end OxKernel.Lib
