import Mathlib.Data.List.Cycle
import Mathlib.Logic.Relation
import OxKernel.Lib.Call

/-!
# Rings of doubly linked nodes

A set of nodes with a `next` and a `prev` pointer each, some of which form a ring: each
node's `next` is its neighbour on one side and the neighbour's `prev` leads back. The order
of a ring is a cycle; a list says in addition where to start.

## Main definitions

* `Links` — the pointers.
* `Links.IsRing` — the nodes of a list form a ring, in this order.
* `Links.ofList` — the pointers that make a ring of a list.
* `Links.IsRing.snoc`, `Links.IsRing.drop` — a node is linked in, or taken out.
* `ringLoop` — the loop that visits the nodes of a ring.
-/
namespace OxKernel.Lib

universe u
variable {α : Type u}

/-- A `next` and a `prev` pointer for each node. -/
structure Links (α : Type u) where
  next : α → Option α
  prev : α → Option α

namespace Links

/-- `b` comes after `a`. -/
def Joins (k : Links α) (a b : α) : Prop := k.next a = some b ∧ k.prev b = some a

/-- The nodes of a list form a ring, in this order. -/
structure IsRing (k : Links α) (l : List α) : Prop where
  nodup : l.Nodup
  chain : (l : Cycle α).Chain k.Joins

variable {k k' : Links α} {l m : List α} {a b p q x : α}

theorem isRing_nil : IsRing k [] := ⟨List.nodup_nil, Cycle.Chain.nil _⟩

theorem isRing_singleton : IsRing k [a] ↔ k.Joins a a :=
  ⟨fun h => (Cycle.chain_singleton _ _).mp h.chain,
    fun h => ⟨List.nodup_singleton a, (Cycle.chain_singleton _ _).mpr h⟩⟩

theorem isRing_cons : IsRing k (a :: l) ↔
    (a :: l).Nodup ∧ List.IsChain k.Joins (a :: (l ++ [a])) :=
  ⟨fun h => ⟨h.nodup, (Cycle.chain_coe_cons _ _ _).mp h.chain⟩,
    fun h => ⟨h.1, (Cycle.chain_coe_cons _ _ _).mpr h.2⟩⟩

/-- It does not matter where a ring starts. -/
theorem IsRing.rotated (h : IsRing k l) (hr : l ~r m) : IsRing k m := by
  refine ⟨hr.nodup_iff.mp h.nodup, ?_⟩
  rw [← Cycle.coe_eq_coe.mpr hr]
  exact h.chain

/-- A ring that starts at one of its nodes. -/
theorem IsRing.exists_cons (h : IsRing k l) (ha : a ∈ l) : ∃ m, l ~r a :: m ∧ IsRing k (a :: m) := by
  obtain ⟨l₁, l₂, rfl⟩ := List.append_of_mem ha
  have hr : l₁ ++ a :: l₂ ~r a :: (l₂ ++ l₁) := List.isRotated_append
  exact ⟨l₂ ++ l₁, hr, h.rotated hr⟩

theorem IsRing.joins_cons (h : IsRing k (a :: b :: l)) : k.Joins a b :=
  (List.isChain_cons_cons.mp (isRing_cons.mp h).2).1

/-- Each node has a neighbour behind it. -/
theorem IsRing.exists_next (h : IsRing k l) (ha : a ∈ l) : ∃ b ∈ l, k.Joins a b := by
  obtain ⟨m, hr, hm⟩ := h.exists_cons ha
  cases m with
  | nil => exact ⟨a, ha, isRing_singleton.mp hm⟩
  | cons b m => exact ⟨b, hr.mem_iff.mpr (by simp), hm.joins_cons⟩

/-- The last node of a ring is in front of the first one. -/
theorem IsRing.joins_last (h : IsRing k (a :: l)) :
    k.Joins ((a :: l).getLast (List.cons_ne_nil _ _)) a := by
  have hc := (Cycle.chain_ne_nil _ (List.cons_ne_nil a l)).mp h.chain
  exact (List.isChain_cons_cons.mp hc).1

/-- Each node has a neighbour in front of it. -/
theorem IsRing.exists_prev (h : IsRing k l) (ha : a ∈ l) : ∃ b ∈ l, k.Joins b a := by
  obtain ⟨m, hr, hm⟩ := h.exists_cons ha
  exact ⟨_, hr.mem_iff.mpr (List.getLast_mem _), hm.joins_last⟩

/-- The pointers of neighbours are inverse to each other. -/
theorem IsRing.next_iff_prev (h : IsRing k l) (ha : a ∈ l) (hb : b ∈ l) :
    k.next a = some b ↔ k.prev b = some a := by
  constructor
  · intro hn
    obtain ⟨c, -, hac, hca⟩ := h.exists_next ha
    rw [hn] at hac
    cases hac
    exact hca
  · intro hp
    obtain ⟨c, -, hcb, hbc⟩ := h.exists_prev hb
    rw [hp] at hbc
    cases hbc
    exact hcb

/-- A node that is its own neighbour is alone. -/
theorem IsRing.eq_singleton (h : IsRing k l) (ha : a ∈ l) (hself : k.next a = some a) :
    l = [a] := by
  obtain ⟨m, hr, hm⟩ := h.exists_cons ha
  cases m with
  | nil => exact List.isRotated_singleton_iff.mp hr
  | cons b m =>
      have hab := hm.joins_cons.1
      rw [hself] at hab
      cases hab
      exact absurd hm.nodup (by simp)

/-- The nodes of a ring are what its first node leads to. -/
theorem IsRing.mem_iff (h : IsRing k (a :: l)) :
    b ∈ a :: l ↔ Relation.ReflTransGen (fun x y => k.next x = some y) a b := by
  constructor
  · intro hb
    have hc : List.IsChain k.Joins (a :: l ++ [a]) := (isRing_cons.mp h).2
    replace hc := hc.left_of_append
    clear h
    induction l generalizing a with
    | nil =>
        rw [List.mem_singleton.mp hb]
    | cons c l ih =>
        obtain ⟨hac, hc⟩ := List.isChain_cons_cons.mp hc
        rcases List.mem_cons.mp hb with rfl | hb
        · exact Relation.ReflTransGen.refl
        · exact Relation.ReflTransGen.head hac.1 (ih hb hc)
  · intro hr
    induction hr with
    | refl => exact List.mem_cons_self
    | tail _ hxy ih =>
        obtain ⟨c, hc, hnext, -⟩ := h.exists_next ih
        rw [hxy] at hnext
        cases hnext
        exact hc

/-! ## Changes of the pointers -/

/-- The inner pointers of a row of nodes. -/
theorem isChain_congr (h : List.IsChain k.Joins l) (hnext : ∀ x ∈ l.dropLast, k'.next x = k.next x)
    (hprev : ∀ x ∈ l.tail, k'.prev x = k.prev x) : List.IsChain k'.Joins l := by
  induction l with
  | nil => exact List.isChain_nil
  | cons a l ih =>
      cases l with
      | nil => exact List.isChain_singleton a
      | cons b l =>
          obtain ⟨hab, hl⟩ := List.isChain_cons_cons.mp h
          refine List.isChain_cons_cons.mpr ⟨⟨?_, ?_⟩, ih hl (fun x hx => ?_) fun x hx => ?_⟩
          · rw [hnext a (by simp)]
            exact hab.1
          · rw [hprev b (by simp)]
            exact hab.2
          · exact hnext x (by
              rw [List.dropLast_cons_cons]
              exact List.mem_cons_of_mem a hx)
          · exact hprev x (List.mem_cons_of_mem b hx)

/-- A ring whose pointers do not change. -/
theorem IsRing.congr (h : IsRing k l) (hnext : ∀ x ∈ l, k'.next x = k.next x)
    (hprev : ∀ x ∈ l, k'.prev x = k.prev x) : IsRing k' l := by
  cases l with
  | nil => exact isRing_nil
  | cons a l =>
      obtain ⟨hnd, hc⟩ := isRing_cons.mp h
      have hmem : ∀ x ∈ a :: (l ++ [a]), x ∈ a :: l := by
        intro x hx
        rcases List.mem_cons.mp hx with rfl | hx
        · exact List.mem_cons_self
        · rcases List.mem_append.mp hx with hx | hx
          · exact List.mem_cons_of_mem a hx
          · rw [List.mem_singleton.mp hx]
            exact List.mem_cons_self
      exact isRing_cons.mpr ⟨hnd, isChain_congr hc
        (fun x hx => hnext x (hmem x (List.dropLast_subset _ hx)))
        fun x hx => hprev x (hmem x (List.mem_of_mem_tail hx))⟩

theorem getLast_not_mem_dropLast (h : l.Nodup) (hl : l ≠ []) : l.getLast hl ∉ l.dropLast := by
  rw [← List.dropLast_append_getLast hl] at h
  exact fun hmem => (List.nodup_append.mp h).2.2 _ hmem _ (List.mem_singleton_self _) rfl

/-- A row of nodes of which the last `next` and the first `prev` change. -/
theorem isChain_ends (hnd : (q :: m).Nodup) (h : List.IsChain k.Joins (q :: m))
    (hp : (q :: m).getLast (List.cons_ne_nil _ _) = p)
    (hnext : ∀ y ∈ q :: m, y ≠ p → k'.next y = k.next y)
    (hprev : ∀ y ∈ q :: m, y ≠ q → k'.prev y = k.prev y) : List.IsChain k'.Joins (q :: m) := by
  refine isChain_congr h (fun y hy => ?_) fun y hy => ?_
  · refine hnext y (List.dropLast_subset _ hy) ?_
    rintro rfl
    rw [← hp] at hy
    exact getLast_not_mem_dropLast hnd _ hy
  · refine hprev y (List.mem_cons_of_mem q hy) ?_
    rintro rfl
    exact (List.nodup_cons.mp hnd).1 hy

/-- **A node is linked in** between the last node and the first one. -/
theorem IsRing.snoc (h : IsRing k (q :: m)) (hx : x ∉ q :: m)
    (hp : (q :: m).getLast (List.cons_ne_nil _ _) = p) (hpx : k'.Joins p x) (hxq : k'.Joins x q)
    (hnext : ∀ y ∈ q :: m, y ≠ p → k'.next y = k.next y)
    (hprev : ∀ y ∈ q :: m, y ≠ q → k'.prev y = k.prev y) : IsRing k' (q :: m ++ [x]) := by
  have hclosed : List.IsChain k.Joins (q :: m ++ [q]) := (isRing_cons.mp h).2
  have hrow := isChain_ends h.nodup hclosed.left_of_append hp hnext hprev
  rw [List.cons_append]
  refine isRing_cons.mpr ⟨?_, ?_⟩
  · rw [← List.cons_append]
    refine List.nodup_append.mpr ⟨h.nodup, List.nodup_singleton x, ?_⟩
    rintro y hy z hz rfl
    exact hx (List.mem_singleton.mp hz ▸ hy)
  · rw [List.append_assoc, ← List.cons_append]
    refine List.isChain_append.mpr ⟨hrow, List.isChain_pair.mpr hxq, ?_⟩
    intro y hy z hz
    rw [List.getLast?_eq_some_getLast (List.cons_ne_nil _ _), hp] at hy
    cases hy
    cases hz
    exact hpx

/-- **The first node is taken out** of a ring with more nodes. -/
theorem IsRing.drop (h : IsRing k (x :: q :: m))
    (hp : (q :: m).getLast (List.cons_ne_nil _ _) = p) (hpq : k'.Joins p q)
    (hnext : ∀ y ∈ q :: m, y ≠ p → k'.next y = k.next y)
    (hprev : ∀ y ∈ q :: m, y ≠ q → k'.prev y = k.prev y) : IsRing k' (q :: m) := by
  obtain ⟨hnd, hc⟩ := isRing_cons.mp h
  have hnd' := (List.nodup_cons.mp hnd).2
  have hclosed : List.IsChain k.Joins ([x] ++ (q :: m ++ [x])) := hc
  have hrow := isChain_ends hnd' hclosed.right_of_append.left_of_append hp hnext hprev
  refine isRing_cons.mpr ⟨hnd', ?_⟩
  rw [← List.cons_append]
  refine List.isChain_append.mpr ⟨hrow, List.isChain_singleton q, ?_⟩
  intro y hy z hz
  rw [List.getLast?_eq_some_getLast (List.cons_ne_nil _ _), hp] at hy
  cases hy
  cases hz
  exact hpq

section OfList
variable [DecidableEq α]

/-- The pointers that make a ring of a list. -/
def ofList (l : List α) : Links α where
  next a := l[(l.idxOf a + 1) % l.length]?
  prev a := l[(l.idxOf a + (l.length - 1)) % l.length]?

/-- Each list without repetitions is a ring. -/
theorem isRing_ofList (h : l.Nodup) : IsRing (ofList l) l := by
  cases hl : l with
  | nil => exact isRing_nil
  | cons a m =>
      have hlen : l.length = m.length + 1 := by
        rw [hl, List.length_cons]
      refine isRing_cons.mpr ⟨hl ▸ h, ?_⟩
      rw [← hl]
      have hget : ∀ i (hi : i < (a :: (m ++ [a])).length),
          l[i % l.length]? = some (a :: (m ++ [a]))[i] := by
        intro i hi
        rw [List.length_cons, List.length_append, List.length_singleton] at hi
        by_cases him : i < l.length
        · rw [Nat.mod_eq_of_lt him]
          simp only [hl, ← List.cons_append]
          rw [List.getElem_append_left (by rw [← hl]; exact him)]
          exact List.getElem?_eq_getElem _
        · obtain rfl : i = l.length := by omega
          rw [Nat.mod_self]
          simp [hl]
      refine List.isChain_iff_getElem.mpr fun i hi => ?_
      have hi' : i < l.length := by
        simpa [hlen] using hi
      have hcur := hget i (by omega)
      have hnext := hget (i + 1) hi
      rw [Nat.mod_eq_of_lt hi', List.getElem?_eq_getElem hi'] at hcur
      have hidx : l.idxOf (a :: (m ++ [a]))[i] = i := by
        rw [← Option.some.inj hcur]
        exact h.idxOf_getElem i hi'
      refine ⟨?_, ?_⟩
      · show l[(l.idxOf _ + 1) % l.length]? = _
        rw [hidx, hnext]
      · have hpos : (i + 1) % l.length < l.length := Nat.mod_lt _ (by omega)
        rw [List.getElem?_eq_getElem hpos] at hnext
        have hidx' : l.idxOf (a :: (m ++ [a]))[i + 1] = (i + 1) % l.length := by
          rw [← Option.some.inj hnext]
          exact h.idxOf_getElem _ hpos
        have hback : ((i + 1) % l.length + (l.length - 1)) % l.length = i := by
          rw [Nat.mod_add_mod, show i + 1 + (l.length - 1) = i + l.length by omega,
            Nat.add_mod_right, Nat.mod_eq_of_lt hi']
        show l[(l.idxOf _ + (l.length - 1)) % l.length]? = _
        rw [hidx', hback, List.getElem?_eq_getElem hi', hcur]
end OfList

end Links

/-! ## Visiting the nodes -/

section Loop
variable {ε σ ρ : Type} (links : σ → Links α) (head : σ → Option α)
  (body : α → Call ε σ (Option ρ))

/-- The loop over a ring: `curr = head; do { if(curr) { body; curr = curr->next; } else break; }
while(curr != head)`, where the body may return. -/
def ringLoop [DecidableEq α] : ℕ → Option α → Call ε σ (Option ρ)
  | _, none => pure none
  | 0, some _ => Call.loop
  | fuel + 1, some a => do
    match ← body a with
    | some r => pure (some r)
    | none => do
      let s ← Call.get
      if (links s).next a = head s then pure none else ringLoop fuel ((links s).next a)

/-- The body for one node after the other, until it returns. -/
def firstOf : List α → Call ε σ (Option ρ)
  | [] => pure none
  | a :: l => do
    match ← body a with
    | some r => pure (some r)
    | none => firstOf l

variable {links head body}

/-- A body that never returns. -/
theorem firstOf_of_step {f : α → σ → σ} {l : List α} {P : σ → Prop}
    (hf : ∀ a ∈ l, ∀ s, P s → body a s = some (.ok none, f a s) ∧ P (f a s)) {s : σ} (hs : P s) :
    firstOf body l s = some (.ok none, l.foldl (fun s a => f a s) s) := by
  induction l generalizing s with
  | nil => rfl
  | cons a l ih =>
      obtain ⟨hb, hs'⟩ := hf a List.mem_cons_self s hs
      rw [firstOf, Call.bind_of_ok hb]
      exact ih (fun b hb => hf b (List.mem_cons_of_mem a hb)) hs'

/-- What each body keeps, all of them keep. -/
theorem firstOf_keeps {P : σ → Prop} {l : List α}
    (hbody : ∀ a ∈ l, ∀ s s', P s → body a s = some (.ok none, s') → P s') {s s' : σ} (hs : P s)
    (h : firstOf body l s = some (.ok none, s')) : P s' := by
  induction l generalizing s with
  | nil =>
      cases h
      exact hs
  | cons a l ih =>
      rw [firstOf] at h
      obtain ⟨r, s₁, ha, h⟩ := Call.bind_eq_ok.mp h
      cases r with
      | some r => cases h
      | none =>
          exact ih (fun b hb => hbody b (List.mem_cons_of_mem a hb))
            (hbody a List.mem_cons_self s s₁ hs ha) h

/-- What each body that returns keeps, all of them keep. -/
theorem firstOf_returns {P : σ → Prop} {l : List α}
    (hbody : ∀ a ∈ l, ∀ s r s', P s → body a s = some (.ok r, s') → P s') {s s' : σ} {r : Option ρ}
    (hs : P s) (h : firstOf body l s = some (.ok r, s')) : P s' := by
  induction l generalizing s with
  | nil =>
      cases h
      exact hs
  | cons a l ih =>
      rw [firstOf] at h
      obtain ⟨o, s₁, ha, h⟩ := Call.bind_eq_ok.mp h
      have hs₁ := hbody a List.mem_cons_self s o s₁ hs ha
      cases o with
      | some v =>
          cases h
          exact hs₁
      | none => exact ih (fun b hb => hbody b (List.mem_cons_of_mem a hb)) hs₁ h

/-- The first node whose body does not go on. -/
theorem firstOf_split {P : σ → Prop} {c : α → Prop} {f : α → σ → σ} {l : List α}
    (hquiet : ∀ a ∈ l, c a → ∀ s, P s → body a s = some (.ok none, f a s) ∧ P (f a s)) {s : σ}
    (hs : P s) :
    ((∀ a ∈ l, c a) ∧ firstOf body l s = some (.ok none, l.foldl (fun s a => f a s) s)) ∨
      ∃ l₁ a l₂ s₁, l = l₁ ++ a :: l₂ ∧ (∀ b ∈ l₁, c b) ∧ ¬ c a ∧ P s₁ ∧
        ∀ r s', body a s₁ = some (.ok (some r), s') →
          firstOf body l s = some (.ok (some r), s') := by
  induction l generalizing s with
  | nil => exact .inl ⟨by simp, rfl⟩
  | cons a l ih =>
      by_cases ha : c a
      · obtain ⟨hrun, hs₁⟩ := hquiet a List.mem_cons_self ha s hs
        have hgo : firstOf body (a :: l) s = firstOf body l (f a s) := by
          rw [firstOf, Call.bind_of_ok hrun]
        rw [hgo]
        rcases ih (fun b hb => hquiet b (List.mem_cons_of_mem a hb)) hs₁ with
          ⟨hall, hnone⟩ | ⟨l₁, b, l₂, s₁, rfl, hall, hb, hP, hret⟩
        · exact .inl ⟨by simpa [ha] using hall, hnone⟩
        · exact .inr ⟨a :: l₁, b, l₂, s₁, rfl, by simpa [ha] using hall, hb, hP, hret⟩
      · refine .inr ⟨[], a, l, s, rfl, by simp, ha, hs, fun r s' hr => ?_⟩
        rw [firstOf, Call.bind_of_ok hr]
        rfl

/-- Bodies that do the same. -/
theorem firstOf_congr {body' : α → Call ε σ (Option ρ)} {P : σ → Prop} {l : List α}
    (heq : ∀ a ∈ l, ∀ s, P s → body a s = body' a s)
    (hbody : ∀ a ∈ l, ∀ s s', P s → body a s = some (.ok none, s') → P s') {s : σ} (hs : P s) :
    firstOf body l s = firstOf body' l s := by
  induction l generalizing s with
  | nil => rfl
  | cons a l ih =>
      have ha := heq a List.mem_cons_self s hs
      rw [firstOf, firstOf]
      rcases hb : body a s with _ | ⟨_ | _ | r, s'⟩
      · rw [Call.bind_of_none hb, Call.bind_of_none (ha ▸ hb)]
      · rw [Call.bind_of_error hb, Call.bind_of_error (ha ▸ hb)]
      · rw [Call.bind_of_ok hb, Call.bind_of_ok (ha ▸ hb)]
        exact ih (fun b hb => heq b (List.mem_cons_of_mem a hb))
          (fun b hb => hbody b (List.mem_cons_of_mem a hb))
          (hbody a List.mem_cons_self s s' hs hb)
      · rw [Call.bind_of_ok hb, Call.bind_of_ok (ha ▸ hb)]

theorem firstOf_append (l m : List α) :
    firstOf body (l ++ m) = (do
      match ← firstOf body l with
      | some r => pure (some r)
      | none => firstOf body m) := by
  induction l with
  | nil => rfl
  | cons a l ih =>
      funext s
      rw [List.cons_append, firstOf, firstOf]
      rcases hb : body a s with _ | ⟨_ | _ | r, s'⟩
      · rw [Call.bind_of_none hb, Call.bind_of_none (Call.bind_of_none hb)]
      · rw [Call.bind_of_error hb, Call.bind_of_error (Call.bind_of_error hb)]
      · rw [Call.bind_of_ok hb, ih, Call.bind_assoc, Call.bind_of_ok hb]
      · rw [Call.bind_of_ok hb, Call.bind_assoc, Call.bind_of_ok hb]
        rfl

/-- The loop over some rings visits the nodes of all of them. -/
theorem firstOf_flatMap {β : Type} (q : β → List α) (l : List β) :
    firstOf (fun i => firstOf body (q i)) l = firstOf body (l.flatMap q) := by
  induction l with
  | nil => rfl
  | cons i l ih =>
      rw [List.flatMap_cons, firstOf_append, firstOf, ih]

variable [DecidableEq α]

theorem ringLoop_of_chain {P : σ → Prop} {a a₀ : α} {l : List α} (h₀ : a₀ ∉ l)
    (hP : ∀ s, P s → head s = some a₀ ∧ List.IsChain (links s).Joins (a :: (l ++ [a₀])))
    (hbody : ∀ b ∈ a :: l, ∀ s s', P s → body b s = some (.ok none, s') → P s') {fuel : ℕ}
    (hfuel : l.length < fuel) {s : σ} (hs : P s) :
    ringLoop links head body fuel (some a) s = firstOf body (a :: l) s := by
  induction l generalizing a fuel s with
  | nil =>
      obtain ⟨fuel, rfl⟩ : ∃ f, fuel = f + 1 := ⟨fuel - 1, by omega⟩
      rw [ringLoop, firstOf]
      rcases hb : body a s with _ | ⟨_ | _ | r, s'⟩
      · rw [Call.bind_of_none hb, Call.bind_of_none hb]
      · rw [Call.bind_of_error hb, Call.bind_of_error hb]
      · have hs' := hbody a List.mem_cons_self s s' hs hb
        obtain ⟨hhead, hc⟩ := hP s' hs'
        rw [Call.bind_of_ok hb, Call.bind_of_ok hb]
        have hnext : (links s').next a = head s' := by
          rw [hhead]
          exact (List.isChain_pair.mp hc).1
        show (if (links s').next a = head s' then _ else _ : Call ε σ (Option ρ)) s' = _
        rw [if_pos hnext]
        rfl
      · rw [Call.bind_of_ok hb, Call.bind_of_ok hb]
  | cons b l ih =>
      obtain ⟨fuel, rfl⟩ : ∃ f, fuel = f + 1 := ⟨fuel - 1, by omega⟩
      rw [ringLoop, firstOf]
      rcases hb : body a s with _ | ⟨_ | _ | r, s'⟩
      · rw [Call.bind_of_none hb, Call.bind_of_none hb]
      · rw [Call.bind_of_error hb, Call.bind_of_error hb]
      · have hs' := hbody a List.mem_cons_self s s' hs hb
        obtain ⟨hhead, hc⟩ := hP s' hs'
        rw [Call.bind_of_ok hb, Call.bind_of_ok hb]
        have hnext : (links s').next a = some b := (List.isChain_cons_cons.mp hc).1.1
        have hne : ¬ (links s').next a = head s' := by
          rw [hnext, hhead]
          rintro ⟨rfl⟩
          exact h₀ List.mem_cons_self
        show (if (links s').next a = head s' then _ else _ : Call ε σ (Option ρ)) s' = _
        rw [if_neg hne, hnext]
        refine ih (fun hm => h₀ (List.mem_cons_of_mem b hm)) (fun t ht => ?_)
          (fun c hc' => hbody c (List.mem_cons_of_mem a hc')) (by simpa using hfuel) hs'
        obtain ⟨hhead, hc⟩ := hP t ht
        exact ⟨hhead, (List.isChain_cons_cons.mp hc).2⟩
      · rw [Call.bind_of_ok hb, Call.bind_of_ok hb]

/-- **The loop visits the nodes of the ring in order**, if the body leaves the ring as it is
as long as it does not return. -/
theorem ringLoop_eq {P : σ → Prop} {l : List α}
    (hP : ∀ s, P s → head s = l.head? ∧ (links s).IsRing l)
    (hbody : ∀ a ∈ l, ∀ s s', P s → body a s = some (.ok none, s') → P s') {fuel : ℕ}
    (hfuel : l.length ≤ fuel) {s : σ} (hs : P s) :
    ringLoop links head body fuel (head s) s = firstOf body l s := by
  rw [(hP s hs).1]
  cases l with
  | nil =>
      rw [List.head?_nil, ringLoop, firstOf]
  | cons a l =>
      have hnd := (hP s hs).2.nodup
      exact ringLoop_of_chain (List.nodup_cons.mp hnd).1
        (fun t ht => ⟨(hP t ht).1, (Links.isRing_cons.mp (hP t ht).2).2⟩) hbody hfuel hs

end Loop
end OxKernel.Lib
