import OxKernel.Mm.PageSafety

/-!
# What a search for pages misses

The search of the two allocators for an arbitrary bitmap. A scan skips the pages that it has
already looked at, from `page` to `page + run`; none of them starts a run of free pages, since
the marked page at `page + run` would be in it. This also holds where an index wraps around,
so a search that comes back empty-handed has missed nothing.

What can go wrong is the way back: behind the last index a scan goes on at page 0, and if that
page starts a run, the call returns its address, which is 0. For this all indices but the last
one have to be free.

## Main definitions

* `MemMap.Begins` — a run of free pages, also around the end of the indices.
* `Kind.Complete` — a call that returns 0 has found nothing and changed nothing, and a call
  that can find something does not return 0.
* `Kind.Lapses` — the search gets to page 0.

## Main results

* `MemMap.scan_none`, `MemMap.scan_reaches` — a scan misses no run.
* `alloc_complete_iff` — the search is complete exactly if it does not get to page 0.
-/
namespace OxKernel.Mm

namespace MemMap

variable {m m' : MemMap} {p q n limit r : UInt32} {fuel : ℕ}

/-! ### Runs around the end of the indices -/

/-- `n` free pages from page `p` on. -/
def Begins (m : MemMap) (n : UInt32) (p : ℕ) : Prop := ∀ i < n.toNat, ¬ m.Marked (p + i)

/-- The first marked page from page `p` on is the `r`-th one, and `n` pages would reach it. -/
structure Blocks (m : MemMap) (n : UInt32) (p r : ℕ) : Prop where
  lt : r < n.toNat
  marked : m.Marked (p + r)
  free : ∀ i < r, ¬ m.Marked (p + i)

theorem begins_congr (h : m'.page = m.page) (x : ℕ) : m'.Begins n x ↔ m.Begins n x := by
  simp only [Begins, marked_congr h]

theorem marked_add_size (m : MemMap) (x : ℕ) : m.Marked (x + 2 ^ 32) ↔ m.Marked x := by
  have hof : UInt32.ofNat (x + 2 ^ 32) = UInt32.ofNat x := by
    apply UInt32.toNat_inj.mp
    simp
  rw [Marked, Marked, hof]

theorem begins_add_size (m : MemMap) (x : ℕ) : m.Begins n (x + 2 ^ 32) ↔ m.Begins n x := by
  have hcomm : ∀ i, x + 2 ^ 32 + i = x + i + 2 ^ 32 := by omega
  simp only [Begins, hcomm, marked_add_size]

/-- No run starts at a page that is skipped. -/
theorem Blocks.not_begins {x k y : ℕ} (h : m.Blocks n x k) (hxy : x ≤ y) (hy : y ≤ x + k) :
    ¬ m.Begins n y := by
  intro hbegins
  have hlt := h.lt
  have hfree := hbegins (x + k - y) (by omega)
  rw [show y + (x + k - y) = x + k by omega] at hfree
  exact hfree h.marked

/-- Either a run starts at a page, or a marked page blocks it. -/
theorem begins_or_blocks (m : MemMap) (n : UInt32) (x : ℕ) :
    m.Begins n x ∨ ∃ k, m.Blocks n x k := by
  classical
  by_cases h : ∃ i, i < n.toNat ∧ m.Marked (x + i)
  · obtain ⟨hlt, hmarked⟩ := Nat.find_spec h
    refine .inr ⟨Nat.find h, hlt, hmarked, fun i hi hm => ?_⟩
    exact Nat.find_min h hi ⟨hi.trans hlt, hm⟩
  · exact .inl fun i hi hm => h ⟨i, hi, hm⟩

/-! ### The loops -/

theorem page_memTestBit (m : MemMap) (p : UInt32) : (m.memTestBit p).2.page = m.page := rfl

theorem isSet_add (m : MemMap) (p run : UInt32) :
    m.isSet (p + run) = true ↔ m.Marked (p.toNat + run.toNat) := by
  rw [Marked, UInt32.ofNat_add, UInt32.ofNat_toNat, UInt32.ofNat_toNat]

/-- A run of free pages is tested to its end. -/
theorem freeRun_begins {k : ℕ} {run : UInt32} (hrun : run.toNat + k < 2 ^ 32)
    (h : ∀ i, run.toNat ≤ i → i < run.toNat + k → ¬ m.Marked (p.toNat + i)) :
    (freeRun p k run m).1.toNat = run.toNat + k ∧ (freeRun p k run m).2.page = m.page := by
  induction k generalizing run m with
  | zero => exact ⟨rfl, rfl⟩
  | succ k ih =>
      have hclear : m.isSet (p + run) = false := by
        have hfree := h run.toNat le_rfl (by omega)
        rwa [← isSet_add, Bool.not_eq_true] at hfree
      have hnext : (run + 1).toNat = run.toNat + 1 := Lib.toNat_succ (by omega)
      have hrest := @ih (m.memTestBit (p + run)).2 (run + 1) (by omega) fun i hi hi' => by
        rw [marked_congr (page_memTestBit m _)]
        exact h i (by omega) (by omega)
      rw [freeRun]
      simp only [memTestBit_fst, hclear, Bool.false_eq_true, if_false]
      rw [if_neg (by decide)]
      exact ⟨by omega, hrest.2⟩

/-- The marked page that blocks a run ends the test. -/
theorem freeRun_blocks {k j : ℕ} {run : UInt32} (hrun : run.toNat + k < 2 ^ 32)
    (hj : run.toNat ≤ j) (hjk : j < run.toNat + k) (hmarked : m.Marked (p.toNat + j))
    (h : ∀ i, run.toNat ≤ i → i < j → ¬ m.Marked (p.toNat + i)) :
    (freeRun p k run m).1.toNat = j ∧ (freeRun p k run m).2.page = m.page := by
  induction k generalizing run m with
  | zero => omega
  | succ k ih =>
      rw [freeRun]
      simp only [memTestBit_fst]
      by_cases hset : m.isSet (p + run) = true
      · rw [if_pos hset, if_pos rfl]
        have hrunj : run.toNat = j := by
          by_contra hne
          exact h run.toNat le_rfl (by omega) ((isSet_add m p run).mp hset)
        exact ⟨hrunj, rfl⟩
      · have hne : run.toNat ≠ j := by
          rintro rfl
          exact hset ((isSet_add m p run).mpr hmarked)
        have hnext : (run + 1).toNat = run.toNat + 1 := Lib.toNat_succ (by omega)
        rw [if_neg hset, if_neg (by decide)]
        exact @ih (m.memTestBit (p + run)).2 (run + 1) (by omega) (by omega) (by omega)
          ((marked_congr (page_memTestBit m _) _).mpr hmarked)
          fun i hi hi' => by
            rw [marked_congr (page_memTestBit m _)]
            exact h i (by omega) hi'

/-! ### One round of a scan -/

theorem scan_stop (h : ¬ p < limit) : scan n limit (fuel + 1) p m = some (none, m) := by
  rw [scan, if_neg h]

theorem scan_begins (hn : 0 < n.toNat) (hp : p < limit) (h : m.Begins n p.toNat) :
    ∃ m', m'.page = m.page ∧ ∀ fuel, scan n limit (fuel + 1) p m = some (some p, m') := by
  have hclear : m.isSet p = false := by
    have hfree := h 0 hn
    rwa [Nat.add_zero, marked_toNat, Bool.not_eq_true] at hfree
  obtain ⟨hrun, hpage⟩ := @freeRun_begins (m.memTestBit p).2 p n.toNat 0
    (by simpa using n.toNat_lt) fun i _ hi => by
      rw [marked_congr (page_memTestBit m _)]
      exact h i (by simpa using hi)
  have hn' : (freeRun p n.toNat 0 (m.memTestBit p).2).1 = n := by
    apply UInt32.toNat_inj.mp
    simpa using hrun
  refine ⟨_, hpage.trans (page_memTestBit m p), fun fuel => ?_⟩
  rw [scan, if_pos hp]
  simp only [memTestBit_fst, hclear, Bool.false_eq_true, if_false, if_true]
  rw [if_pos hn']

theorem scan_blocks (hp : p < limit) (h : m.Blocks n p.toNat r.toNat) :
    ∃ m', m'.page = m.page ∧
      ∀ fuel, scan n limit (fuel + 1) p m = scan n limit fuel (p + r + 1) m' := by
  by_cases hset : m.isSet p = true
  · have hr : r = 0 := by
      apply UInt32.toNat_inj.mp
      by_contra hne
      exact h.free 0 (Nat.pos_of_ne_zero hne) (by rwa [Nat.add_zero, marked_toNat])
    refine ⟨_, page_memTestBit m p, fun fuel => ?_⟩
    rw [scan, if_pos hp]
    simp only [memTestBit_fst, hset, if_true]
    rw [if_neg (by decide), hr, UInt32.add_zero]
  · have hlt := h.lt
    obtain ⟨hrun, hpage⟩ := @freeRun_blocks (m.memTestBit p).2 p n.toNat r.toNat 0
      (by simpa using n.toNat_lt) (by simp) (by simpa using hlt)
      ((marked_congr (page_memTestBit m _) _).mpr h.marked) fun i _ hi => by
        rw [marked_congr (page_memTestBit m _)]
        exact h.free i hi
    have hrun' : (freeRun p n.toNat 0 (m.memTestBit p).2).1 = r := UInt32.toNat_inj.mp hrun
    have hne : r ≠ n := by
      rintro rfl
      omega
    refine ⟨_, hpage.trans (page_memTestBit m p), fun fuel => ?_⟩
    rw [scan, if_pos hp]
    simp only [memTestBit_fst, hset]
    rw [if_pos (by decide)]
    simp only [hrun', if_neg hne]

/-- A page that blocks, as a word. -/
theorem begins_or_blocks_word (m : MemMap) (n p : UInt32) :
    m.Begins n p.toNat ∨ ∃ r : UInt32, m.Blocks n p.toNat r.toNat := by
  rcases m.begins_or_blocks n p.toNat with h | ⟨k, h⟩
  · exact .inl h
  · have hk : (UInt32.ofNat k).toNat = k :=
      UInt32.toNat_ofNat_of_lt' (h.lt.trans n.toNat_lt)
    exact .inr ⟨.ofNat k, by rwa [hk]⟩

/-- What one round of a scan does. -/
inductive Round (n limit p : UInt32) (m : MemMap) : Prop
  | stops (hp : ¬ p < limit) (hscan : ∀ fuel, scan n limit (fuel + 1) p m = some (none, m))
  | finds (hp : p < limit) (hb : m.Begins n p.toNat) (m₁ : MemMap)
      (hscan : ∀ fuel, scan n limit (fuel + 1) p m = some (some p, m₁))
  | skips (hp : p < limit) (r : UInt32) (hb : m.Blocks n p.toNat r.toNat) (m₁ : MemMap)
      (hpage : m₁.page = m.page)
      (hscan : ∀ fuel, scan n limit (fuel + 1) p m = scan n limit fuel (p + r + 1) m₁)

theorem round (hn : 0 < n.toNat) (limit p : UInt32) (m : MemMap) : Round n limit p m := by
  by_cases hp : p < limit
  · rcases m.begins_or_blocks_word n p with hb | ⟨r, hb⟩
    · obtain ⟨m₁, -, hscan⟩ := scan_begins hn hp hb
      exact .finds hp hb m₁ hscan
    · obtain ⟨m₁, hpage, hscan⟩ := scan_blocks hp hb
      exact .skips hp r hb m₁ hpage hscan
  · exact .stops hp fun fuel => scan_stop hp

theorem toNat_behind (p r : UInt32) : (p + r + 1).toNat = (p.toNat + r.toNat + 1) % 2 ^ 32 := by
  simp [UInt32.toNat_add]

/-! ### Whole scans -/

/-- **A scan that finds nothing has missed nothing**, and changes no bit. -/
theorem scan_none (hn : 0 < n.toNat) (h : scan n limit fuel p m = some (none, m')) :
    m'.page = m.page ∧ ∀ x, p.toNat ≤ x → x < limit.toNat → ¬ m.Begins n x := by
  induction fuel generalizing p m with
  | zero => cases h
  | succ fuel ih =>
      cases round hn limit p m with
      | stops hp hscan =>
          rw [hscan] at h
          obtain rfl : m = m' := by simpa using h
          have hle : limit.toNat ≤ p.toNat := by
            rwa [UInt32.lt_iff_toNat_lt, not_lt] at hp
          exact ⟨rfl, fun x hx hxl => by omega⟩
      | finds hp hb m₁ hscan =>
          rw [hscan] at h
          cases h
      | skips hp r hb m₁ hpage hscan =>
          rw [hscan] at h
          obtain ⟨hpage', hrest⟩ := ih h
          refine ⟨hpage'.trans hpage, fun x hx hxl => ?_⟩
          by_cases hskip : x ≤ p.toNat + r.toNat
          · exact hb.not_begins hx hskip
          · -- The index has not wrapped, since `x` is behind the marked page.
            have hlimit := limit.toNat_lt
            have hnext := toNat_behind p r
            rw [Nat.mod_eq_of_lt (by omega)] at hnext
            rw [← begins_congr hpage]
            exact hrest x (by omega) hxl

/-- What a scan finds is the start of a run. -/
theorem scan_some (hn : 0 < n.toNat) (h : scan n limit fuel p m = some (some q, m')) :
    q < limit ∧ m.Begins n q.toNat := by
  induction fuel generalizing p m with
  | zero => cases h
  | succ fuel ih =>
      cases round hn limit p m with
      | stops hp hscan =>
          rw [hscan] at h
          cases h
      | finds hp hb m₁ hscan =>
          rw [hscan] at h
          obtain ⟨rfl, -⟩ : p = q ∧ m₁ = m' := by simpa using h
          exact ⟨hp, hb⟩
      | skips hp r hb m₁ hpage hscan =>
          rw [hscan] at h
          rw [← begins_congr hpage]
          exact ih h

/-- **A scan that starts at or before a run finds one.** -/
theorem scan_reaches {c : ℕ} (hn : 0 < n.toNat) (hc : m.Begins n c) (hpc : p.toNat ≤ c)
    (hcl : c < limit.toNat) :
    ∃ fuel q m', scan n limit fuel p m = some (some q, m') := by
  induction hd : c - p.toNat using Nat.strong_induction_on generalizing p m with
  | _ d ih =>
      cases round hn limit p m with
      | stops hp hscan => exact absurd (UInt32.lt_iff_toNat_lt.mpr (by omega)) hp
      | finds hp hb m₁ hscan => exact ⟨1, p, m₁, hscan 0⟩
      | skips hp r hb m₁ hpage hscan =>
          have hbehind : p.toNat + r.toNat < c := by
            by_contra hle
            exact hb.not_begins hpc (by omega) hc
          have hlimit := limit.toNat_lt
          have hnext := toNat_behind p r
          rw [Nat.mod_eq_of_lt (by omega)] at hnext
          obtain ⟨fuel, q, m', hrest⟩ := ih (c - (p + r + 1).toNat) (by omega)
            ((begins_congr hpage c).mpr hc) (by omega) rfl
          exact ⟨fuel + 1, q, m', by rw [hscan, hrest]⟩

/-- A scan that starts behind a run ends, if need be after it has come round to it. -/
theorem scan_ends_behind {c : ℕ} (hn : 0 < n.toNat) (hc : m.Begins n c) (hpc : c < p.toNat)
    (hcl : c < limit.toNat) : ∃ fuel x m', scan n limit fuel p m = some (x, m') := by
  induction hd : 2 ^ 32 - p.toNat using Nat.strong_induction_on generalizing p m with
  | _ d ih =>
      have hlt := p.toNat_lt
      cases round hn limit p m with
      | stops hp hscan => exact ⟨1, none, m, hscan 0⟩
      | finds hp hb m₁ hscan => exact ⟨1, some p, m₁, hscan 0⟩
      | skips hp r hb m₁ hpage hscan =>
          have hc₁ := (begins_congr hpage c).mpr hc
          have hnext := toNat_behind p r
          have hr := r.toNat_lt
          by_cases hwrap : p.toNat + r.toNat + 1 < 2 ^ 32
          · rw [Nat.mod_eq_of_lt hwrap] at hnext
            obtain ⟨fuel, x, m', hrest⟩ :=
              ih (2 ^ 32 - (p + r + 1).toNat) (by omega) hc₁ (by omega) rfl
            exact ⟨fuel + 1, x, m', by rw [hscan, hrest]⟩
          · -- The pages that are skipped do not come round to the run.
            have hbehind : p.toNat + r.toNat < c + 2 ^ 32 := by
              by_contra hle
              exact hb.not_begins (by omega) (by omega) ((begins_add_size m c).mpr hc)
            have hstart : (p + r + 1).toNat ≤ c := by omega
            obtain ⟨fuel, q, m', hrest⟩ := scan_reaches hn hc₁ hstart hcl
            exact ⟨fuel + 1, some q, m', by rw [hscan, hrest]⟩

/-! ### Page 0 -/

/-- All indices but the last one are free. -/
def OnlyLast (m : MemMap) : Prop := ∀ x < 2 ^ 32, m.Marked x ↔ x = 2 ^ 32 - 1

theorem onlyLast_congr (h : m'.page = m.page) : m'.OnlyLast ↔ m.OnlyLast := by
  simp only [OnlyLast, marked_congr h]

/-- The free pages up to the last index and those of a run at page 0 are all pages. -/
theorem onlyLast_of_overlap {x k : ℕ} (hb : m.Blocks n x k) (hbegins : m.Begins n 0)
    (hlast : x + k = 2 ^ 32 - 1) (hx : x ≤ n.toNat) : m.OnlyLast := by
  have hlt := hb.lt
  intro y hy
  constructor
  · intro hmarked
    by_contra hne
    by_cases hyn : y < n.toNat
    · exact hbegins y hyn (by rwa [Nat.zero_add])
    · refine hb.free (y - x) (by omega) ?_
      rwa [show x + (y - x) = y by omega]
  · rintro rfl
    rw [← hlast]
    exact hb.marked

/-- **A scan gets to page 0 only past the last index**, with all the others free. -/
theorem onlyLast_of_scan (hn : 0 < n.toNat) (hp0 : p ≠ 0) (hlimit : limit.toNat ≤ 2 ^ 20)
    (h : scan n limit fuel p m = some (some 0, m')) :
    m.OnlyLast ∧ 2 ^ 32 ≤ p.toNat + n.toNat := by
  induction fuel generalizing p m with
  | zero => cases h
  | succ fuel ih =>
      cases round hn limit p m with
      | stops hp hscan =>
          rw [hscan] at h
          cases h
      | finds hp hb m₁ hscan =>
          rw [hscan] at h
          exact absurd (by simpa using congrArg (fun x => x.map Prod.fst) h) hp0
      | skips hp r hb m₁ hpage hscan =>
          rw [hscan] at h
          have hnext := toNat_behind p r
          have hplt := UInt32.lt_iff_toNat_lt.mp hp
          have hr := r.toNat_lt
          have hlt := hb.lt
          by_cases hzero : p + r + 1 = 0
          · -- The marked page is the last one, and the run at page 0 overlaps the free pages.
            have hlast : p.toNat + r.toNat = 2 ^ 32 - 1 := by
              rw [hzero, UInt32.toNat_zero] at hnext
              omega
            have hbegins : m.Begins n 0 := by
              have hfound := (scan_some hn h).2
              rwa [begins_congr hpage] at hfound
            exact ⟨onlyLast_of_overlap hb hbegins hlast (by omega), by omega⟩
          · -- Otherwise the marked page is not the last one.
            obtain ⟨honly, -⟩ := ih hzero h
            rw [onlyLast_congr hpage] at honly
            have hmarked := hb.marked
            rcases Nat.lt_or_ge (p.toNat + r.toNat) (2 ^ 32) with hin | hout
            · have hx := (honly _ hin).mp hmarked
              exact absurd (UInt32.toNat_inj.mp (by rw [hnext, hx]; rfl)) hzero
            · have hback : p.toNat + r.toNat = p.toNat + r.toNat - 2 ^ 32 + 2 ^ 32 := by omega
              rw [hback, marked_add_size] at hmarked
              have hx := (honly _ (by omega)).mp hmarked
              omega

/-- With all indices but the last one free, a scan that reaches the last one gets to page 0. -/
theorem scan_zero (hp0 : p ≠ 0) (hp : p < limit) (honly : m.OnlyLast)
    (hend : 2 ^ 32 ≤ p.toNat + n.toNat) :
    ∃ fuel m', scan n limit fuel p m = some (some 0, m') := by
  have hplt := p.toNat_lt
  have hnlt := n.toNat_lt
  have hpos : 0 < p.toNat := Nat.pos_of_ne_zero fun h0 => hp0 (UInt32.toNat_inj.mp h0)
  have hr : (UInt32.ofNat (2 ^ 32 - 1 - p.toNat)).toNat = 2 ^ 32 - 1 - p.toNat :=
    UInt32.toNat_ofNat_of_lt' (by simp only [UInt32.size]; omega)
  have hb : m.Blocks n p.toNat (UInt32.ofNat (2 ^ 32 - 1 - p.toNat)).toNat := by
    rw [hr]
    refine ⟨by omega, (honly _ (by omega)).mpr (by omega), fun i hi hm => ?_⟩
    have hx := (honly _ (by omega)).mp hm
    omega
  obtain ⟨m₁, hpage, hscan⟩ := @scan_blocks m p n limit _ hp hb
  have hnext : p + UInt32.ofNat (2 ^ 32 - 1 - p.toNat) + 1 = 0 := by
    apply UInt32.toNat_inj.mp
    rw [toNat_behind, hr, UInt32.toNat_zero]
    omega
  have hbegins : m₁.Begins n (0 : UInt32).toNat := by
    rw [begins_congr hpage, UInt32.toNat_zero]
    intro i hi hm
    have hx := (honly _ (by omega)).mp hm
    omega
  have hlimit : 0 < limit :=
    UInt32.lt_iff_toNat_lt.mpr (hpos.trans (UInt32.lt_iff_toNat_lt.mp hp))
  obtain ⟨m₂, -, hscan'⟩ := scan_begins (by omega) hlimit hbegins
  exact ⟨2, m₂, by rw [hscan, hnext, hscan']⟩

end MemMap
/-! ### One allocation -/

namespace Region

variable {fuel : ℕ} {n limit p : UInt32} {r r' : Region} {m m₁ m₂ m' : MemMap}

/-- The bounds of a region and a saved cursor inside it. -/
structure Bounds (limit : UInt32) (r : Region) : Prop where
  first_pos : 0 < r.first.toNat
  limit_le : limit.toNat ≤ 2 ^ 20
  cursor : r.lastPage = 0 ∨ r.first ≤ r.lastPage ∧ r.lastPage ≤ limit

/-- A candidate of the search. -/
def Candidate (n limit : UInt32) (r : Region) (m : MemMap) (x : ℕ) : Prop :=
  r.first.toNat ≤ x ∧ x < limit.toNat ∧ m.Begins n x

/-- The search is complete. -/
structure Complete (n limit : UInt32) (r : Region) (m : MemMap) : Prop where
  fails : ∀ fuel r' m', r.alloc fuel n limit m = some (0, r', m') →
    (r.Full ∨ ∀ x, ¬ r.Candidate n limit m x) ∧ m'.page = m.page ∧
      r' = { r with lastPage := r'.lastPage }
  finds : ¬ r.Full → ∀ x, r.Candidate n limit m x →
    ∃ fuel addr r' m', r.alloc fuel n limit m = some (addr, r', m') ∧ addr ≠ 0

/-- The first page that the search looks at: the cursor, unless it is at the end. -/
def scanStart (limit : UInt32) (r : Region) : UInt32 := if r.last < limit then r.last else r.first

/-- The search gets to page 0. -/
def Lapses (n limit : UInt32) (r : Region) (m : MemMap) : Prop :=
  ¬ r.Full ∧ r.first < limit ∧ m.OnlyLast ∧ 2 ^ 32 ≤ (r.scanStart limit).toNat + n.toNat

theorem Bounds.first_le (h : r.Bounds limit) : r.first.toNat ≤ r.last.toNat := by
  rw [last]
  rcases h.cursor with h0 | ⟨hle, -⟩
  · rw [if_pos h0]
  · split
    · exact le_rfl
    · exact UInt32.le_iff_toNat_le.mp hle

theorem Bounds.last_le (h : r.Bounds limit) (hlt : r.first < r.last) :
    r.last.toNat ≤ limit.toNat := by
  rw [last] at hlt ⊢
  split at hlt
  · exact absurd hlt (UInt32.lt_irrefl _)
  · rename_i h0
    rw [if_neg h0]
    exact UInt32.le_iff_toNat_le.mp (h.cursor.resolve_left h0).2

theorem ne_zero_of_pos (h : 0 < p.toNat) : p ≠ 0 := by
  rintro rfl
  exact absurd h (by simp)

theorem Bounds.last_ne_zero (h : r.Bounds limit) : r.last ≠ 0 :=
  ne_zero_of_pos (h.first_pos.trans_le h.first_le)

/-! The ways through the body. -/

theorem alloc_first (hopen : ¬ r.Full) (h : m.scan n limit fuel r.last = some (some p, m₁)) :
    r.alloc fuel n limit m = some (p * pageSize,
      { r with lastPage := p + n + 1, allocPages := r.allocPages + n.toInt32 },
      m₁.setRun p n.toNat 0) := by
  rw [Full] at hopen
  rw [alloc, if_neg hopen]
  dsimp only
  rw [← first, ← last, h]
  rfl

theorem alloc_second (hopen : ¬ r.Full) (h : m.scan n limit fuel r.last = some (none, m₁))
    (h' : m₁.scan n r.last fuel r.first = some (some p, m₂)) :
    r.alloc fuel n limit m = some (p * pageSize,
      { r with lastPage := p + n + 1, allocPages := r.allocPages + n.toInt32 },
      m₂.setRun p n.toNat 0) := by
  rw [Full] at hopen
  rw [alloc, if_neg hopen]
  dsimp only
  rw [← first, ← last, h]
  simp only [Option.bind_eq_bind, Option.bind_some, h']
  rfl

/-- What a call has done that returns. -/
theorem alloc_cases {x : UInt32 × Region × MemMap} (h : r.alloc fuel n limit m = some x) :
    (r.Full ∧ x = (0, r, m)) ∨
    (¬ r.Full ∧
      ((∃ p m₁, m.scan n limit fuel r.last = some (some p, m₁) ∧ x.1 = p * pageSize) ∨
        ∃ m₁, m.scan n limit fuel r.last = some (none, m₁) ∧
          ((∃ p m₂, m₁.scan n r.last fuel r.first = some (some p, m₂) ∧ x.1 = p * pageSize) ∨
            ∃ m₂, m₁.scan n r.last fuel r.first = some (none, m₂) ∧
              x = (0, { r with lastPage := r.last }, m₂)))) := by
  rw [alloc] at h
  by_cases hfull : (r.allocPages * 4096).toUInt32 ≥ r.bytesFree
  · rw [if_pos hfull] at h
    exact .inl ⟨hfull, by simpa using h.symm⟩
  · rw [if_neg hfull] at h
    dsimp only at h
    rw [← first, ← last] at h
    refine .inr ⟨hfull, ?_⟩
    obtain ⟨⟨page, m₁⟩, hscan, h⟩ := Option.bind_eq_some_iff.mp h
    cases page with
    | some p => exact .inl ⟨p, m₁, hscan, by cases h; rfl⟩
    | none =>
        obtain ⟨⟨page, m₂⟩, hscan', h⟩ := Option.bind_eq_some_iff.mp h
        refine .inr ⟨m₁, hscan, ?_⟩
        cases page with
        | some p => exact .inl ⟨p, m₂, hscan', by cases h; rfl⟩
        | none => exact .inr ⟨m₂, hscan', by cases h; rfl⟩

/-- A page in bounds has address 0 only if it is page 0. -/
theorem mul_pageSize_eq_zero (hp : p.toNat < 2 ^ 20) (h : (0 : UInt32) = p * pageSize) :
    p = 0 := by
  apply UInt32.toNat_inj.mp
  have hmul := congrArg UInt32.toNat h
  rw [UInt32.toNat_mul] at hmul
  simp only [pageSize, UInt32.reduceToNat] at hmul ⊢
  omega

theorem lt_of_scan_some {start : UInt32} {q : UInt32}
    (h : m.scan n limit fuel start = some (some q, m')) : start < limit := by
  by_contra hstop
  cases fuel with
  | zero => cases h
  | succ fuel =>
      rw [MemMap.scan_stop hstop] at h
      cases h

theorem scan_deterministic {fuel' : ℕ} {start : UInt32} {x y : Option UInt32 × MemMap}
    (hx : m.scan n limit fuel start = some x) (hy : m.scan n limit fuel' start = some y) :
    x = y := by
  have hx' := MemMap.scan_mono (le_max_left fuel fuel') hx
  have hy' := MemMap.scan_mono (le_max_right fuel fuel') hy
  rw [hx'] at hy'
  simpa using hy'

/-- **The search gets to page 0 only if it lapses.** -/
theorem lapses_of_zero (hb : r.Bounds limit) (hn : 0 < n.toNat) (hopen : ¬ r.Full)
    (h : (∃ m₁, m.scan n limit fuel r.last = some (some 0, m₁)) ∨
      ∃ m₁ m₂, m.scan n limit fuel r.last = some (none, m₁) ∧
        m₁.scan n r.last fuel r.first = some (some 0, m₂)) : r.Lapses n limit m := by
  rcases h with ⟨m₁, hscan⟩ | ⟨m₁, m₂, hscan, hscan'⟩
  · obtain ⟨honly, hend⟩ := MemMap.onlyLast_of_scan hn hb.last_ne_zero hb.limit_le hscan
    have hlt := lt_of_scan_some hscan
    have hfirst : r.first < limit := by
      rw [UInt32.lt_iff_toNat_lt] at hlt ⊢
      exact hb.first_le.trans_lt hlt
    exact ⟨hopen, hfirst, honly, by rwa [scanStart, if_pos hlt]⟩
  · have hlt := lt_of_scan_some hscan'
    have hle := hb.last_le hlt
    have hpage := (MemMap.scan_none hn hscan).1
    obtain ⟨honly, hend⟩ := MemMap.onlyLast_of_scan hn (ne_zero_of_pos hb.first_pos)
      (hle.trans hb.limit_le) hscan'
    rw [MemMap.onlyLast_congr hpage] at honly
    -- The first scan would have got to page 0.
    have hstop : ¬ r.last < limit := by
      intro hlast
      have hfirst := hb.first_le
      obtain ⟨fuel', m₃, hzero⟩ :=
        MemMap.scan_zero hb.last_ne_zero hlast honly (by omega : 2 ^ 32 ≤ r.last.toNat + n.toNat)
      exact absurd (scan_deterministic hscan hzero) (by simp)
    refine ⟨hopen, ?_, honly, by rwa [scanStart, if_neg hstop]⟩
    rw [UInt32.lt_iff_toNat_lt] at hlt ⊢
    omega

/-- **A search that lapses returns 0 and marks pages.** -/
theorem zero_of_lapses (hb : r.Bounds limit) (h : r.Lapses n limit m) :
    ∃ fuel r' m', r.alloc fuel n limit m = some (0, r', m') ∧ ¬ m.Marked 0 ∧ m'.Marked 0 := by
  obtain ⟨hopen, hfirst, honly, hend⟩ := h
  have hclear : ¬ m.Marked 0 := fun hm => absurd ((honly 0 (by omega)).mp hm) (by omega)
  have hn : 0 < n.toNat := by
    have hlt := (r.scanStart limit).toNat_lt
    omega
  have hmark : ∀ m' : MemMap, (m'.setRun 0 n.toNat 0).Marked 0 := fun m' =>
    (MemMap.marked_setRun (by omega) (by have := n.toNat_lt; simp; omega)
      (by simpa using n.toNat_lt)).mpr (.inl ⟨by simp, by simpa using hn⟩)
  by_cases hlast : r.last < limit
  · rw [scanStart, if_pos hlast] at hend
    obtain ⟨fuel, m₁, hscan⟩ := MemMap.scan_zero hb.last_ne_zero hlast honly hend
    exact ⟨fuel, _, _, alloc_first hopen hscan, hclear, hmark m₁⟩
  · rw [scanStart, if_neg hlast] at hend
    have hlt : r.first < r.last := by
      rw [UInt32.lt_iff_toNat_lt] at hfirst hlast ⊢
      omega
    obtain ⟨fuel, m₁, hscan⟩ := MemMap.scan_zero (ne_zero_of_pos hb.first_pos) hlt honly hend
    cases fuel with
    | zero => cases hscan
    | succ fuel =>
        exact ⟨fuel + 1, _, _, alloc_second hopen (MemMap.scan_stop hlast) hscan, hclear, hmark m₁⟩

/-- **A search with a candidate ends.** -/
theorem alloc_ends_of_candidate (hn : 0 < n.toNat) (hopen : ¬ r.Full)
    {c : ℕ} (hc : r.Candidate n limit m c) :
    ∃ fuel x, r.alloc fuel n limit m = some x := by
  obtain ⟨hfirst, hlimit, hbegins⟩ := hc
  by_cases hlast : r.last.toNat ≤ c
  · obtain ⟨fuel, q, m₁, hscan⟩ := MemMap.scan_reaches hn hbegins hlast hlimit
    exact ⟨fuel, _, alloc_first hopen hscan⟩
  · obtain ⟨fuel, page, m₁, hscan⟩ :=
      MemMap.scan_ends_behind hn hbegins (by omega : c < r.last.toNat) hlimit
    cases page with
    | some q => exact ⟨fuel, _, alloc_first hopen hscan⟩
    | none =>
        have hbegins₁ := (MemMap.begins_congr (MemMap.scan_none hn hscan).1 c).mpr hbegins
        obtain ⟨fuel', q, m₂, hscan'⟩ :=
          MemMap.scan_reaches hn hbegins₁ hfirst (by omega : c < r.last.toNat)
        exact ⟨max fuel fuel', _, alloc_second hopen
          (MemMap.scan_mono (le_max_left ..) hscan) (MemMap.scan_mono (le_max_right ..) hscan')⟩

/-- A call that returns 0 without a lapse. -/
theorem alloc_zero (hb : r.Bounds limit) (hn : 0 < n.toNat) (hlapse : ¬ r.Lapses n limit m)
    (h : r.alloc fuel n limit m = some (0, r', m')) :
    (r.Full ∨ ∀ x, ¬ r.Candidate n limit m x) ∧ m'.page = m.page ∧
      r' = { r with lastPage := r'.lastPage } := by
  rcases alloc_cases h with ⟨hfull, hx⟩ | ⟨hopen, ⟨p, m₁, hscan, hx⟩ | ⟨m₁, hscan, hrest⟩⟩
  · obtain ⟨-, rfl, rfl⟩ : (0 : UInt32) = 0 ∧ r' = r ∧ m' = m := by simpa using hx
    exact ⟨.inl hfull, rfl, rfl⟩
  · -- Found in the first scan, so at page 0.
    have hp := UInt32.lt_iff_toNat_lt.mp (MemMap.scan_some hn hscan).1
    obtain rfl := mul_pageSize_eq_zero (hp.trans_le hb.limit_le) hx
    exact absurd (lapses_of_zero hb hn hopen (.inl ⟨m₁, hscan⟩)) hlapse
  · obtain ⟨hpage, hnone⟩ := MemMap.scan_none hn hscan
    rcases hrest with ⟨p, m₂, hscan', hx⟩ | ⟨m₂, hscan', hx⟩
    · have hp := UInt32.lt_iff_toNat_lt.mp (MemMap.scan_some hn hscan').1
      have hle := hb.last_le (lt_of_scan_some hscan')
      obtain rfl := mul_pageSize_eq_zero (hp.trans_le (hle.trans hb.limit_le)) hx
      exact absurd (lapses_of_zero hb hn hopen (.inr ⟨m₁, m₂, hscan, hscan'⟩)) hlapse
    · -- Both scans have found nothing.
      obtain ⟨hpage', hnone'⟩ := MemMap.scan_none hn hscan'
      obtain ⟨-, rfl, rfl⟩ : (0 : UInt32) = 0 ∧ r' = { r with lastPage := r.last } ∧ m' = m₂ := by
        simpa using hx
      refine ⟨.inr fun x ⟨hfirst, hlimit, hbegins⟩ => ?_, hpage'.trans hpage, rfl⟩
      by_cases hlast : r.last.toNat ≤ x
      · exact hnone x hlast hlimit hbegins
      · exact hnone' x hfirst (by omega) ((MemMap.begins_congr hpage x).mpr hbegins)

/-- **A search is complete exactly if it does not lapse.** -/
theorem complete_iff_not_lapses (hb : r.Bounds limit) (hn : 0 < n.toNat) :
    r.Complete n limit m ↔ ¬ r.Lapses n limit m := by
  constructor
  · intro hcomplete hlapse
    obtain ⟨fuel, r', m', halloc, hclear, hmark⟩ := zero_of_lapses hb hlapse
    have hpage := (hcomplete.fails fuel r' m' halloc).2.1
    exact hclear ((MemMap.marked_congr hpage 0).mp hmark)
  · intro hlapse
    refine ⟨fun fuel r' m' halloc => alloc_zero hb hn hlapse halloc, fun hopen x hx => ?_⟩
    obtain ⟨fuel, ⟨addr, r', m'⟩, halloc⟩ := alloc_ends_of_candidate hn hopen hx
    refine ⟨fuel, addr, r', m', halloc, ?_⟩
    rintro rfl
    rcases (alloc_zero hb hn hlapse halloc).1 with hfull | hnone
    · exact hopen hfull
    · exact hnone x hx

end Region
/-! ### The two allocators -/

open Paging

namespace Kind

/-- A page from which `n` free pages start, in the region of an allocator. -/
def Candidate (k : Kind) (n : UInt32) (s : PageState) (x : ℕ) : Prop :=
  (s.region k).Candidate n (s.limit k) s.memMap x

/-- A call that returns 0 has found no candidate and changed no bit and no counter, and a call
with a candidate returns an address. -/
structure Complete (k : Kind) (n : UInt32) (s : PageState) : Prop where
  fails : ∀ fuel s', k.alloc fuel n s = some (0, s') →
    ((s.region k).Full ∨ ∀ x, ¬ k.Candidate n s x) ∧ s'.memMap.page = s.memMap.page ∧
      ∃ cursor, s' = s.put k { s.region k with lastPage := cursor } s'.memMap
  finds : ¬ (s.region k).Full → ∀ x, k.Candidate n s x →
    ∃ fuel addr s', k.alloc fuel n s = some (addr, s') ∧ addr ≠ 0

/-- The cursor of an allocator is unset or inside its region. -/
def CursorInside (k : Kind) (s : PageState) : Prop :=
  (s.region k).lastPage = 0 ∨
    (s.region k).first ≤ (s.region k).lastPage ∧ (s.region k).lastPage ≤ s.limit k

/-- The search of an allocator gets to page 0: it is not given up, all indices but the last one
are free, and `n` pages from where it starts reach the last one. -/
def Lapses (k : Kind) (n : UInt32) (s : PageState) : Prop :=
  (s.region k).Lapses n (s.limit k) s.memMap

end Kind

variable {k : Kind} {n addr : UInt32} {s s' : PageState} {memSize : UInt32} {fuel : ℕ}

theorem bounds_of_layout (hlayout : SameLayout memSize s) (hcursor : k.CursorInside s) :
    (s.region k).Bounds (s.limit k) := by
  have hstart := hlayout.start k
  have hlimit := hlayout.limit k
  have hnr := nrPages_lt memSize
  have hend := endKmem_eq hnr
  refine ⟨?_, ?_, hcursor⟩
  · rw [Region.first, hstart]
    cases k with
    | user =>
        have huser : ((memInit memSize).region .user).start = 16777216 := hend
        rw [huser]
        decide
    | kernel => exact (by decide : 0 < 512).trans_le (reserved_bounds memSize).1
  · rw [hlimit]
    cases k with
    | user => exact hnr.le
    | kernel =>
        have hkernel : (memInit memSize).limit .kernel = 16777216 / pageSize := by
          rw [← hend]
          rfl
        rw [hkernel]
        decide

/-- A call, on the variables of its region. -/
theorem alloc_eq_some_iff :
    k.alloc fuel n s = some (addr, s') ↔
      ∃ r m, (s.region k).alloc fuel n (s.limit k) s.memMap = some (addr, r, m) ∧
        s' = s.put k r m := by
  rw [Kind.alloc_eq, Option.map_eq_some_iff]
  constructor
  · rintro ⟨⟨a, r, m⟩, halloc, h⟩
    obtain ⟨rfl, rfl⟩ : a = addr ∧ s.put k r m = s' := by simpa using h
    exact ⟨r, m, halloc, rfl⟩
  · rintro ⟨r, m, halloc, rfl⟩
    exact ⟨⟨addr, r, m⟩, halloc, rfl⟩

theorem complete_iff_region :
    k.Complete n s ↔ (s.region k).Complete n (s.limit k) s.memMap := by
  constructor
  · intro h
    refine ⟨fun fuel r' m' halloc => ?_, fun hopen x hx => ?_⟩
    · obtain ⟨hnone, hpage, cursor, hput⟩ :=
        h.fails fuel (s.put k r' m') (alloc_eq_some_iff.mpr ⟨r', m', halloc, rfl⟩)
      rw [PageState.memMap_put] at hpage hput
      have hregion := congrArg (fun st => st.region k) hput
      simp only [PageState.region_put, if_true] at hregion
      exact ⟨hnone, hpage, by rw [hregion]⟩
    · obtain ⟨fuel, addr, s', halloc, hne⟩ := h.finds hopen x hx
      obtain ⟨r, m, halloc, -⟩ := alloc_eq_some_iff.mp halloc
      exact ⟨fuel, addr, r, m, halloc, hne⟩
  · intro h
    refine ⟨fun fuel s' halloc => ?_, fun hopen x hx => ?_⟩
    · obtain ⟨r, m, hregion, rfl⟩ := alloc_eq_some_iff.mp halloc
      obtain ⟨hnone, hpage, hr⟩ := h.fails fuel r m hregion
      rw [PageState.memMap_put]
      exact ⟨hnone, hpage, r.lastPage, by rw [← hr]⟩
    · obtain ⟨fuel, addr, r, m, halloc, hne⟩ := h.finds hopen x hx
      exact ⟨fuel, addr, s.put k r m, alloc_eq_some_iff.mpr ⟨r, m, halloc, rfl⟩, hne⟩

/-- A search in a bitmap with page 0 marked, as `mem_init` leaves it, is complete. -/
theorem complete_of_reserved (hlayout : SameLayout memSize s) (hcursor : k.CursorInside s)
    (hn : 1 ≤ n) (h0 : s.memMap.Marked 0) : k.Complete n s := by
  rw [complete_iff_region,
    Region.complete_iff_not_lapses (bounds_of_layout hlayout hcursor)
      (UInt32.le_iff_toNat_le.mp hn)]
  rintro ⟨-, -, honly, -⟩
  exact absurd ((honly 0 (by omega)).mp h0) (by omega)

/-- No run of calls lets a search lapse. -/
theorem Paging.Inv.complete {e : Kind → ℕ} {N : ℕ} {t : Paging} (h : Paging.Inv e N memSize t)
    (hcursor : k.CursorInside t.state) (hn : 1 ≤ n) : k.Complete n t.state := by
  have hreserved := (reserved_bounds memSize).1
  exact complete_of_reserved h.layout hcursor hn ((h.marked 0 (by omega)).mpr (.inl (by omega)))

/-- **The search for pages is complete** exactly if it does not lapse, for every bitmap, every
cursor in the region and every number of pages. -/
theorem alloc_complete_iff (hlayout : SameLayout memSize s) (hcursor : k.CursorInside s)
    (hn : 1 ≤ n) : k.Complete n s ↔ ¬ k.Lapses n s := by
  rw [complete_iff_region]
  exact Region.complete_iff_not_lapses (bounds_of_layout hlayout hcursor)
    (UInt32.le_iff_toNat_le.mp hn)

theorem alloc_complete_user_page :
    SameLayout thirtyTwoMeg (memInit thirtyTwoMeg) ∧
      Kind.user.CursorInside (memInit thirtyTwoMeg) ∧
      Kind.user.Complete 1 (memInit thirtyTwoMeg) := by
  have hlayout : SameLayout thirtyTwoMeg (memInit thirtyTwoMeg) :=
    ⟨fun _ => rfl, fun _ => rfl, fun _ => rfl⟩
  have hcursor : Kind.user.CursorInside (memInit thirtyTwoMeg) := .inl rfl
  refine ⟨hlayout, hcursor, (alloc_complete_iff hlayout hcursor (by decide)).mpr ?_⟩
  rintro ⟨-, -, -, hend⟩
  exact absurd hend (by decide)

/-- A memory of 32 megabytes with the cursor behind the first user page, where only the bit of
the last index is set. -/
def onlyLast : PageState :=
  (memInit thirtyTwoMeg).put .user { (memInit thirtyTwoMeg).user with lastPage := 4097 }
    ((⟨fun _ _ => 0, []⟩ : MemMap).memSetBit 0xFFFFFFFF)

theorem onlyLast_region : onlyLast.region .user =
    { (memInit thirtyTwoMeg).region .user with lastPage := 4097 } := by
  rw [onlyLast, PageState.region_put, if_pos rfl]
  rfl

theorem onlyLast_limit : onlyLast.limit .user = 8192 := by
  rw [onlyLast, PageState.limit_put, limit_user_32mb]

theorem onlyLast_memMap : onlyLast.memMap.OnlyLast := by
  intro x hx
  rw [onlyLast, PageState.memMap_put, MemMap.Marked, MemMap.isSet_memSetBit, Bool.or_eq_true,
    decide_eq_true_eq, MemMap.ofNat_eq_iff hx]
  simp [MemMap.isSet, MemMap.byteOf]

/-- The search misses the run at page 4096: it returns 0 and marks pages from 0 on. -/
theorem page_alloc_lapses :
    SameLayout thirtyTwoMeg onlyLast ∧ Kind.user.CursorInside onlyLast ∧
      Kind.user.Candidate 0xFFFFEFFF onlyLast 4096 ∧
      (∃ fuel s', pageAlloc fuel 0xFFFFEFFF onlyLast = some (0, s') ∧
        ¬ onlyLast.memMap.Marked 0 ∧ s'.memMap.Marked 0) ∧
      ¬ Kind.user.Complete 0xFFFFEFFF onlyLast := by
  have hinit : SameLayout thirtyTwoMeg (memInit thirtyTwoMeg) :=
    ⟨fun _ => rfl, fun _ => rfl, fun _ => rfl⟩
  have hlayout : SameLayout thirtyTwoMeg onlyLast := hinit.put (by rfl) (by rfl) _
  have hfirst : (onlyLast.region .user).first = 4096 := by
    rw [onlyLast_region, ← user_first_32mb]
    rfl
  have hcursor : Kind.user.CursorInside onlyLast := by
    refine .inr ⟨?_, ?_⟩
    · rw [hfirst, onlyLast_region]
      decide
    · rw [onlyLast_limit, onlyLast_region]
      decide
  have hlapse : Kind.user.Lapses 0xFFFFEFFF onlyLast := by
    refine ⟨?_, ?_, onlyLast_memMap, ?_⟩
    · rw [onlyLast_region]
      exact open_32mb .user
    · rw [hfirst, onlyLast_limit]
      decide
    · rw [Region.scanStart, Region.last, onlyLast_limit, onlyLast_region]
      decide
  obtain ⟨fuel, r', m', halloc, hclear, hmark⟩ :=
    Region.zero_of_lapses (bounds_of_layout hlayout hcursor) hlapse
  have hcall : Kind.user.alloc fuel 0xFFFFEFFF onlyLast = some (0, onlyLast.put .user r' m') :=
    alloc_eq_some_iff.mpr ⟨r', m', halloc, rfl⟩
  refine ⟨hlayout, hcursor, ⟨?_, ?_, fun i hi hm => ?_⟩, ⟨fuel, _, hcall, hclear, hmark⟩,
    fun hcomplete => ?_⟩
  · rw [hfirst]
    decide
  · rw [onlyLast_limit]
    decide
  · have hi' : i < 4294963199 := hi
    have hx := (onlyLast_memMap _ (by omega)).mp hm
    omega
  · have hpage := (hcomplete.fails fuel _ hcall).2.1
    exact hclear ((MemMap.marked_congr hpage 0).mp hmark)

end OxKernel.Mm
