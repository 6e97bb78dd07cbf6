import OxKernel.Lib.Reach
import OxKernel.Mm.PageScan
import Mathlib

/-!
# Runs of the page allocators

The system of the page allocators after `mem_init`: its calls are allocations of either
kind and releases of live allocations, and a state carries the list of the live
allocations beside the static variables. A call is guarded by what the bitmap looks like
where the scans go: `Paging.guard` is stated for any end of the two regions and any bound
on the indices, and `Paging.Inv` is what the runs whose calls meet it keep.

## Main definitions

* `Paging.system` — the calls on the static variables and the live allocations.
* `Paging.guard` — the first run of free pages that a scan meets ends in time.
* `Paging.Inv` — the live allocations are disjoint, inside their bounds, marked and counted.
-/
namespace OxKernel.Mm

/-- The two allocators. -/
inductive Kind
  | user
  | kernel
  deriving DecidableEq

/-- A live allocation: the address returned and the number of pages asked for. -/
structure Alloc where
  kind : Kind
  addr : UInt32
  nrPages : UInt32
  deriving DecidableEq

namespace Alloc

/-- The first page of an allocation. -/
def page (a : Alloc) : ℕ := (a.addr / pageSize).toNat

/-- The pages of an allocation. -/
def pages (a : Alloc) : Finset ℕ := Finset.Ico a.page (a.page + a.nrPages.toNat)

/-- The pages of an allocation, if it is of the kind. -/
def pagesOf (k : Kind) (a : Alloc) : ℕ := if a.kind = k then a.nrPages.toNat else 0

end Alloc

/-- The number of pages of the live allocations of a kind. -/
def livePages (k : Kind) (live : List Alloc) : ℕ := (live.map (Alloc.pagesOf k)).sum

namespace Kind

/-- `page_alloc` or `kpage_alloc`. -/
def alloc : Kind → ℕ → UInt32 → PageState → Option (UInt32 × PageState)
  | user => pageAlloc
  | kernel => kpageAlloc

/-- `page_free` or `kpage_free`. -/
def free : Kind → UInt32 → UInt32 → PageState → Option PageState
  | user => pageFree
  | kernel => kpageFree

end Kind

namespace PageState

/-- The variables of an allocator. -/
def region (s : PageState) : Kind → Region
  | .user => s.user
  | .kernel => s.kernel

/-- The bound of the first scan of an allocator. -/
def limit (s : PageState) : Kind → UInt32
  | .user => s.nrPages
  | .kernel => s.nrKpages

/-- Put back the variables of an allocator and the bitmap. -/
def put (s : PageState) (k : Kind) (r : Region) (m : MemMap) : PageState :=
  match k with
  | .user => { s with user := r, memMap := m }
  | .kernel => { s with kernel := r, memMap := m }

variable (s : PageState) (k k' : Kind) (r : Region) (m : MemMap)

@[simp] theorem memMap_put : (s.put k r m).memMap = m := by cases k <;> rfl
@[simp] theorem nrPages_put : (s.put k r m).nrPages = s.nrPages := by cases k <;> rfl
@[simp] theorem nrKpages_put : (s.put k r m).nrKpages = s.nrKpages := by cases k <;> rfl
@[simp] theorem limit_put : (s.put k r m).limit k' = s.limit k' := by cases k <;> cases k' <;> rfl

theorem region_put : (s.put k r m).region k' = if k' = k then r else s.region k' := by
  cases k <;> cases k' <;> rfl

end PageState

namespace Region

/-- The page number that the region starts at. -/
def first (r : Region) : UInt32 := r.start / pageSize

/-- Where the first scan starts. -/
def last (r : Region) : UInt32 := if r.lastPage = 0 then r.first else r.lastPage

/-- The allocator gives up before it scans. -/
def Full (r : Region) : Prop := (r.allocPages * 4096).toUInt32 ≥ r.bytesFree

end Region

theorem Kind.alloc_eq (k : Kind) (fuel : ℕ) (n : UInt32) (s : PageState) :
    k.alloc fuel n s = ((s.region k).alloc fuel n (s.limit k) s.memMap).map
      fun x => (x.1, s.put k x.2.1 x.2.2) := by
  cases k with
  | user =>
      rw [Kind.alloc, pageAlloc, PageState.region, PageState.limit]
      cases Region.alloc fuel n s.nrPages s.user s.memMap <;> rfl
  | kernel =>
      rw [Kind.alloc, kpageAlloc, PageState.region, PageState.limit]
      cases Region.alloc fuel n s.nrKpages s.kernel s.memMap <;> rfl

/-- A release that does not panic. -/
theorem Kind.free_some {k : Kind} {addr n : UInt32} {s s' : PageState}
    (h : k.free addr n s = some s') :
    ∃ r m, (s.region k).free (addr / pageSize) n s.memMap = some (r, m) ∧ s' = s.put k r m := by
  cases k with
  | user =>
      rw [Kind.free, pageFree] at h
      dsimp only at h
      split at h
      · cases h
      · rw [PageState.region]
        cases hf : s.user.free (addr / pageSize) n s.memMap with
        | none => rw [hf] at h; cases h
        | some x =>
            rw [hf] at h
            cases h
            exact ⟨x.1, x.2, rfl, rfl⟩
  | kernel =>
      rw [Kind.free, kpageFree] at h
      dsimp only at h
      split at h
      · cases h
      · rw [PageState.region]
        cases hf : s.kernel.free (addr / pageSize) n s.memMap with
        | none => rw [hf] at h; cases h
        | some x =>
            rw [hf] at h
            cases h
            exact ⟨x.1, x.2, rfl, rfl⟩

/-! ### One allocation -/

/-- The first of the runs of `n` free pages that the two scans meet, if there is any, ends
by page `e`, and they use no index at or past `N`. -/
def Region.Serves (e N : ℕ) (m : MemMap) (n limit : UInt32) (r : Region) : Prop :=
  r.Full ∨
    (m.Served e N n r.last.toNat limit.toNat ∧
      ((∃ q, r.last.toNat ≤ q ∧ q < limit.toNat ∧ m.Fits e N n q) ∨
        m.Served e N n r.first.toNat r.last.toNat))

/-- The page of the first run of `n` free pages that the two scans meet. -/
def Region.Picks (e N : ℕ) (m : MemMap) (n limit : UInt32) (r : Region) (p : ℕ) : Prop :=
  (r.last.toNat ≤ p ∧ p < limit.toNat ∧ ∀ q, r.last.toNat ≤ q → q < p → ¬ m.Fits e N n q) ∨
    (r.first.toNat ≤ p ∧ p < r.last.toNat ∧ ∀ q, r.first.toNat ≤ q → q < p → ¬ m.Fits e N n q)

/-- What an allocation does. -/
inductive Region.Outcome (e N : ℕ) (m : MemMap) (n limit : UInt32) (r : Region) :
    UInt32 → Region → MemMap → Prop
  | found {p : UInt32} {m' : MemMap} (hfit : m.Fits e N n p.toNat)
      (hp : r.Picks e N m n limit p.toNat) (hm : MemMap.Looked N m m') :
      Outcome e N m n limit r (p * pageSize)
        { r with lastPage := p + n + 1, allocPages := r.allocPages + n.toInt32 }
        (m'.setRun p n.toNat 0)
  | none {last : UInt32} {m' : MemMap} (hlast : last = r.lastPage ∨ last = r.last)
      (hfull : r.Full ∨ ∀ p, ¬ (r.Picks e N m n limit p ∧ m.Fits e N n p))
      (hm : MemMap.Looked N m m') : Outcome e N m n limit r 0 { r with lastPage := last } m'

/-- **An allocation whose scans are served ends**, with the first run that fits. -/
theorem Region.alloc_ends {e N fuel : ℕ} {n limit : UInt32} {r : Region} {m : MemMap}
    (hN : N < 2 ^ 32) (hfuel : 2 ^ 32 ≤ fuel) (hserves : r.Serves e N m n limit) :
    ∃ addr r' m', r.alloc fuel n limit m = some (addr, r', m') ∧
      r.Outcome e N m n limit addr r' m' := by
  rw [Region.alloc]
  by_cases hfull : (r.allocPages * 4096).toUInt32 ≥ r.bytesFree
  · rw [if_pos hfull]
    exact ⟨_, _, _, rfl, .none (.inl rfl) (.inl hfull) (.refl m)⟩
  · rw [if_neg hfull]
    obtain ⟨hserved, hrest⟩ := hserves.resolve_left hfull
    have hlim := limit.toNat_lt
    have hlast := r.last.toNat_lt
    dsimp only
    rw [← Region.first, ← Region.last]
    have hfuel₁ : limit.toNat - r.last.toNat < fuel := by omega
    have hfuel₂ : r.last.toNat - r.first.toNat < fuel := by omega
    obtain ⟨page, m₁, hscan, hl, ha⟩ := MemMap.scan_ends hN hserved hfuel₁
    rw [hscan]
    cases page with
    | some p => exact ⟨_, _, _, rfl, .found ha.2.2.1 (.inl ⟨ha.1, ha.2.1, ha.2.2.2⟩) hl⟩
    | none =>
        -- Nothing fits behind the last page: the guard is about the second scan too.
        have hserved' : m₁.Served e N n r.first.toNat r.last.toNat := by
          rw [MemMap.served_congr hl.page]
          rcases hrest with ⟨q, hq, hql, hfit⟩ | hs
          · exact absurd hfit (ha q hq hql)
          · exact hs
        obtain ⟨page', m₂, hscan', hl', ha'⟩ := MemMap.scan_ends hN hserved' hfuel₂
        rw [MemMap.answer_congr hl.page] at ha'
        simp only [Option.bind_eq_bind, Option.bind_some, hscan']
        cases page' with
        | some p =>
            exact ⟨_, _, _, rfl,
              .found ha'.2.2.1 (.inr ⟨ha'.1, ha'.2.1, ha'.2.2.2⟩) (hl.trans hl')⟩
        | none =>
            refine ⟨_, _, _, rfl, .none (.inr rfl) (.inr ?_) (hl.trans hl')⟩
            rintro p ⟨⟨hp, hp', -⟩ | ⟨hp, hp', -⟩, hfit⟩
            · exact ha p hp hp' hfit
            · exact ha' p hp hp' hfit

/-- More rounds do not change what an allocation answers. -/
theorem Region.alloc_mono {fuel fuel' : ℕ} (hle : fuel ≤ fuel') {n limit : UInt32} {r : Region}
    {m : MemMap} {x : UInt32 × Region × MemMap} (h : r.alloc fuel n limit m = some x) :
    r.alloc fuel' n limit m = some x := by
  rw [Region.alloc] at h ⊢
  split
  · rwa [if_pos (by assumption)] at h
  · rw [if_neg (by assumption)] at h
    simp only [Option.bind_eq_bind, Option.bind_eq_some_iff] at h ⊢
    obtain ⟨⟨page, m₁⟩, hscan, hrest⟩ := h
    refine ⟨⟨page, m₁⟩, MemMap.scan_mono hle hscan, ?_⟩
    cases page with
    | some p => exact hrest
    | none =>
        obtain ⟨⟨page', m₂⟩, hscan', hrest⟩ := Option.bind_eq_some_iff.mp hrest
        exact Option.bind_eq_some_iff.mpr ⟨⟨page', m₂⟩, MemMap.scan_mono hle hscan', hrest⟩

/-- What an allocation whose scans are served answers when it ends. -/
theorem Region.alloc_outcome {e N fuel : ℕ} {n limit addr : UInt32} {r r' : Region}
    {m m' : MemMap} (hN : N < 2 ^ 32) (hserves : r.Serves e N m n limit)
    (h : r.alloc fuel n limit m = some (addr, r', m')) : r.Outcome e N m n limit addr r' m' := by
  have hfuel : 2 ^ 32 ≤ fuel + 2 ^ 32 := by omega
  obtain ⟨addr₁, r₁, m₁, hrun, hout⟩ := Region.alloc_ends hN hfuel hserves
  rw [Region.alloc_mono (by omega) h] at hrun
  cases hrun
  exact hout

/-! ### The system -/

/-- A state of a run: the static variables and the live allocations. -/
structure Paging where
  state : PageState
  live : List Alloc

namespace Paging

/-- A call of a run. A release names the live allocation it is of. -/
inductive Call
  | alloc (k : Kind) (n : UInt32)
  | free (a : Alloc)

/-- What a call does. A call that panics or does not return reaches no state. -/
inductive Step : Call → Paging → Paging → Prop
  | alloc {k : Kind} {fuel : ℕ} {n addr : UInt32} {s : Paging} {st : PageState}
      (h : k.alloc fuel n s.state = some (addr, st)) (haddr : addr ≠ 0) :
      Step (.alloc k n) s ⟨st, ⟨k, addr, n⟩ :: s.live⟩
  | full {k : Kind} {fuel : ℕ} {n : UInt32} {s : Paging} {st : PageState}
      (h : k.alloc fuel n s.state = some (0, st)) : Step (.alloc k n) s ⟨st, s.live⟩
  | free {a : Alloc} {s : Paging} {st : PageState} (ha : a ∈ s.live)
      (h : a.kind.free a.addr a.nrPages s.state = some st) :
      Step (.free a) s ⟨st, s.live.erase a⟩

/-- The runs that start from `mem_init` on a memory of the given size. -/
def system (memSize : UInt32) : Lib.System Paging Call where
  init s := s = ⟨memInit memSize, []⟩
  step := Step

/-- A release is always admitted, an allocation if its scans are served. -/
def guard (e : Kind → ℕ) (N : ℕ) (s : Paging) : Call → Prop
  | .alloc k n => (s.state.region k).Serves (e k) N s.state.memMap n (s.state.limit k)
  | .free _ => True

/-- The number of pages reserved at the start: `START_KMEM / PAGE_SIZE`. -/
def reserved (memSize : UInt32) : ℕ := ((memInit memSize).kernel.first).toNat

/-- The static variables that no call changes. -/
structure SameLayout (memSize : UInt32) (s : PageState) : Prop where
  start : ∀ k, (s.region k).start = ((memInit memSize).region k).start
  stop : ∀ k, (s.region k).stop = ((memInit memSize).region k).stop
  limit : ∀ k, s.limit k = (memInit memSize).limit k

/-- **The invariant**, for ends `e` of the two regions and a bound `N` on the indices. -/
structure Inv (e : Kind → ℕ) (N : ℕ) (memSize : UInt32) (s : Paging) : Prop where
  layout : SameLayout memSize s.state
  marked : ∀ x < 2 ^ 32, s.state.memMap.Marked x ↔
    x < reserved memSize ∨ ∃ a ∈ s.live, x ∈ a.pages
  inside : ∀ a ∈ s.live, ((memInit memSize).region a.kind).first.toNat ≤ a.page ∧
    a.page + a.nrPages.toNat ≤ e a.kind ∧ a.page + max a.nrPages.toNat 1 ≤ N
  above : ∀ a ∈ s.live, ∀ x ∈ a.pages, reserved memSize ≤ x
  disjoint : s.live.Pairwise fun (a b : Alloc) => Disjoint a.pages b.pages
  count : ∀ k, (s.state.region k).allocPages.toInt = livePages k s.live
  cursor : ∀ k, (s.state.region k).lastPage = 0 ∨
    ((memInit memSize).region k).first ≤ (s.state.region k).lastPage
  touched : ∀ x ∈ s.state.memMap.touched, x.toNat < N

variable {e : Kind → ℕ} {N : ℕ} {memSize : UInt32} {s : Paging}

/-! ### Counting pages -/

theorem livePages_cons (k : Kind) (a : Alloc) (live : List Alloc) :
    livePages k (a :: live) = a.pagesOf k + livePages k live := by
  rw [livePages, List.map_cons, List.sum_cons, ← livePages]

theorem livePages_erase {k : Kind} {a : Alloc} {live : List Alloc} (ha : a ∈ live) :
    a.pagesOf k + livePages k (live.erase a) = livePages k live :=
  List.sum_map_erase _ ha

/-- The pages of the live allocations. -/
def usedPages (live : List Alloc) : Finset ℕ :=
  live.foldr (fun (a : Alloc) (pages : Finset ℕ) => a.pages ∪ pages) ∅

theorem mem_usedPages {live : List Alloc} {x : ℕ} :
    x ∈ usedPages live ↔ ∃ a ∈ live, x ∈ a.pages := by
  induction live with
  | nil => simp [usedPages]
  | cons a live ih =>
      rw [usedPages, List.foldr_cons, ← usedPages, Finset.mem_union, ih]
      simp

/-- Disjoint allocations below a bound have at most that many pages. -/
theorem livePages_le (k : Kind) {live : List Alloc}
    (hdisj : live.Pairwise fun (a b : Alloc) => Disjoint a.pages b.pages)
    (hlt : ∀ a ∈ live, a.page + a.nrPages.toNat ≤ N) : livePages k live ≤ N := by
  have hcard : livePages k live ≤ (usedPages live).card := by
    clear hlt
    induction live with
    | nil => exact Nat.zero_le _
    | cons a live ih =>
        rw [List.pairwise_cons] at hdisj
        have hsep : Disjoint a.pages (usedPages live) := by
          rw [Finset.disjoint_left]
          intro x hx hx'
          obtain ⟨b, hb, hxb⟩ := mem_usedPages.mp hx'
          exact Finset.disjoint_left.mp (hdisj.1 b hb) hx hxb
        have hpages : a.pages.card = a.nrPages.toNat := by
          rw [Alloc.pages, Nat.card_Ico]
          omega
        have hof : a.pagesOf k ≤ a.nrPages.toNat := by
          rw [Alloc.pagesOf]
          split <;> omega
        have hrest := ih hdisj.2
        rw [livePages_cons, usedPages, List.foldr_cons, ← usedPages,
          Finset.card_union_of_disjoint hsep, hpages]
        omega
  have hsub : usedPages live ⊆ Finset.range N := by
    intro x hx
    obtain ⟨a, ha, hxa⟩ := mem_usedPages.mp hx
    have := hlt a ha
    rw [Alloc.pages, Finset.mem_Ico] at hxa
    rw [Finset.mem_range]
    omega
  have := Finset.card_le_card hsub
  rw [Finset.card_range] at this
  omega

theorem toInt_toInt32 {n : UInt32} (hn : n.toNat < 2 ^ 31) : n.toInt32.toInt = n.toNat := by
  simp [Int32.toInt, BitVec.toInt]
  omega

theorem toInt_add_toInt32 {c : Int32} {n : UInt32} {x : ℕ} (hc : c.toInt = x)
    (hx : x + n.toNat < 2 ^ 31) : (c + n.toInt32).toInt = x + n.toNat := by
  rw [Int32.toInt_add, hc, toInt_toInt32 (by omega), Int.bmod_def]
  omega

theorem toInt_sub_toInt32 {c : Int32} {n : UInt32} {x : ℕ} (hc : c.toInt = (x + n.toNat : ℕ))
    (hx : x + n.toNat < 2 ^ 31) : (c - n.toInt32).toInt = x := by
  rw [Int32.toInt_sub, hc, toInt_toInt32 (by omega), Int.bmod_def]
  omega

/-! ### After `mem_init` -/

theorem pageAlign_spec {x : UInt32} (hx : x.toNat + 4096 < 2 ^ 32) :
    x.toNat ≤ (pageAlign x).toNat ∧ (pageAlign x).toNat < x.toNat + 4096 := by
  rw [pageAlign]
  by_cases h : x % pageSize ≠ 0
  · rw [if_pos h]
    rw [Ne, ← UInt32.toNat_inj] at h
    simp only [pageSize, UInt32.toNat_mod, UInt32.toNat_mul, UInt32.toNat_add, UInt32.toNat_div,
      UInt32.reduceToNat] at *
    omega
  · rw [if_neg h]
    omega

theorem nrPages_lt (memSize : UInt32) : (memSize / pageSize).toNat < 2 ^ 20 := by
  have := memSize.toNat_lt
  simp only [pageSize, UInt32.toNat_div, UInt32.reduceToNat]
  omega

/-- Where the dynamic memory of the kernel starts, roughly. -/
theorem startKmem_bounds {nr : UInt32} (hnr : nr.toNat < 2 ^ 20) :
    2 ^ 21 ≤ (startKmem nr).toNat ∧ (startKmem nr).toNat < 2 ^ 24 := by
  have htables : (nr / pageTableSize * pageSize).toNat = nr.toNat / 1024 * 4096 := by
    simp only [pageTableSize, pageSize, UInt32.toNat_mul, UInt32.toNat_div, UInt32.reduceToNat]
    omega
  have hmaps : (nrMemMap nr * pageSize).toNat ≤ 33 * 4096 := by
    rw [nrMemMap]
    split
    · simp only [bitsPerByte, pageSize, UInt32.toNat_mul, UInt32.toNat_add, UInt32.toNat_div,
        UInt32.reduceToNat]
      omega
    · simp only [bitsPerByte, pageSize, UInt32.toNat_mul, UInt32.toNat_add, UInt32.toNat_div,
        UInt32.reduceToNat]
      omega
  have hend : (kernelEnd + (nr * 4 + pageSize)).toNat = 2 ^ 21 + (nr.toNat * 4 + 4096) := by
    simp only [kernelEnd, oneMeg, pageSize, UInt32.toNat_mul, UInt32.toNat_add,
      UInt32.reduceToNat]
    omega
  obtain ⟨hlo, hhi⟩ := pageAlign_spec (x := kernelEnd + (nr * 4 + pageSize)) (by omega)
  rw [← realKernelEnd, hend] at hlo hhi
  have hsum : (nr / pageTableSize * pageSize + realKernelEnd nr + nrMemMap nr * pageSize).toNat =
      (nr / pageTableSize * pageSize).toNat + (realKernelEnd nr).toNat
        + (nrMemMap nr * pageSize).toNat := by
    rw [Lib.toNat_add_of_lt, Lib.toNat_add_of_lt]
    · omega
    · rw [Lib.toNat_add_of_lt] <;> omega
  obtain ⟨hlo', hhi'⟩ := pageAlign_spec
    (x := nr / pageTableSize * pageSize + realKernelEnd nr + nrMemMap nr * pageSize) (by omega)
  rw [← startKmem] at hlo' hhi'
  omega

theorem endKmem_eq {nr : UInt32} (hnr : nr.toNat < 2 ^ 20) : endKmem nr = 16777216 := by
  have := (startKmem_bounds hnr).2
  rw [endKmem, raiseEnd, if_neg]
  · rfl
  · rw [UInt32.le_iff_toNat_le]
    simp only [oneFullPageTableBytes, UInt32.toNat_mul, UInt32.reduceToNat]
    omega

theorem region_memInit_first (memSize : UInt32) :
    reserved memSize = (startKmem (memSize / pageSize) / pageSize).toNat := rfl

theorem reserved_bounds (memSize : UInt32) :
    512 ≤ reserved memSize ∧ reserved memSize < 4096 := by
  have := startKmem_bounds (nrPages_lt memSize)
  rw [region_memInit_first, UInt32.toNat_div]
  simp only [pageSize, UInt32.reduceToNat] at *
  omega

/-- The pages below the dynamic memory of the kernel are marked, and no others. -/
theorem marked_memInit (memSize : UInt32) {x : ℕ} (hx : x < 2 ^ 32) :
    (memInit memSize).memMap.Marked x ↔ x < reserved memSize := by
  have h := (reserved_bounds memSize).2
  rw [memInit]
  dsimp only
  rw [← region_memInit_first, MemMap.marked_setRun hx (by rw [UInt32.toNat_zero]; omega)
    (by rw [UInt32.toNat_zero]; omega), UInt32.toNat_zero]
  have hzero : ¬ (⟨fun _ _ => 0, []⟩ : MemMap).Marked x := by
    rw [MemMap.Marked, MemMap.isSet, MemMap.byteOf]
    simp
  constructor
  · rintro (h' | h')
    · omega
    · exact absurd h' hzero
  · intro h'
    exact .inl (by omega)

theorem inv_init (hN : reserved memSize ≤ N) : Inv e N memSize ⟨memInit memSize, []⟩ where
  layout := ⟨fun _ => rfl, fun _ => rfl, fun _ => rfl⟩
  marked := by
    intro x hx
    rw [marked_memInit memSize hx]
    simp
  inside := by simp
  above := by simp
  disjoint := .nil
  count := fun k => by cases k <;> rfl
  cursor := fun k => by cases k <;> exact .inl rfl
  touched := by
    intro x hx
    have h := (reserved_bounds memSize).2
    rw [memInit] at hx
    dsimp only at hx
    rw [← region_memInit_first] at hx
    rcases MemMap.touched_setRun (N := reserved memSize) (by omega)
      (by rw [UInt32.toNat_zero]; omega) (by rw [UInt32.toNat_zero]; omega) x hx with hx | hx
    · cases hx
    · omega

/-! ### The calls keep the invariant -/

theorem SameLayout.put {s : PageState} (h : SameLayout memSize s) {k : Kind} {r : Region}
    (hstart : r.start = (s.region k).start) (hstop : r.stop = (s.region k).stop) (m : MemMap) :
    SameLayout memSize (s.put k r m) where
  start := by
    intro k'
    rw [PageState.region_put]
    split
    · rename_i hk
      rw [hstart, hk]
      exact h.start k
    · exact h.start k'
  stop := by
    intro k'
    rw [PageState.region_put]
    split
    · rename_i hk
      rw [hstop, hk]
      exact h.stop k
    · exact h.stop k'
  limit := by
    intro k'
    rw [PageState.limit_put]
    exact h.limit k'

theorem Inv.first_eq (h : Inv e N memSize s) (k : Kind) :
    (s.state.region k).first = ((memInit memSize).region k).first := by
  rw [Region.first, h.layout.start k, ← Region.first]

theorem Inv.first_le_last (h : Inv e N memSize s) (k : Kind) :
    ((memInit memSize).region k).first ≤ (s.state.region k).last := by
  rw [Region.last]
  split
  · rw [h.first_eq]
    exact UInt32.le_refl _
  · exact (h.cursor k).resolve_left (by assumption)

/-- An allocation that returns no pages. -/
theorem Inv.looked {k : Kind} {last : UInt32} {m : MemMap} (h : Inv e N memSize s)
    (hlast : last = (s.state.region k).lastPage ∨ last = (s.state.region k).last)
    (hm : MemMap.Looked N s.state.memMap m) :
    Inv e N memSize
      ⟨s.state.put k { s.state.region k with lastPage := last } m, s.live⟩ where
  layout := h.layout.put (by rfl) (by rfl) m
  marked := by
    intro x hx
    rw [PageState.memMap_put, MemMap.marked_congr hm.page]
    exact h.marked x hx
  inside := h.inside
  above := h.above
  disjoint := h.disjoint
  count := by
    intro k'
    rw [PageState.region_put]
    split
    · rename_i hk
      rw [hk]
      exact h.count k
    · exact h.count k'
  cursor := by
    intro k'
    rw [PageState.region_put]
    split
    · rename_i hk
      rw [hk]
      rcases hlast with rfl | rfl
      · exact h.cursor k
      · exact .inr (h.first_le_last k)
    · exact h.cursor k'
  touched := by
    intro x hx
    rw [PageState.memMap_put] at hx
    rcases hm.touched x hx with hx | hx
    · exact h.touched x hx
    · exact hx

theorem page_mul {k : Kind} {p n : UInt32} (hp : p.toNat < 2 ^ 20) :
    (⟨k, p * pageSize, n⟩ : Alloc).page = p.toNat := by
  simp only [Alloc.page, pageSize, UInt32.toNat_div, UInt32.toNat_mul, UInt32.reduceToNat]
  omega

theorem mem_pages {a : Alloc} {x : ℕ} :
    x ∈ a.pages ↔ a.page ≤ x ∧ x < a.page + a.nrPages.toNat := by
  rw [Alloc.pages, Finset.mem_Ico]

/-- The pages of a live allocation are marked. -/
theorem Inv.marked_of_mem (h : Inv e N memSize s) (hN : N ≤ 2 ^ 20) {a : Alloc} (ha : a ∈ s.live)
    {x : ℕ} (hx : x ∈ a.pages) : s.state.memMap.Marked x := by
  have := (h.inside a ha).2.2
  have hx' := mem_pages.mp hx
  exact (h.marked x (by omega)).mpr (.inr ⟨a, ha, hx⟩)

/-- An allocation of free pages. -/
theorem Inv.found {a : Alloc} {p : UInt32} {m : MemMap} (h : Inv e N memSize s) (hN : N ≤ 2 ^ 20)
    (hpage : a.page = p.toNat) (hfit : s.state.memMap.Fits (e a.kind) N a.nrPages p.toNat)
    (hp : (s.state.region a.kind).last.toNat ≤ p.toNat ∨
      (s.state.region a.kind).first.toNat ≤ p.toNat)
    (hm : MemMap.Looked N s.state.memMap m) :
    Inv e N memSize
      ⟨s.state.put a.kind { s.state.region a.kind with
          lastPage := p + a.nrPages + 1
          allocPages := (s.state.region a.kind).allocPages + a.nrPages.toInt32 }
        (m.setRun p a.nrPages.toNat 0), a :: s.live⟩ := by
  have hbound := hfit.bound
  have hfirst : ((memInit memSize).region a.kind).first.toNat ≤ p.toNat := by
    rcases hp with hp | hp
    · exact (UInt32.le_iff_toNat_le.mp (h.first_le_last a.kind)).trans hp
    · rwa [h.first_eq] at hp
  have hnew : ∀ x ∈ a.pages, ¬ s.state.memMap.Marked x := by
    intro x hx
    rw [mem_pages, hpage] at hx
    exact hfit.free x hx.1 (by omega)
  have hinside : ∀ b ∈ a :: s.live, ((memInit memSize).region b.kind).first.toNat ≤ b.page ∧
      b.page + b.nrPages.toNat ≤ e b.kind ∧ b.page + max b.nrPages.toNat 1 ≤ N := by
    intro b hb
    rcases List.mem_cons.mp hb with rfl | hb
    · rw [hpage]
      exact ⟨hfirst, hfit.inside, hbound⟩
    · exact h.inside b hb
  have hdisj : (a :: s.live).Pairwise fun (a b : Alloc) => Disjoint a.pages b.pages := by
    rw [List.pairwise_cons]
    refine ⟨fun b hb => ?_, h.disjoint⟩
    rw [Finset.disjoint_left]
    intro x hx hxb
    exact hnew x hx (h.marked_of_mem hN hb hxb)
  constructor
  case layout => exact h.layout.put (by rfl) (by rfl) _
  case marked =>
    intro x hx
    rw [PageState.memMap_put, MemMap.marked_setRun hx (by rw [UInt32.toNat_zero]; omega)
      (by rw [UInt32.toNat_zero]; omega), MemMap.marked_congr hm.page, h.marked x hx,
      UInt32.toNat_zero, ← hpage, Nat.add_zero, ← mem_pages]
    simp only [List.mem_cons, exists_eq_or_imp]
    tauto
  case inside => exact hinside
  case above =>
    intro b hb x hx
    rcases List.mem_cons.mp hb with rfl | hb
    · by_contra hlt
      have hx' := mem_pages.mp hx
      exact hnew x hx ((h.marked x (by omega)).mpr (.inl (by omega)))
    · exact h.above b hb x hx
  case disjoint => exact hdisj
  case count =>
    intro k
    have hle := livePages_le (N := N) k hdisj fun b hb => by
      have := (hinside b hb).2.2
      omega
    rw [livePages_cons, Alloc.pagesOf] at hle ⊢
    rw [PageState.region_put]
    by_cases hk : a.kind = k
    · rw [if_pos hk] at hle
      rw [if_pos hk, if_pos hk.symm, ← hk]
      rw [← hk] at hle
      rw [toInt_add_toInt32 (h.count a.kind) (by omega)]
      push_cast
      omega
    · rw [if_neg hk, if_neg (Ne.symm hk), Nat.zero_add]
      exact h.count k
  case cursor =>
    intro k
    rw [PageState.region_put]
    split
    · rename_i hk
      rw [hk]
      refine .inr ?_
      rw [UInt32.le_iff_toNat_le, Lib.toNat_succ, Lib.toNat_add_of_lt]
      · omega
      · omega
      · rw [Lib.toNat_add_of_lt] <;> omega
    · exact h.cursor k
  case touched =>
    intro x hx
    rw [PageState.memMap_put] at hx
    rcases MemMap.touched_setRun (N := N) (by omega) (by rw [UInt32.toNat_zero]; omega)
      (by rw [UInt32.toNat_zero]; omega) x hx with hx | hx
    · rcases hm.touched x hx with hx | hx
      · exact h.touched x hx
      · exact hx
    · exact hx

/-- A release. -/
theorem Inv.free {a : Alloc} {r : Region} {m : MemMap} (h : Inv e N memSize s) (hN : N ≤ 2 ^ 20)
    (ha : a ∈ s.live)
    (hf : (s.state.region a.kind).free (a.addr / pageSize) a.nrPages s.state.memMap = some (r, m)) :
    Inv e N memSize ⟨s.state.put a.kind r m, s.live.erase a⟩ := by
  rw [Region.free] at hf
  dsimp only at hf
  split at hf
  · cases hf
  · cases hf
    have hperm := List.perm_cons_erase ha
    have hdisj := (hperm.pairwise_iff (R := fun (a b : Alloc) => Disjoint a.pages b.pages)
      (fun h => h.symm)).mp h.disjoint
    have hin := h.inside a ha
    have hle : ∀ k, livePages k s.live ≤ N := fun k =>
      livePages_le k h.disjoint fun b hb => by
        have := (h.inside b hb).2.2
        omega
    have hsub : ∀ b ∈ s.live.erase a, b ∈ s.live := fun b hb => List.mem_of_mem_erase hb
    have hn := a.nrPages.toNat_lt
    have hpage : (a.addr / pageSize).toNat = a.page := rfl
    constructor
    case layout => exact h.layout.put (by rfl) (by rfl) _
    case marked =>
      intro x hx
      rw [PageState.memMap_put, MemMap.marked_clearRun hx
        (by rw [UInt32.toNat_zero, hpage]; omega) (by rw [UInt32.toNat_zero]; omega),
        h.marked x hx, UInt32.toNat_zero, hpage, Nat.add_zero, ← mem_pages]
      constructor
      · rintro ⟨hxa, hx | ⟨b, hb, hxb⟩⟩
        · exact .inl hx
        · refine .inr ⟨b, ?_, hxb⟩
          rcases List.mem_cons.mp (hperm.mem_iff.mp hb) with rfl | hb
          · exact absurd hxb hxa
          · exact hb
      · rintro (hx | ⟨b, hb, hxb⟩)
        · refine ⟨fun hxa => ?_, .inl hx⟩
          have := h.above a ha x hxa
          omega
        · refine ⟨fun hxa => ?_, .inr ⟨b, hsub b hb, hxb⟩⟩
          exact Finset.disjoint_left.mp ((List.pairwise_cons.mp hdisj).1 b hb) hxa hxb
    case inside => exact fun b hb => h.inside b (hsub b hb)
    case above => exact fun b hb => h.above b (hsub b hb)
    case disjoint => exact (List.pairwise_cons.mp hdisj).2
    case count =>
      intro k
      have herase := livePages_erase (k := k) ha
      have hk := hle k
      rw [PageState.region_put]
      rw [Alloc.pagesOf] at herase
      split
      · rename_i heq
        rw [heq, if_pos rfl] at herase
        rw [heq] at hk ⊢
        have hcount := h.count a.kind
        rw [← herase, Nat.add_comm] at hcount
        exact toInt_sub_toInt32 (x := livePages a.kind (s.live.erase a)) hcount (by omega)
      · rename_i heq
        rw [if_neg (Ne.symm heq), Nat.zero_add] at herase
        rw [herase]
        exact h.count k
    case cursor =>
      intro k
      rw [PageState.region_put]
      split
      · rename_i heq
        rw [heq]
        exact .inr (UInt32.le_iff_toNat_le.mpr hin.1)
      · exact h.cursor k
    case touched =>
      intro x hx
      rw [PageState.memMap_put] at hx
      rcases MemMap.touched_clearRun (N := N) (by omega) (by rw [UInt32.toNat_zero, hpage]; omega)
        (by rw [UInt32.toNat_zero]; omega) x hx with hx | hx
      · exact h.touched x hx
      · exact hx

/-- Every admitted call keeps the invariant. -/
theorem Inv.step (hN : N ≤ 2 ^ 20) (s : Paging) (c : Call) (s' : Paging) (h : Inv e N memSize s)
    (hg : guard e N s c) (hstep : Step c s s') : Inv e N memSize s' := by
  have halloc : ∀ {k : Kind} {fuel : ℕ} {n addr : UInt32} {st : PageState},
      k.alloc fuel n s.state = some (addr, st) → guard e N s (.alloc k n) →
      ∃ r m, st = s.state.put k r m ∧
        (s.state.region k).Outcome (e k) N s.state.memMap n (s.state.limit k) addr r m := by
    intro k fuel n addr st hrun hserves
    rw [Kind.alloc_eq, Option.map_eq_some_iff] at hrun
    obtain ⟨⟨addr', r, m⟩, hrun, heq⟩ := hrun
    cases heq
    exact ⟨r, m, rfl, Region.alloc_outcome (by omega) hserves hrun⟩
  cases hstep with
  | alloc hrun haddr =>
      obtain ⟨r, m, rfl, hout⟩ := halloc hrun hg
      cases hout with
      | @found p _ hfit hp hm =>
          have := hfit.bound
          exact h.found (a := ⟨_, p * pageSize, _⟩) hN (page_mul (by omega)) hfit
            (hp.imp And.left And.left) hm
      | none => exact absurd rfl haddr
  | full hrun =>
      obtain ⟨r, m, rfl, hout⟩ := halloc hrun hg
      generalize haddr : (0 : UInt32) = addr at hout
      cases hout with
      | @found p _ hfit hp hm =>
          -- Page 0 is reserved.
          have hbound := hfit.bound
          have hp0 : p.toNat = 0 := by
            rw [← UInt32.toNat_inj] at haddr
            simp only [pageSize, UInt32.toNat_mul, UInt32.reduceToNat] at haddr
            omega
          refine absurd ?_ (hfit.free p.toNat (le_refl _) (by omega))
          rw [h.marked _ p.toNat_lt, hp0]
          exact .inl (by have := (reserved_bounds memSize).1; omega)
      | none hlast _ hm => exact h.looked hlast hm
  | free ha hrun =>
      obtain ⟨r, m, hf, rfl⟩ := Kind.free_some hrun
      exact h.free hN ha hf

end Paging
end OxKernel.Mm
