import OxKernel.Mm.PageRuns

/-!
# What the page allocators promise

Neither scan looks at the end of its region once it has found a first page, and the cursor
it leaves bounds the second scan of the next call. So both promises of the allocators hold
for the runs that `Paging.guard` admits, with the end of the address space for the one and
the ends of the regions for the other, and fail without it.

## Main definitions

* `Paging.Exclusive` — no page is in two live allocations, and the bitmap and the counters
  say so.
* `Paging.InRegion` — live allocations and bitmap indices stay in their ranges.
-/
namespace OxKernel.Mm
namespace Paging

variable {e : Kind → ℕ} {N : ℕ} {memSize : UInt32} {s : Paging}

/-- No page is in two live allocations or below `START_KMEM`, the pages marked are those
reserved or live, and the counters count the live pages. -/
structure Exclusive (memSize : UInt32) (s : Paging) : Prop where
  disjoint : s.live.Pairwise fun (a b : Alloc) => Disjoint a.pages b.pages
  above : ∀ a ∈ s.live, ∀ x ∈ a.pages, reserved memSize ≤ x
  marked : ∀ x < 2 ^ 32, s.state.memMap.Marked x ↔
    x < reserved memSize ∨ ∃ a ∈ s.live, x ∈ a.pages
  allocPages : s.state.user.allocPages.toInt = livePages .user s.live
  kallocPages : s.state.kernel.allocPages.toInt = livePages .kernel s.live

/-- The number of pages of the 32-bit address space. -/
def addressPages : ℕ := 2 ^ 20

/-- **No page is handed out twice**, in a run whose allocations end in the address space. -/
theorem pages_exclusive (memSize : UInt32) (s : Paging)
    (h : (system memSize).Reach (guard (fun _ => addressPages) addressPages) s) :
    Exclusive memSize s := by
  have hinv : Inv (fun _ => addressPages) addressPages memSize s := by
    apply h.invariant
    · rintro s rfl
      apply inv_init
      have := (reserved_bounds memSize).2
      rw [addressPages]
      omega
    · exact Inv.step (le_refl _)
  exact ⟨hinv.disjoint, hinv.above, hinv.marked, hinv.count .user, hinv.count .kernel⟩

/-- Live allocations are inside their region, and no index past the memory was used. -/
structure InRegion (s : Paging) : Prop where
  inside : ∀ a ∈ s.live, ∀ x ∈ a.pages, ((s.state.region a.kind).start / pageSize).toNat ≤ x ∧
    x < ((s.state.region a.kind).stop / pageSize).toNat
  touched : ∀ x ∈ s.state.memMap.touched, x < s.state.nrPages

theorem limit_memInit (memSize : UInt32) (k : Kind) :
    (memInit memSize).limit k = ((memInit memSize).region k).stop / pageSize := by
  cases k <;> rfl

/-- **Allocations stay inside their region**, in a run whose scans meet the end of the region
only behind a run that fits or as a marked page, on a memory with room for what `mem_init`
reserves. -/
theorem pages_inRegion (memSize : UInt32)
    (hsize : reserved memSize ≤ (memInit memSize).nrPages.toNat) (s : Paging)
    (h : (system memSize).Reach (guard (fun k => ((memInit memSize).limit k).toNat)
      (memInit memSize).nrPages.toNat) s) : InRegion s := by
  have hN : (memInit memSize).nrPages.toNat ≤ 2 ^ 20 := (nrPages_lt memSize).le
  have hinv : Inv (fun k => ((memInit memSize).limit k).toNat) (memInit memSize).nrPages.toNat
      memSize s := by
    apply h.invariant
    · rintro s rfl
      exact inv_init hsize
    · exact Inv.step hN
  constructor
  · intro a ha x hx
    obtain ⟨hlo, hhi, -⟩ := hinv.inside a ha
    rw [mem_pages] at hx
    rw [hinv.layout.start, hinv.layout.stop, ← limit_memInit, ← Region.first]
    omega
  · intro x hx
    have hnr : s.state.nrPages = (memInit memSize).nrPages := hinv.layout.limit .user
    rw [UInt32.lt_iff_toNat_lt, hnr]
    exact hinv.touched x hx

/-! ### The first allocation of a region -/

/-- Where the first page of a region starts a run that fits, the run is served. -/
theorem serves_first {r : Region} {m : MemMap} {n limit : UInt32} {e N : ℕ}
    (hlast : r.last = r.first) (hlt : r.first < limit) (hfit : m.Fits e N n r.first.toNat) :
    r.Serves e N m n limit := by
  refine .inr ⟨fun p hp _ => .inr ⟨_, ?_, ?_, hfit⟩, .inl ⟨_, ?_, ?_, hfit⟩⟩
  · rw [hlast]
  · rwa [hlast] at hp
  · rw [hlast]
  · exact UInt32.lt_iff_toNat_lt.mp hlt

theorem last_memInit (memSize : UInt32) (k : Kind) :
    ((memInit memSize).region k).last = ((memInit memSize).region k).first := by
  cases k <;> rfl

/-- After `mem_init` every run that ends inside the bounds is served. -/
theorem serves_memInit {k : Kind} {n : UInt32} {e N : ℕ} (hN : N < 2 ^ 32)
    (hlo : reserved memSize ≤ ((memInit memSize).region k).first.toNat)
    (he : ((memInit memSize).region k).first.toNat + n.toNat ≤ e)
    (hbound : ((memInit memSize).region k).first.toNat + max n.toNat 1 ≤ N)
    (hlt : ((memInit memSize).region k).first < (memInit memSize).limit k) :
    (memInit memSize).memMap.Fits e N n ((memInit memSize).region k).first.toNat ∧
    ((memInit memSize).region k).Serves e N (memInit memSize).memMap n
      ((memInit memSize).limit k) := by
  have hfit : (memInit memSize).memMap.Fits e N n ((memInit memSize).region k).first.toNat := by
    refine ⟨he, hbound, fun x hx hx' => ?_⟩
    rw [marked_memInit memSize (by omega)]
    omega
  exact ⟨hfit, serves_first (last_memInit memSize k) hlt hfit⟩

/-- The variables of a region after an allocation. -/
def allocated (r : Region) (p n : UInt32) : Region :=
  { r with lastPage := p + n + 1, allocPages := r.allocPages + n.toInt32 }

/-- An allocation is the start of its region, where the scan begins there and the run fits. -/
theorem alloc_first {st : PageState} {k : Kind} {n : UInt32}
    (hlast : (st.region k).last = (st.region k).first)
    (hfit : st.memMap.Fits (2 ^ 32) (2 ^ 32 - 1) n (st.region k).first.toNat)
    (hlt : (st.region k).first < st.limit k) (hopen : ¬ (st.region k).Full) :
    ∃ fuel m, MemMap.Looked (2 ^ 32 - 1) st.memMap m ∧
      k.alloc fuel n st = some ((st.region k).first * pageSize,
        st.put k (allocated (st.region k) (st.region k).first n)
          (m.setRun (st.region k).first n.toNat 0)) := by
  obtain ⟨addr, r, m, hrun, hout⟩ :=
    Region.alloc_ends (by omega) (le_refl (2 ^ 32)) (serves_first hlast hlt hfit)
  cases hout with
  | @found p m' hfit' hp hm =>
      have heq : p = (st.region k).first := by
        rw [← UInt32.toNat_inj]
        rw [Region.Picks, hlast] at hp
        rcases hp with ⟨hle, -, hnone⟩ | ⟨hle, hlt', -⟩
        · by_contra hne
          exact hnone _ (le_refl _) (by omega) hfit
        · omega
      refine ⟨2 ^ 32, m', hm, ?_⟩
      rw [Kind.alloc_eq, hrun, heq]
      rfl
  | none _ hnone _ =>
      rcases hnone with hfull | hnone
      · exact absurd hfull hopen
      · refine absurd ⟨.inl ⟨?_, UInt32.lt_iff_toNat_lt.mp hlt, fun q hq hq' => ?_⟩, hfit⟩ (hnone _)
        · rw [hlast]
        · rw [hlast] at hq
          omega

/-- The first allocation after `mem_init` is the start of its region. -/
theorem first_alloc {k : Kind} {n : UInt32}
    (hlo : reserved memSize ≤ ((memInit memSize).region k).first.toNat)
    (hbound : ((memInit memSize).region k).first.toNat + max n.toNat 1 < 2 ^ 32)
    (hlt : ((memInit memSize).region k).first < (memInit memSize).limit k)
    (hopen : ¬ ((memInit memSize).region k).Full) :
    ∃ fuel m, MemMap.Looked (2 ^ 32 - 1) (memInit memSize).memMap m ∧
      k.alloc fuel n (memInit memSize) = some (((memInit memSize).region k).first * pageSize,
        (memInit memSize).put k
          (allocated ((memInit memSize).region k) ((memInit memSize).region k).first n)
          (m.setRun ((memInit memSize).region k).first n.toNat 0)) :=
  alloc_first (last_memInit memSize k)
    (serves_memInit (by omega) hlo (by omega) (by omega) hlt).1 hlt hopen

/-- A memory of 32 megabytes. -/
def thirtyTwoMeg : UInt32 := 33554432

theorem kernel_first_32mb : ((memInit thirtyTwoMeg).region .kernel).first = 530 := by decide
theorem user_first_32mb : ((memInit thirtyTwoMeg).region .user).first = 4096 := by decide
theorem limit_kernel_32mb : (memInit thirtyTwoMeg).limit .kernel = 4096 := by decide
theorem limit_user_32mb : (memInit thirtyTwoMeg).limit .user = 8192 := by decide
theorem reserved_32mb : reserved thirtyTwoMeg = 530 := by decide

theorem open_32mb (k : Kind) : ¬ ((memInit thirtyTwoMeg).region k).Full := by
  rw [Region.Full]
  cases k <;> decide

/-- A first `kpage_alloc` on the sample memory. -/
theorem kpage_alloc_32mb {n : UInt32} (hn : n.toNat < 2 ^ 31) :
    ∃ fuel m, MemMap.Looked (2 ^ 32 - 1) (memInit thirtyTwoMeg).memMap m ∧
      Kind.kernel.alloc fuel n (memInit thirtyTwoMeg) = some (530 * pageSize,
        (memInit thirtyTwoMeg).put .kernel
          (allocated ((memInit thirtyTwoMeg).region .kernel) 530 n) (m.setRun 530 n.toNat 0)) := by
  have h := @first_alloc thirtyTwoMeg .kernel n
  rw [kernel_first_32mb, limit_kernel_32mb, reserved_32mb] at h
  exact h (by decide) (by simp; omega) (by decide) (open_32mb .kernel)

/-- A first `page_alloc` on the sample memory. -/
theorem page_alloc_32mb {n : UInt32} (hn : n.toNat < 2 ^ 31) :
    ∃ fuel m, MemMap.Looked (2 ^ 32 - 1) (memInit thirtyTwoMeg).memMap m ∧
      Kind.user.alloc fuel n (memInit thirtyTwoMeg) = some (4096 * pageSize,
        (memInit thirtyTwoMeg).put .user
          (allocated ((memInit thirtyTwoMeg).region .user) 4096 n) (m.setRun 4096 n.toNat 0)) := by
  have h := @first_alloc thirtyTwoMeg .user n
  rw [user_first_32mb, limit_user_32mb, reserved_32mb] at h
  exact h (by decide) (by simp; omega) (by decide) (open_32mb .user)

/-- A first `page_alloc` on the sample memory after a `kpage_alloc`. -/
theorem page_alloc_after {r : Region} {m : MemMap} (hmark : ∀ x < 2 ^ 32, m.Marked x ↔ x < 531) :
    (∃ fuel m', Kind.user.alloc fuel 1 ((memInit thirtyTwoMeg).put .kernel r m) =
      some (4096 * pageSize, ((memInit thirtyTwoMeg).put .kernel r m).put .user
        (allocated ((memInit thirtyTwoMeg).region .user) 4096 1) m')) ∧
    ∀ e N, 4097 ≤ e → 4097 ≤ N → N < 2 ^ 32 →
      (((memInit thirtyTwoMeg).put .kernel r m).region .user).Serves e N m 1
        (((memInit thirtyTwoMeg).put .kernel r m).limit .user) := by
  have hregion : ((memInit thirtyTwoMeg).put .kernel r m).region .user =
      (memInit thirtyTwoMeg).region .user := PageState.region_put _ _ _ _ _
  have hfits : ∀ e N, 4097 ≤ e → 4097 ≤ N → N < 2 ^ 32 →
      m.Fits e N 1 ((memInit thirtyTwoMeg).region .user).first.toNat := by
    intro e N he hN hN'
    have h4096 : (4096 : UInt32).toNat = 4096 := rfl
    have h1 : (1 : UInt32).toNat = 1 := rfl
    rw [user_first_32mb]
    refine ⟨by omega, by omega, fun x hx hx' => ?_⟩
    rw [hmark x (by omega)]
    omega
  have hlt : ((memInit thirtyTwoMeg).region .user).first < (memInit thirtyTwoMeg).limit .user := by
    decide
  have hlast := last_memInit thirtyTwoMeg .user
  constructor
  · have halloc := @alloc_first ((memInit thirtyTwoMeg).put .kernel r m) .user 1
    rw [hregion, PageState.limit_put, PageState.memMap_put] at halloc
    obtain ⟨fuel, m', -, hrun⟩ :=
      halloc hlast (hfits _ _ (by omega) (by omega) (by omega)) hlt (open_32mb .user)
    rw [user_first_32mb] at hrun
    exact ⟨fuel, _, hrun⟩
  · intro e N he hN hN'
    rw [hregion, PageState.limit_put]
    exact serves_first hlast hlt (hfits e N he hN hN')

/-- The kernel's page can be given back there. -/
theorem kpage_free_after (r : Region) (m m' : MemMap) :
    ∃ st, Kind.kernel.free (530 * pageSize) 1 (((memInit thirtyTwoMeg).put .kernel
      (allocated ((memInit thirtyTwoMeg).region .kernel) 530 1) m).put .user r m') = some st := by
  have hpage : 530 * pageSize / pageSize = 530 := by decide
  have hlimit : (memInit thirtyTwoMeg).nrKpages = 4096 := by decide
  have hfree : ∃ x, Region.free 530 1 (allocated ((memInit thirtyTwoMeg).region .kernel) 530 1) m' =
      some x := by
    rw [Region.free, if_neg (by decide)]
    exact ⟨_, rfl⟩
  obtain ⟨x, hfree⟩ := hfree
  simp only [Kind.free, kpageFree, hpage, PageState.nrKpages_put, hlimit]
  rw [if_neg (by decide)]
  exact ⟨_, Option.bind_eq_some_iff.mpr ⟨x, hfree, rfl⟩⟩

/-- A page of the kernel and one of the users are taken on the sample memory, and the kernel's is
given back, in a run that any guard with room for these pages admits. -/
theorem reach_user_page {e : Kind → ℕ} {N : ℕ} (he : 531 ≤ e .kernel) (he' : 4097 ≤ e .user)
    (hN : 4097 ≤ N) (hN' : N < 2 ^ 32) :
    ∃ s, (system thirtyTwoMeg).Reach (guard e N) s ∧ s.live = [⟨.user, 4096 * pageSize, 1⟩] := by
  obtain ⟨fuel, m, hm, hrun⟩ := kpage_alloc_32mb (n := 1) (by decide)
  have hserves := (@serves_memInit thirtyTwoMeg .kernel 1 (e .kernel) N hN' (by decide)
    (by rw [kernel_first_32mb]; exact he) (by rw [kernel_first_32mb]; exact le_trans (by decide) hN)
    (by decide)).2
  have hfirst : (system thirtyTwoMeg).Reach (guard e N) _ :=
    .step (c := .alloc .kernel 1) (.init rfl) hserves (.alloc hrun (by decide))
  have hmark : ∀ x < 2 ^ 32, (m.setRun 530 (UInt32.toNat 1) 0).Marked x ↔ x < 531 := by
    intro x hx
    have h530 : (530 : UInt32).toNat = 530 := rfl
    have h1 : (1 : UInt32).toNat = 1 := rfl
    rw [MemMap.marked_setRun hx (by decide) (by decide), MemMap.marked_congr hm.page,
      marked_memInit _ hx, reserved_32mb, UInt32.toNat_zero]
    omega
  generalize m.setRun 530 (UInt32.toNat 1) 0 = m₁ at hfirst hmark
  obtain ⟨⟨fuel', m', hrun'⟩, hserves'⟩ :=
    page_alloc_after (r := allocated ((memInit thirtyTwoMeg).region .kernel) 530 1) hmark
  have hsecond : (system thirtyTwoMeg).Reach (guard e N) _ :=
    .step (c := .alloc .user 1) hfirst (hserves' (e .user) N he' hN hN') (.alloc hrun' (by decide))
  obtain ⟨st, hfree⟩ :=
    kpage_free_after (allocated ((memInit thirtyTwoMeg).region .user) 4096 1) m₁ m'
  refine ⟨_, .step (c := .free ⟨.kernel, 530 * pageSize, 1⟩) hsecond trivial
    (.free (List.mem_cons_of_mem _ List.mem_cons_self) hfree), ?_⟩
  have herase : ([⟨.user, 4096 * pageSize, 1⟩, ⟨.kernel, 530 * pageSize, 1⟩] : List Alloc).erase
      ⟨.kernel, 530 * pageSize, 1⟩ = [⟨.user, 4096 * pageSize, 1⟩] := by decide
  exact herase

/-- The user's page of that run. -/
theorem pages_exclusive_user_page :
    ∃ s : Paging, s.live = [⟨.user, 4096 * pageSize, 1⟩] ∧ Exclusive thirtyTwoMeg s := by
  obtain ⟨s, hreach, hlive⟩ := reach_user_page (e := fun _ => addressPages) (N := addressPages)
    (by decide) (by decide) (by decide) (by decide)
  exact ⟨s, hlive, pages_exclusive thirtyTwoMeg s hreach⟩

/-- The user's page of that run. -/
theorem pages_inRegion_user_page :
    ∃ s : Paging, s.live = [⟨.user, 4096 * pageSize, 1⟩] ∧ InRegion s := by
  obtain ⟨s, hreach, hlive⟩ := reach_user_page
    (e := fun k => ((memInit thirtyTwoMeg).limit k).toNat)
    (N := (memInit thirtyTwoMeg).nrPages.toNat) (by decide) (by decide) (by decide) (by decide)
  exact ⟨s, hlive, pages_inRegion thirtyTwoMeg (by decide) s hreach⟩

/-- `kpage_alloc(4096)` on the sample memory runs over the end of the kernel's region. -/
theorem kpage_alloc_leaves_region : ¬ ∀ (memSize : UInt32) (s : Paging),
    (system memSize).Reach (fun _ _ => True) s → InRegion s := by
  intro hclaim
  obtain ⟨fuel, m, -, hrun⟩ := kpage_alloc_32mb (n := 4096) (by decide)
  have hreach : (system thirtyTwoMeg).Reach (fun _ _ => True) _ :=
    .step (c := .alloc .kernel 4096) (.init rfl) trivial (.alloc hrun (by decide))
  have hstop : (((memInit thirtyTwoMeg).put .kernel
      (allocated ((memInit thirtyTwoMeg).region .kernel) 530 4096)
      (m.setRun 530 (UInt32.toNat 4096) 0)).region .kernel).stop / pageSize = 4096 := by
    rw [PageState.region_put, if_pos rfl, allocated]
    decide
  have hin := (hclaim _ _ hreach).inside ⟨.kernel, 530 * pageSize, 4096⟩ List.mem_cons_self 4096
    (mem_pages.mpr ⟨by decide, by decide⟩)
  have hlt := hin.2
  rw [hstop] at hlt
  exact absurd hlt (by decide)

/-- After `page_alloc(0x200000)` on the sample memory the counter in bytes is 0 again and the
cursor is past the address space; `page_alloc(1)` returns the address of the first call. -/
theorem second_page_alloc {m : MemMap}
    (hmark : ∀ x < 2 ^ 32, m.Marked x ↔ (4096 ≤ x ∧ x < 2101248) ∨ x < 530) :
    ∃ fuel addr st, Kind.user.alloc fuel 1 ((memInit thirtyTwoMeg).put .user
      (allocated ((memInit thirtyTwoMeg).region .user) 4096 2097152) m) = some (addr, st) ∧
      addr = 4096 * pageSize := by
  generalize hr : allocated ((memInit thirtyTwoMeg).region .user) 4096 2097152 = r
  have hopen : ¬ r.Full := by
    rw [Region.Full, ← hr]
    decide
  have hfirst : r.first.toNat = 4096 := by
    rw [← hr]
    decide
  have hlast : r.last.toNat = 2101249 := by
    rw [← hr]
    decide
  have hone : max (UInt32.toNat 1) 1 = 1 := by decide
  have hlimit : (8192 : UInt32).toNat = 8192 := by decide
  have hfit : m.Fits (2 ^ 32) (2 ^ 32 - 1) 1 2101248 := by
    refine ⟨by decide, by decide, fun x hx hx' => ?_⟩
    rw [hmark x (by omega)]
    omega
  have hserves : r.Serves (2 ^ 32) (2 ^ 32 - 1) m 1 8192 := by
    refine .inr ⟨fun p hp hp' => by omega, .inr fun p hp hp' => ?_⟩
    by_cases hlt : p < 2101248
    · exact .inl ⟨p, le_refl _, by omega, by omega, (hmark p (by omega)).mpr (.inl (by omega))⟩
    · exact .inr ⟨2101248, by omega, by omega, hfit⟩
  obtain ⟨addr, r', m', hrun, hout⟩ := Region.alloc_ends (by omega) (le_refl _) hserves
  refine ⟨2 ^ 32, addr, ((memInit thirtyTwoMeg).put .user r m).put .user r' m', ?_, ?_⟩
  · rw [Kind.alloc_eq, PageState.region_put, if_pos rfl, PageState.memMap_put,
      PageState.limit_put, limit_user_32mb, hrun]
    rfl
  · cases hout with
    | @found p _ hfit' hp hm =>
        have hfree := hfit'.free p.toNat (le_refl _) (by omega)
        rw [hmark p.toNat p.toNat_lt] at hfree
        have hp' : p.toNat = 2101248 := by
          rcases hp with ⟨h1, h2, -⟩ | ⟨h1, h2, -⟩
          · omega
          · omega
        have hp2 : p = 2101248 := by
          rw [← UInt32.toNat_inj, hp']
          rfl
        rw [hp2]
        decide
    | none _ hnone _ =>
        rcases hnone with hfull | hnone
        · exact absurd hfull hopen
        · refine absurd ⟨.inr ⟨by omega, by omega, fun q hq hq' hfit' => ?_⟩, hfit⟩ (hnone _)
          exact hfit'.free q (le_refl _) (by omega) ((hmark q (by omega)).mpr (.inl (by omega)))

/-- `page_alloc(0x200000); page_alloc(1)` on the sample memory: the first call leaves its
cursor behind the address space, the second one finds a page there, and `page * PAGE_SIZE`
is the address of the first allocation. -/
theorem page_alloc_twice : ¬ ∀ (memSize : UInt32) (s : Paging),
    (system memSize).Reach (fun _ _ => True) s → Exclusive memSize s := by
  intro hclaim
  obtain ⟨fuel, m, hl, hrun⟩ := page_alloc_32mb (n := 2097152) (by decide)
  -- The bitmap after the first call.
  have hmark : ∀ x < 2 ^ 32, (m.setRun 4096 (UInt32.toNat 2097152) 0).Marked x ↔
      (4096 ≤ x ∧ x < 2101248) ∨ x < 530 := by
    intro x hx
    rw [MemMap.marked_setRun hx (by decide) (by decide), MemMap.marked_congr hl.page,
      marked_memInit _ hx, reserved_32mb]
    rfl
  obtain ⟨fuel', addr, st, hrun', haddr⟩ := second_page_alloc hmark
  generalize (memInit thirtyTwoMeg).put .user
    (allocated ((memInit thirtyTwoMeg).region .user) 4096 2097152)
    (m.setRun 4096 (UInt32.toNat 2097152) 0) = st₁ at hrun hrun'
  have hstep : Step (.alloc .user 2097152) ⟨memInit thirtyTwoMeg, []⟩
      ⟨st₁, [⟨.user, 4096 * pageSize, 2097152⟩]⟩ := .alloc hrun (by decide)
  have hstep' : Step (.alloc .user 1) ⟨st₁, [⟨.user, 4096 * pageSize, 2097152⟩]⟩
      ⟨st, [⟨.user, addr, 1⟩, ⟨.user, 4096 * pageSize, 2097152⟩]⟩ :=
    .alloc hrun' (by rw [haddr]; decide)
  have hdisj := (hclaim thirtyTwoMeg _
    (.step (.step (.init rfl) trivial hstep) trivial hstep')).disjoint
  rw [List.pairwise_cons] at hdisj
  have hsep := hdisj.1 ⟨.user, 4096 * pageSize, 2097152⟩ List.mem_cons_self
  rw [Finset.disjoint_left] at hsep
  have hmem : 4096 ∈ (⟨.user, addr, 1⟩ : Alloc).pages := by
    rw [haddr, mem_pages]
    exact ⟨by decide, by decide⟩
  apply hsep hmem
  rw [mem_pages]
  exact ⟨by decide, by decide⟩

end Paging
end OxKernel.Mm
