import OxKernel.Mm.PageSafety
import OxKernel.Mm.PageTables

/-!
# The address space

The page allocators, the page tables and the processor together. Pages are handed out and taken
back, pages of a live allocation are made read-only and writable again, programs store to what
they have been given, and the processor looks up addresses at any time and remembers what it has
found. Through all of this an address leads to itself, with the rights that its page should have.

The allocators hand out all pages of the memory, while `mem_init` makes whole page tables only:
in a memory that is no multiple of four megabytes the last pages are handed out and lead nowhere.

## Main definitions

* `AddressSpace.system` — the calls, the stores and the accesses.
* `AddressSpace.Inv` — what each of them keeps.

## Main results

* `address_space_runs` — addresses lead to themselves in every run.
* `granted_pages_mapped_iff` — the memories all of whose pages are mapped when they are given.
-/
namespace OxKernel.Mm

open Lib (Translator)

/-- `NR_PAGES` after `mem_init`. -/
def nrPages (memSize : UInt32) : UInt32 := memSize / pageSize

/-- A look-up of an address: where it leads, and the rights of users and to write. -/
def access (v : UInt32) (s : Mmu) : Option (UInt32 × Bool × Bool) :=
  (s.find i386Tables kernelPageDir (v / pageSize)).1.map fun m => (m.1 + v % pageSize, m.2)

/-- A state of a run. -/
structure AddressSpace where
  paging : Paging
  mmu : Mmu
  /-- The pages that the last call on them has made read-only. -/
  readOnly : UInt32 → Bool

namespace AddressSpace

/-- What happens in a run. -/
inductive Event
  | call (c : Paging.Call)
  | setReadOnly (addr n : UInt32)
  | unsetReadOnly (addr n : UInt32)
  | store (a y : UInt32)
  | access (v : UInt32)

/-- `n` pages from an address on are pages of an allocation. -/
def Inside (a : Alloc) (addr n : UInt32) : Prop :=
  a.page ≤ (addr / pageSize).toNat ∧ (addr / pageSize).toNat + n.toNat ≤ a.page + a.nrPages.toNat

/-- The address is in an allocation. -/
def Holds (a : Alloc) (addr : UInt32) : Prop := (addr / pageSize).toNat ∈ a.pages

/-- What happens in a memory of `nr` pages. The kernel makes pages of a live allocation read-only
or writable; a store goes to the image of the kernel or to a live allocation. -/
inductive Step (nr : UInt32) : Event → AddressSpace → AddressSpace → Prop
  | call {c : Paging.Call} {s : AddressSpace} {p : Paging} (h : Paging.Step c s.paging p) :
      Step nr (.call c) s { s with paging := p }
  | setReadOnly {a : Alloc} {addr n : UInt32} {s : AddressSpace} (ha : a ∈ s.paging.live)
      (hin : Inside a addr n) : Step nr (.setReadOnly addr n) s
        { s with
          mmu := memSetReadOnly nr addr n s.mmu
          readOnly := readOnlyAfter (addr / pageSize).toNat n.toNat true s.readOnly }
  | unsetReadOnly {a : Alloc} {addr n : UInt32} {s : AddressSpace} (ha : a ∈ s.paging.live)
      (hin : Inside a addr n) : Step nr (.unsetReadOnly addr n) s
        { s with
          mmu := memUnsetReadOnly nr addr n s.mmu
          readOnly := readOnlyAfter (addr / pageSize).toNat n.toNat false s.readOnly }
  | store {a y : UInt32} {s : AddressSpace}
      (ha : a < kernelEnd ∨ ∃ b ∈ s.paging.live, Holds b a) :
      Step nr (.store a y) s { s with mmu := s.mmu.store a y }
  | access {v : UInt32} {s : AddressSpace} : Step nr (.access v) s
      { s with mmu := (s.mmu.find i386Tables kernelPageDir (v / pageSize)).2 }

/-- The runs from `mem_init` on, in a memory of a given size and with given contents. -/
def system (memSize : UInt32) (mem : UInt32 → UInt32) : Lib.System AddressSpace Event where
  init s := s = ⟨⟨memInit memSize, []⟩, ⟨initTables (nrPages memSize) mem, fun _ => none⟩,
    fun _ => false⟩
  step := Step (nrPages memSize)

/-- The ends of the regions of the two allocators. -/
def regionEnd (memSize : UInt32) (k : Kind) : ℕ := ((memInit memSize).limit k).toNat

/-- An allocation is admitted as it is for the allocators alone, everything else always. -/
def guard (memSize : UInt32) (s : AddressSpace) : Event → Prop
  | .call c => Paging.guard (regionEnd memSize) (nrPages memSize).toNat s.paging c
  | _ => True

/-- **The invariant.** -/
structure Inv (memSize : UInt32) (s : AddressSpace) : Prop where
  paging : Paging.Inv (regionEnd memSize) (nrPages memSize).toNat memSize s.paging
  mapped : Mapped (nrPages memSize) s.readOnly s.mmu

/-! ## Where the tables are -/

variable {memSize : UInt32} {s s' : AddressSpace}

theorem nrPages_lt (memSize : UInt32) : (nrPages memSize).toNat < 2 ^ 20 :=
  Paging.nrPages_lt memSize

theorem pageAlign_mod (x : UInt32) : (pageAlign x).toNat % 4096 = 0 := by
  rw [pageAlign]
  by_cases h : x % pageSize ≠ 0
  · rw [if_pos h]
    simp only [pageSize, UInt32.toNat_mul, UInt32.toNat_add, UInt32.toNat_div, UInt32.reduceToNat]
    omega
  · rw [if_neg h]
    rw [not_not, ← UInt32.toNat_inj] at h
    simpa only [pageSize, UInt32.toNat_mod, UInt32.reduceToNat] using h

/-- The bitmap has a bit for every page. -/
theorem nrMemMap_le {nr : UInt32} (hnr : nr.toNat < 2 ^ 20) : (nrMemMap nr).toNat ≤ 33 := by
  rw [nrMemMap]
  split
  · simp only [bitsPerByte, pageSize, UInt32.toNat_add, UInt32.toNat_div, UInt32.reduceToNat]
    omega
  · simp only [bitsPerByte, pageSize, UInt32.toNat_add, UInt32.toNat_div, UInt32.reduceToNat]
    omega

/-- The tables end below the pages that are handed out. -/
theorem tables_reserved (memSize : UInt32) :
    2101248 + 4 * (nrPages memSize).toNat ≤ 4096 * Paging.reserved memSize := by
  have hnr := nrPages_lt memSize
  obtain ⟨nr, hdef⟩ : ∃ nr, nrPages memSize = nr := ⟨_, rfl⟩
  have hreserved : Paging.reserved memSize = (startKmem nr).toNat / 4096 := by
    rw [Paging.region_memInit_first, UInt32.toNat_div, ← hdef]
    rfl
  rw [hdef] at hnr ⊢
  rw [hreserved]
  have hmap := nrMemMap_le hnr
  have hend : (kernelEnd + (nr * 4 + pageSize)).toNat = 2101248 + 4 * nr.toNat := by
    simp only [kernelEnd, oneMeg, pageSize, UInt32.toNat_mul, UInt32.toNat_add,
      UInt32.reduceToNat]
    omega
  have hreal := Paging.pageAlign_spec (x := kernelEnd + (nr * 4 + pageSize)) (by omega)
  rw [← realKernelEnd, hend] at hreal
  have hsum : (nr / pageTableSize * pageSize + realKernelEnd nr + nrMemMap nr * pageSize).toNat =
      nr.toNat / 1024 * 4096 + (realKernelEnd nr).toNat + (nrMemMap nr).toNat * 4096 := by
    simp only [pageTableSize, pageSize, UInt32.toNat_mul, UInt32.toNat_add, UInt32.toNat_div,
      UInt32.reduceToNat]
    omega
  have hstart := Paging.pageAlign_spec
    (x := nr / pageTableSize * pageSize + realKernelEnd nr + nrMemMap nr * pageSize) (by omega)
  have hmod := pageAlign_mod
    (nr / pageTableSize * pageSize + realKernelEnd nr + nrMemMap nr * pageSize)
  rw [← startKmem] at hstart hmod
  omega

/-- A live allocation has none of the tables. -/
theorem Inv.outside (h : Inv memSize s) {a : Alloc} (ha : a ∈ s.paging.live) {addr : UInt32}
    (haddr : Holds a addr) : Outside (nrPages memSize) addr := by
  have hlo := h.paging.above a ha _ haddr
  have hend := tables_reserved memSize
  simp only [pageSize, UInt32.toNat_div, UInt32.reduceToNat] at hlo
  exact .inr (by omega)

/-! ## Runs -/

theorem ptSetReadOnly_sets : SetsReadOnly ptSetReadOnly true := fun _ _ _ _ h => h.setReadOnly

theorem ptSetAttrib_sets : SetsReadOnly (ptSetAttrib · pteReadWrite) false :=
  fun _ _ _ _ h => h.setReadWrite

theorem clampPages_of_le {nr n : UInt32} (h : n.toNat ≤ nr.toNat) : clampPages nr n = n :=
  if_neg (UInt32.not_lt.mpr (UInt32.le_iff_toNat_le.mpr h))

/-- The pages of a live allocation are pages of the memory. -/
theorem Inv.inside (h : Inv memSize s) {a : Alloc} (ha : a ∈ s.paging.live) {addr n : UInt32}
    (hin : Inside a addr n) : (addr / pageSize).toNat + n.toNat ≤ (nrPages memSize).toNat := by
  have hbound := (h.paging.inside a ha).2.2
  have hend := hin.2
  omega

/-- **What each event keeps.** -/
theorem Inv.step (h : Inv memSize s) {c : Event} (hg : guard memSize s c)
    (hstep : Step (nrPages memSize) c s s') : Inv memSize s' := by
  have hnr := nrPages_lt memSize
  cases hstep with
  | call hc => exact ⟨Paging.Inv.step hnr.le _ _ _ h.paging hg hc, h.mapped⟩
  | setReadOnly ha hin =>
      have hpages := h.inside ha hin
      refine ⟨h.paging, ?_⟩
      rw [memSetReadOnly, clampPages_of_le (by omega)]
      exact h.mapped.setPages hnr ptSetReadOnly_sets hpages
  | unsetReadOnly ha hin =>
      have hpages := h.inside ha hin
      refine ⟨h.paging, ?_⟩
      rw [memUnsetReadOnly, clampPages_of_le (by omega)]
      exact h.mapped.setPages hnr ptSetAttrib_sets hpages
  | store ha =>
      refine ⟨h.paging, h.mapped.store hnr ?_ _⟩
      rcases ha with ha | ⟨b, hb, ha⟩
      · exact .inl (UInt32.lt_iff_toNat_lt.mp ha)
      · exact h.outside hb ha
  | access => exact ⟨h.paging, h.mapped.find _⟩

/-- In every run. -/
theorem inv_reach {mem : UInt32 → UInt32}
    (hsize : Paging.reserved memSize ≤ (nrPages memSize).toNat)
    (h : (system memSize mem).Reach (guard memSize) s) : Inv memSize s := by
  apply h.invariant
  · rintro s rfl
    exact ⟨Paging.inv_init hsize, mapped_init (nrPages_lt memSize) mem⟩
  · intro s c s' hs hg hstep
    exact hs.step hg hstep

end AddressSpace

open AddressSpace

variable {memSize : UInt32} {mem : UInt32 → UInt32} {s : AddressSpace}

/-- A page is mapped: the tables that `mem_init` has made lead it to itself, whatever the memory
held before. -/
def IsMapped (nr : UInt32) (x : ℕ) : Prop := ∀ mem : UInt32 → UInt32,
  i386Tables.walk (initTables nr mem) kernelPageDir (.ofNat x) =
    some (leadsTo (fun _ => false) (.ofNat x))

theorem isMapped_of_lt {nr : UInt32} (hnr : nr.toNat < 2 ^ 20) {x : ℕ}
    (hx : x < nr.toNat / 1024 * 1024) : IsMapped nr x := by
  intro mem
  refine (initTables_ok hnr mem).walk hnr ?_
  show (UInt32.ofNat x).toNat < _
  rw [UInt32.toNat_ofNat']
  omega

/-- The last page of a memory that is no whole number of page tables leads nowhere, if the memory
was clear. -/
theorem not_isMapped_last {nr : UInt32} (hnr : nr.toNat < 2 ^ 20) (hmod : nr.toNat % 1024 ≠ 0) :
    ¬ IsMapped nr (nr.toNat - 1) := by
  intro h
  obtain ⟨d, hd⟩ : ∃ d, pdIndex (UInt32.ofNat (nr.toNat - 1) * pageSize) = d := ⟨_, rfl⟩
  have hdn : d.toNat = nr.toNat / 1024 := by
    rw [← hd, toNat_pdIndex]
    simp only [pageSize, UInt32.toNat_mul, UInt32.toNat_ofNat', UInt32.reduceToNat]
    omega
  have hroot : i386Tables.directoryEntry kernelPageDir (UInt32.ofNat (nr.toNat - 1)) =
      kernelPageDir + 4 * d := by
    rw [← hd]
    rfl
  have habsent := h fun _ => 0
  rw [Lib.Tables.walk_absent] at habsent
  · cases habsent
  · rw [hroot, initTables_rest hnr (by omega) (by omega)]
    rfl

/-- **What is handed out is mapped** in exactly the memories of whole page tables. -/
theorem granted_pages_mapped_iff (hsize : Paging.reserved memSize ≤ (nrPages memSize).toNat)
    (huser : endKmem (nrPages memSize) / pageSize < nrPages memSize) :
    (∀ s, (Paging.system memSize).Reach
        (Paging.guard (regionEnd memSize) (nrPages memSize).toNat) s →
      ∀ a ∈ s.live, ∀ x ∈ a.pages, IsMapped (nrPages memSize) x) ↔
    (nrPages memSize).toNat % 1024 = 0 := by
  have hnr := nrPages_lt memSize
  have hfirst : ((memInit memSize).region .user).first = 4096 := by
    show endKmem (nrPages memSize) / pageSize = 4096
    rw [Paging.endKmem_eq hnr]
    decide
  have hlimit : (memInit memSize).limit .user = nrPages memSize := rfl
  have hlt : (4096 : UInt32) < nrPages memSize := by
    rwa [Paging.endKmem_eq hnr] at huser
  have hltNat : 4096 < (nrPages memSize).toNat := UInt32.lt_iff_toNat_lt.mp hlt
  constructor
  · intro hall
    by_contra hmod
    -- One allocation takes all that the users have.
    obtain ⟨n, hn⟩ : ∃ n : UInt32, n = nrPages memSize - 4096 := ⟨_, rfl⟩
    have hnNat : n.toNat = (nrPages memSize).toNat - 4096 := by
      rw [hn, UInt32.toNat_sub_of_le _ _ (UInt32.le_of_lt hlt)]
      rfl
    have hlo : Paging.reserved memSize ≤ ((memInit memSize).region .user).first.toNat := by
      rw [hfirst]
      exact (Paging.reserved_bounds memSize).2.le
    have hfirstNat : ((memInit memSize).region .user).first.toNat = 4096 := by
      rw [hfirst]
      rfl
    have hend : regionEnd memSize .user = (nrPages memSize).toNat := rfl
    have hserves := (@Paging.serves_memInit memSize .user n (regionEnd memSize .user)
      (nrPages memSize).toNat (by omega) hlo (by omega) (by omega) (by rwa [hfirst, hlimit])).2
    have hopen : ¬ ((memInit memSize).region .user).Full := by
      have hfree : memSize - endKmem (nrPages memSize) > 0 := by
        have hmem := memSize.toNat_lt
        rw [Paging.endKmem_eq hnr, gt_iff_lt, UInt32.lt_iff_toNat_lt, UInt32.toNat_sub]
        simp only [nrPages, pageSize, UInt32.toNat_div, UInt32.reduceToNat] at hltNat ⊢
        omega
      have hzero : ((0 : Int32) * 4096).toUInt32 = 0 := by decide
      rw [Region.Full]
      show ¬ ((0 : Int32) * 4096).toUInt32 ≥ memSize - endKmem (nrPages memSize)
      rw [hzero]
      exact UInt32.not_le.mpr hfree
    obtain ⟨fuel, m, -, hrun⟩ := @Paging.first_alloc memSize .user n hlo (by omega)
      (by rwa [hfirst, hlimit]) hopen
    have haddr : ((memInit memSize).region .user).first * pageSize ≠ 0 := by
      rw [hfirst]
      decide
    have hmapped := hall _ (.step (c := .alloc .user n) (.init rfl) hserves (.alloc hrun haddr))
      ⟨.user, ((memInit memSize).region .user).first * pageSize, n⟩ List.mem_cons_self
      ((nrPages memSize).toNat - 1)
    refine not_isMapped_last hnr hmod (hmapped ?_)
    rw [Paging.mem_pages, Paging.page_mul (by omega), hfirstNat]
    dsimp only
    omega
  · intro hmod s hreach a ha x hx
    have hinv : Paging.Inv (regionEnd memSize) (nrPages memSize).toNat memSize s := by
      apply hreach.invariant
      · rintro s rfl
        exact Paging.inv_init hsize
      · exact Paging.Inv.step hnr.le
    have hbound := (hinv.inside a ha).2.2
    have hx' := Paging.mem_pages.mp hx
    exact isMapped_of_lt hnr (by omega)

/-- In 33 megabytes a page is handed out that is not mapped. -/
theorem granted_pages_mapped_iff_33mb :
    ¬ ∀ s, (Paging.system 34603008).Reach
        (Paging.guard (regionEnd 34603008) (nrPages 34603008).toNat) s →
      ∀ a ∈ s.live, ∀ x ∈ a.pages, IsMapped (nrPages 34603008) x := by
  intro h
  have hmod := (granted_pages_mapped_iff (by decide) (by decide)).mp h
  exact absurd hmod (by decide)

end OxKernel.Mm
