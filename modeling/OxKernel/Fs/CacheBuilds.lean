import OxKernel.Fs.CacheRefinement
import OxKernel.Lib.Loop

/-!
# The cache in the two builds

The refinement of `CacheRefinement` is instantiated at the two device layers. In the
kernel build a run refines a flat disk as long as no call evicts a dirty slot; in the
`_USER_SPACE` build eviction is harmless. In both a `block_disk_write_sync_cache` that
finds no slot for its block fails after it has changed the device.

The runs that go wrong are long, so they are not evaluated but followed by lemmas:
`Filled` describes a table that was filled in order, and `Saturated` one whose use
counters are all at `BLOCK_MAX_LRU`.

## Main definitions

* `Filled` — the first slots hold the first blocks, the others are free.
* `Saturated` — no slot is free and no slot can be replaced.
* `evictionRun`, `saturationRun` — the runs on which the two builds go wrong.
-/
namespace OxKernel.Fs

/-! ## Where a request lands -/

section Place
variable {σ : Type} {c : Cache σ} {dev : DevNo} {block : BlockNo}

theorem search_eq_none {curr : ℕ} (h : c.Misses dev block) :
    search c.slots curr dev block = none := by
  rw [search, Option.or_eq_none_iff, List.find?_eq_none, List.find?_eq_none]
  exact ⟨fun i _ => by simpa using h i, fun i _ => by simpa using h i⟩

/-- The scan stops at the first free slot. -/
theorem scanSlots_free (slots : Slots) :
    ∀ (is : List (Fin blockArraySize)) (a : Scan),
      (scanSlots slots is a).free =
        (is.find? fun i => (slots i).map = blockFreeMark).or a.free := by
  intro is
  induction is with
  | nil => intro a; rfl
  | cons i is ih =>
      intro a
      rw [scanSlots]
      by_cases hi : (slots i).map = blockFreeMark
      · simp [hi]
      · simp [hi, ih, Scan.visit]

theorem place_eq_free {i : Fin blockArraySize} (hm : c.Misses dev block)
    (hi : (c.slots i).map = blockFreeMark) (hlt : ∀ j < i, (c.slots j).map ≠ blockFreeMark) :
    c.place dev block = .free i := by
  have hf : c.scan.free = some i := by
    rw [Cache.scan, scanSlots_free, Lib.find?_finRange_eq_some (by simpa using hi)
      (fun j hj => by simpa using hlt j hj)]
    rfl
  simp only [Cache.place, search_eq_none hm, hf]

/-- A table without a free slot in which no use counter is below `BLOCK_MAX_LRU` has
no victim. -/
theorem scanSlots_saturated {slots : Slots} :
    ∀ (is : List (Fin blockArraySize)) (a : Scan),
      (∀ i ∈ is, (slots i).map ≠ blockFreeMark ∧ (slots i).lru = blockMaxLru) →
      (scanSlots slots is a).free = a.free ∧
      (scanSlots slots is a).lowestCleanPtr = a.lowestCleanPtr ∧
      (scanSlots slots is a).lowestDirtyPtr = a.lowestDirtyPtr := by
  intro is
  induction is with
  | nil => intro a _; exact ⟨rfl, rfl, rfl⟩
  | cons i is ih =>
      intro a h
      have hi := h i List.mem_cons_self
      have hmax : ∀ x : BlockNo, ¬ blockMaxLru < x := by
        intro x hx
        have := x.toNat_lt
        simp only [blockMaxLru, UInt32.lt_iff_toNat_lt, UInt32.toNat_ofNat, Nat.reducePow,
          Nat.reduceMod] at hx this
        omega
      rw [scanSlots, if_neg hi.1]
      obtain ⟨h1, h2, h3⟩ := ih (a.visit i (slots i)) fun j hj => h j (List.mem_cons_of_mem _ hj)
      rw [h1, h2, h3]
      simp [Scan.visit, hi.2, hmax]

theorem place_eq_full (hm : c.Misses dev block)
    (h : ∀ i, (c.slots i).map ≠ blockFreeMark ∧ (c.slots i).lru = blockMaxLru) :
    c.place dev block = .full := by
  obtain ⟨h1, h2, h3⟩ := scanSlots_saturated (List.finRange blockArraySize)
    (Scan.start c.highest) fun i _ => h i
  have hf : c.scan.free = none := h1
  have hc : c.scan.lowestCleanPtr = none := h2
  have hd : c.scan.lowestDirtyPtr = none := h3
  simp only [Cache.place, search_eq_none hm, hf, hc, hd]

/-- The scan misses no dirty slot below `BLOCK_MAX_LRU`. -/
theorem scanSlots_dirty_none {slots : Slots} :
    ∀ (is : List (Fin blockArraySize)) (a : Scan),
      (a.lowestDirtyPtr = none → a.lowestDirty = blockMaxLru) →
      (∀ i ∈ is, (slots i).map ≠ blockFreeMark) →
      (scanSlots slots is a).lowestDirtyPtr = none →
      a.lowestDirtyPtr = none ∧ ∀ i ∈ is, (slots i).dirty = true → ¬ (slots i).lru < blockMaxLru := by
  intro is
  induction is with
  | nil => intro a _ _ h; exact ⟨h, by simp⟩
  | cons i is ih =>
      intro a ha hocc h
      rw [scanSlots, if_neg (hocc i List.mem_cons_self)] at h
      have hv : (a.visit i (slots i)).lowestDirtyPtr = none →
          (a.visit i (slots i)).lowestDirty = blockMaxLru ∧ a.lowestDirtyPtr = none ∧
            ¬ ((slots i).dirty = true ∧ (slots i).lru < a.lowestDirty) := by
        simp only [Scan.visit]
        split
        · simp
        · rename_i hn
          exact fun hp => ⟨ha hp, hp, hn⟩
      obtain ⟨hp, hrest⟩ := ih _ (fun hp => (hv hp).1)
        (fun j hj => hocc j (List.mem_cons_of_mem _ hj)) h
      obtain ⟨-, hap, hn⟩ := hv hp
      refine ⟨hap, fun j hj hd hlt => ?_⟩
      rcases List.mem_cons.mp hj with rfl | hj
      · exact hn ⟨hd, by rwa [ha hap]⟩
      · exact hrest j hj hd hlt

/-- In a table of dirty slots one of them is evicted. -/
theorem place_eq_dirty (hm : c.Misses dev block)
    (h : ∀ i, (c.slots i).map ≠ blockFreeMark ∧ (c.slots i).dirty = true)
    {i₀ : Fin blockArraySize} (hi : (c.slots i₀).lru < blockMaxLru) :
    ∃ i, c.place dev block = .dirty i := by
  have hf : c.scan.free = none := by
    rw [Cache.scan, scanSlots_free, Option.or_eq_none_iff, List.find?_eq_none]
    exact ⟨fun i _ => by simpa using (h i).1, rfl⟩
  have hc : c.scan.lowestCleanPtr = none := by
    rw [Option.eq_none_iff_forall_ne_some]
    intro i hi
    have := c.scan_sound.clean i hi
    simp [(h i).2] at this
  cases hd : c.scan.lowestDirtyPtr with
  | some i => exact ⟨i, by simp only [Cache.place, search_eq_none hm, hf, hc, hd]⟩
  | none =>
      have := scanSlots_dirty_none _ _ (fun _ => rfl) (fun i _ => (h i).1) hd
      exact absurd hi (this.2 i₀ (List.mem_finRange i₀) (h i₀).2)

end Place

/-! ## A table filled in order -/

section Filled
variable {σ : Type} {c : Cache σ} {Q : Fin blockArraySize → Slot → Prop} {n : ℕ}

/-- The first `n` slots hold the first `n` blocks of device 0 and the others are free. -/
structure Filled (Q : Fin blockArraySize → Slot → Prop) (n : ℕ) (c : Cache σ) : Prop where
  curr : c.curr < blockArraySize
  held : ∀ j : Fin blockArraySize, (j : ℕ) < n → (c.slots j).Holds 0 (UInt32.ofNat j) ∧ Q j (c.slots j)
  free : ∀ j : Fin blockArraySize, n ≤ (j : ℕ) → c.slots j = Slot.fresh

theorem ofNat_inj_of_lt {a b : ℕ} (ha : a < 2 ^ 32) (hb : b < 2 ^ 32)
    (h : UInt32.ofNat a = UInt32.ofNat b) : a = b := by
  have := congrArg UInt32.toNat h
  rwa [UInt32.toNat_ofNat_of_lt' ha, UInt32.toNat_ofNat_of_lt' hb] at this

theorem ofNat_ne_blockFreeMark {a : ℕ} (ha : a < 4294967295) :
    UInt32.ofNat a ≠ blockFreeMark := by
  intro h
  have := congrArg UInt32.toNat h
  rw [UInt32.toNat_ofNat_of_lt' (by simp only [UInt32.size]; omega)] at this
  simp only [blockFreeMark, UInt32.toNat_ofNat, Nat.reducePow, Nat.reduceMod] at this
  omega

theorem Filled.misses (h : Filled Q n c) {m : ℕ} (hn : n ≤ m) (hm : m < 4294967295) :
    c.Misses 0 (UInt32.ofNat m) := by
  rintro j ⟨hmap, -⟩
  by_cases hj : (j : ℕ) < n
  · rw [(h.held j hj).1.1] at hmap
    have := ofNat_inj_of_lt (by omega) (by omega) hmap
    omega
  · rw [h.free j (not_lt.mp hj)] at hmap
    exact ofNat_ne_blockFreeMark hm hmap.symm

theorem Filled.place (h : Filled Q n c) (hn : n < blockArraySize) :
    c.place 0 (UInt32.ofNat n) = .free ⟨n, hn⟩ := by
  refine place_eq_free (h.misses le_rfl (by simp only [blockArraySize] at hn; omega)) (by rw [h.free _ le_rfl]; rfl) ?_
  intro j hj
  rw [(h.held j hj).1.1]
  exact ofNat_ne_blockFreeMark (j.isLt.trans (by decide))

/-- Filling one more slot. -/
theorem Filled.extend (h : Filled Q n c) (hn : n < blockArraySize) {c' : Cache σ} {s : Slot}
    (hs : c'.slots = Function.update c.slots ⟨n, hn⟩ s) (hc : c'.curr < blockArraySize)
    (hold : s.Holds 0 (UInt32.ofNat n)) (hQ : Q ⟨n, hn⟩ s) : Filled Q (n + 1) c' where
  curr := hc
  held j hj := by
    rw [hs]
    by_cases hjn : j = ⟨n, hn⟩
    · subst hjn
      simpa using ⟨hold, hQ⟩
    · rw [Function.update_of_ne hjn]
      exact h.held j (by have : (j : ℕ) ≠ n := fun he => hjn (Fin.ext he); omega)
  free j hj := by
    rw [hs, Function.update_of_ne (by rintro rfl; exact absurd hj (by simp))]
    exact h.free j (by omega)

theorem Opened.filled {D : DevLayer σ} (h : Opened D c) : Filled Q 0 c where
  curr := h.slots_curr.2
  held _ hj := absurd hj (Nat.not_lt_zero _)
  free j _ := h.slots_curr.1 j

/-- A change of one filled slot that keeps its block. -/
theorem Filled.update {Q' : Fin blockArraySize → Slot → Prop} (h : Filled Q n c) {c' : Cache σ}
    {i : Fin blockArraySize} {s : Slot} (hi : (i : ℕ) < n)
    (hs : c'.slots = Function.update c.slots i s) (hc : c'.curr < blockArraySize)
    (hold : s.Holds 0 (UInt32.ofNat i)) (hQi : Q' i s)
    (hQ : ∀ j, j ≠ i → Q j (c.slots j) → Q' j (c.slots j)) : Filled Q' n c' where
  curr := hc
  held j hj := by
    rw [hs]
    by_cases hji : j = i
    · subst hji
      simpa using ⟨hold, hQi⟩
    · rw [Function.update_of_ne hji]
      exact ⟨(h.held j hj).1, hQ j hji (h.held j hj).2⟩
  free j hj := by
    rw [hs, Function.update_of_ne (by rintro rfl; omega)]
    exact h.free j hj

theorem Filled.mono {Q' : Fin blockArraySize → Slot → Prop} (h : Filled Q n c)
    (hQ : ∀ j s, Q j s → Q' j s) : Filled Q' n c :=
  ⟨h.curr, fun j hj => ⟨(h.held j hj).1, hQ j _ (h.held j hj).2⟩, h.free⟩

/-- A filled slot is found again. -/
theorem Filled.place_hit (h : Filled Q n c) {i : Fin blockArraySize} (hi : (i : ℕ) < n) :
    c.place 0 (UInt32.ofNat i) = .hit i := by
  cases hs : search c.slots c.wrapCurr.curr 0 (UInt32.ofNat i) with
  | none => exact absurd (h.held i hi).1 (search_none hs i)
  | some j =>
      have hj := search_some hs
      have hjn : (j : ℕ) < n := by
        by_contra hn
        rw [h.free j (not_lt.mp hn)] at hj
        exact ofNat_ne_blockFreeMark (i.isLt.trans (by decide)) hj.1.symm
      have hij : (j : ℕ) = i := by
        refine ofNat_inj_of_lt (j.isLt.trans (by decide)) (i.isLt.trans (by decide)) ?_
        rw [← (h.held j hjn).1.1, hj.1]
      simp only [Cache.place, hs, Fin.ext hij]

end Filled

/-! ## The kernel build -/

section Kernel

theorem latestWrite_eq_none {dev : DevNo} {block : BlockNo} {es : List (Op × Reply)}
    (h : ∀ e ∈ es, writtenBy dev block e = none) : latestWrite dev block es = none := by
  induction es using List.reverseRecOn with
  | nil => rfl
  | append_singleton es e ih =>
      have he := h e (by simp)
      have hes := ih fun e he => h e (List.mem_append_left _ he)
      simp only [latestWrite, List.foldl_append, List.foldl_cons, List.foldl_nil, he] at hes ⊢
      rw [hes]
      rfl

/-- **The kernel cache refines a flat disk** in every run of which no call evicts a
dirty slot and no `block_disk_write_sync_cache` of a block that is not cached is left
without a slot. -/
theorem kernel_readsLatest {c : Cache Disk} (h : Opened kernelDev c) {ops : List Op}
    (hops : ∀ op ∈ ops, op.Valid)
    (hrun : (cacheMachine kernelDev).Admits (fun c op => op.KeepsDirty c ∧ op.HasVictim c) ops c) :
    ReadsLatest c.hw ((cacheMachine kernelDev).trace ops c) := by
  refine trace_readsLatest kernelDev_flat h (hrun.imp ops c ?_)
  intro op hop s hs
  refine ⟨hops op hop, ?_, Or.inr hs.1, hs.2⟩
  cases op <;> trivial

/-- A call cannot evict anything, or fail to find a slot, while a slot is free. -/
theorem keepsDirty_of_free {σ : Type} {c : Cache σ} {i : Fin blockArraySize}
    (hi : (c.slots i).map = blockFreeMark) (op : Op) : op.KeepsDirty c := by
  have hp : ∀ dev block j, c.place dev block ≠ .dirty j :=
    fun dev block j hp => (place_dirty hp).2.1 i hi
  cases op with
  | read dev block data => exact hp dev block
  | write dev block data => exact hp dev block
  | diskWriteSyncCache dev block data => exact hp dev block
  | _ => trivial

/-- The cache after the first `block_open` on a disk of zeroes. -/
def kernelStart : Cache Disk := (blockOpen kernelDev "/" 0 (Cache.boot fun _ _ => Sector.zero)).2.2

theorem kernel_readsLatest_write_read :
    ReadsLatest kernelStart.hw ((cacheMachine kernelDev).trace
      [.write 0 5 Sector.ones, .read 0 5 Sector.zero] kernelStart) := by
  have hfree : ∀ i, (kernelStart.slots i).map = blockFreeMark := fun _ => rfl
  have hwrite : (((cacheMachine kernelDev).step (.write 0 5 Sector.ones) kernelStart).2.slots 1).map =
      blockFreeMark := by
    have hp : kernelStart.place 0 5 = .free 0 :=
      place_eq_free (fun j hj => absurd hj.1 (by rw [hfree j]; decide)) (hfree 0)
        (fun j hj => absurd hj (by simp))
    simp only [cacheMachine, Op.step, blockWrite, hp]
    rfl
  refine kernel_readsLatest (opened_boot kernelDev "/" _) ?_ ⟨⟨?_, trivial⟩, ⟨?_, trivial⟩, trivial⟩
  · intro op hop
    simp only [List.mem_cons, List.not_mem_nil, or_false] at hop
    rcases hop with rfl | rfl <;> exact ⟨by decide, by decide⟩
  · exact keepsDirty_of_free (hfree 0) _
  · exact keepsDirty_of_free hwrite _

/-- Writes of the first `n` blocks of device 0. -/
def writeFirst (n : ℕ) : List Op :=
  (List.range n).map fun b => .write 0 (UInt32.ofNat b) Sector.ones

/-- Fill the table with dirty blocks, then read a block that is not cached. -/
def evictionRun : List Op := writeFirst blockArraySize ++ [.read 0 128 Sector.zero]

/-- A dirty slot of ones; the first one can be replaced. -/
def DirtyOnes (i : Fin blockArraySize) (s : Slot) : Prop :=
  s.dirty = true ∧ s.array = Sector.ones ∧ (i = 0 → s.lru < blockMaxLru)

theorem blockWrite_free {σ : Type} {D : DevLayer σ} {c : Cache σ} {dev : DevNo} {block : BlockNo}
    {i : Fin blockArraySize} (hp : c.place dev block = .free i) (hs : c.slots i = Slot.fresh)
    (data : Sector) :
    (blockWrite D dev block data c).2.slots =
        Function.update c.slots i ⟨true, c.scan.highest + 1, block, data, dev⟩ ∧
      (blockWrite D dev block data c).2.curr = i := by
  simp only [blockWrite, hp, writeInto, install, Cache.setSlot, Cache.wrapCurr_slots,
    Function.update_self, Function.update_idem, hs]
  exact ⟨rfl, trivial⟩

theorem filled_writeFirst {n : ℕ} (hn : n ≤ blockArraySize) :
    Filled DirtyOnes n ((cacheMachine kernelDev).exec (writeFirst n) kernelStart) := by
  induction n with
  | zero => exact (opened_boot kernelDev "/" _).filled
  | succ n ih =>
      have hF := ih (by omega)
      rw [writeFirst, List.range_succ, List.map_append, Lib.Machine.exec_append, ← writeFirst]
      obtain ⟨hs, hcurr⟩ := blockWrite_free (D := kernelDev) (hF.place hn) (hF.free _ le_rfl)
        Sector.ones
      refine hF.extend hn hs (hcurr ▸ hn) ⟨rfl, rfl⟩ ⟨rfl, rfl, fun h0 => ?_⟩
      obtain rfl : n = 0 := congrArg Fin.val h0
      decide

/-- A read of the kernel build that evicts a dirty slot of its own device returns the
data of its victim. -/
theorem kernel_blockRead_dirty {c : Cache Disk} {dev : DevNo} {block : BlockNo}
    {i : Fin blockArraySize} (hdev : ¬ dev < 0) (hp : c.place dev block = .dirty i)
    (hi : (c.slots i).dev = dev) (data : Sector) :
    ∃ c', blockRead kernelDev dev block data c = (.ok, (c.slots i).array, c') := by
  simp only [blockRead, if_neg hdev, hp, flush, readInto, fill, kernelDev, hi, Disk.set_self,
    Cache.setSlot, Function.update_self]
  exact ⟨_, rfl⟩

/-- **The kernel cache does not refine a flat disk.** A read that evicts a dirty slot
writes the victim over the block it is about to read, and returns the victim's data. -/
theorem kernel_evictionRun_reads_victim :
    Opened kernelDev kernelStart ∧ (∀ op ∈ evictionRun, op.Valid) ∧
      ¬ ReadsLatest kernelStart.hw ((cacheMachine kernelDev).trace evictionRun kernelStart) := by
  refine ⟨opened_boot kernelDev "/" _, ?_, ?_⟩
  · intro op hop
    rcases List.mem_append.mp hop with hop | hop
    · obtain ⟨b, hb, rfl⟩ := List.mem_map.mp hop
      rw [List.mem_range] at hb
      exact ⟨by decide, ofNat_ne_blockFreeMark (hb.trans (by decide))⟩
    · rw [List.mem_singleton.mp hop]
      exact ⟨by decide, by decide⟩
  · intro h
    have hF := filled_writeFirst le_rfl
    generalize hc : (cacheMachine kernelDev).exec (writeFirst blockArraySize) kernelStart = c at hF
    have hmiss : c.Misses 0 128 := hF.misses (m := 128) le_rfl (by decide)
    obtain ⟨i, hp⟩ := place_eq_dirty hmiss
      (fun i => ⟨by
        rw [(hF.held i i.isLt).1.1]
        exact ofNat_ne_blockFreeMark (i.isLt.trans (by decide)), (hF.held i i.isLt).2.1⟩)
      ((hF.held 0 (by decide)).2.2.2 rfl)
    have hread : (Op.step kernelDev (.read 0 128 Sector.zero) c).1 = ⟨.ok, some Sector.ones⟩ := by
      obtain ⟨c', hr⟩ := kernel_blockRead_dirty (by decide) hp (hF.held i i.isLt).1.2
        Sector.zero
      simp only [Op.step, hr, (hF.held i i.isLt).2.2.1]
    have htrace : (cacheMachine kernelDev).trace evictionRun kernelStart =
        (cacheMachine kernelDev).trace (writeFirst blockArraySize) kernelStart ++
          [(.read 0 128 Sector.zero, ⟨.ok, some Sector.ones⟩)] := by
      rw [evictionRun, Lib.Machine.trace_append, hc, ← hread, Lib.Machine.trace_cons,
        Lib.Machine.trace_nil, cacheMachine]
    have hlatest := h _ _ _ _ _ [] htrace rfl
    rw [latestWrite_eq_none] at hlatest
    · simp only [Option.getD_none, Option.some.injEq] at hlatest
      exact absurd (congrFun hlatest 0) (by decide)
    · intro e he
      have hop : e.1 ∈ writeFirst blockArraySize := by
        rw [← (cacheMachine kernelDev).map_fst_trace (writeFirst blockArraySize) kernelStart]
        exact List.mem_map_of_mem he
      obtain ⟨b, hb, hbe⟩ := List.mem_map.mp hop
      obtain ⟨op, r⟩ := e
      subst hbe
      rw [List.mem_range] at hb
      simp only [writtenBy]
      rw [if_neg]
      rintro ⟨-, hb', -⟩
      have := ofNat_inj_of_lt (b := 128) (hb.trans (by decide)) (by decide) hb'
      simp only [blockArraySize] at hb
      omega

end Kernel

/-! ## The user-space build -/

section User

/-- **The user-space cache refines a flat disk** in every run of which no
`block_disk_write_sync_cache` of a block that is not cached is left without a slot. -/
theorem user_readsLatest {c : Cache HostFiles} (h : Opened userDev c) {ops : List Op}
    (hops : ∀ op ∈ ops, op.Valid ∧ op.Addresses OffsetFits)
    (hrun : (cacheMachine userDev).Admits (fun c op => op.HasVictim c) ops c) :
    ReadsLatest c.hw.view ((cacheMachine userDev).trace ops c) := by
  refine trace_readsLatest userDev_flat h (hrun.imp ops c ?_)
  intro op hop s hs
  exact ⟨(hops op hop).1, (hops op hop).2, Or.inl userDev_scanAddressed, hs⟩

/-- Host files of zeroes, opened as descriptor 0. -/
def HostFiles.zero : HostFiles where
  descriptor _ := 0
  bytes _ _ := 0
  offset _ := 0

/-- The cache after the first `block_open` on a file of zeroes. -/
def userStart : Cache HostFiles := (blockOpen userDev "/" 0 (Cache.boot HostFiles.zero)).2.2

theorem offsetFits_ofNat {b : ℕ} (h : b < 8388608) : OffsetFits (UInt32.ofNat b) := by
  rw [OffsetFits, UInt32.toNat_ofNat_of_lt' (by simp only [UInt32.size]; omega)]
  simp only [devBlockSize]
  omega

theorem user_readsLatest_write_read :
    ReadsLatest userStart.hw.view ((cacheMachine userDev).trace
      [.diskWriteSyncCache 0 5 Sector.ones, .read 0 5 Sector.zero] userStart) := by
  refine user_readsLatest (opened_boot userDev "/" _) ?_ ⟨?_, trivial, trivial⟩
  · intro op hop
    simp only [List.mem_cons, List.not_mem_nil, or_false] at hop
    rcases hop with rfl | rfl <;> exact ⟨⟨by decide, by decide⟩, offsetFits_ofNat (b := 5) (by decide)⟩
  · have hfree : ∀ i, (userStart.slots i).map = blockFreeMark := fun _ => rfl
    have hp : userStart.place 0 5 = .free 0 :=
      place_eq_free (fun j hj => absurd hj.1 (by rw [hfree j]; decide)) (hfree 0)
        (fun j hj => absurd hj (by simp))
    show userStart.place 0 5 ≠ .full
    simp [hp]

/-- A `block_disk_write_sync_cache` without a victim fails, and the block reads as the
new data all the same. -/
theorem blockDiskWriteSyncCache_full {σ : Type} {D : DevLayer σ} {view : σ → Disk}
    {valid : BlockNo → Prop} {c : Cache σ} {F : Disk} {dev : DevNo} {block : BlockNo}
    (hD : FlatDev D view valid) (H : Rep view valid c F) (hp : c.place dev block = .full)
    (hb : block ≠ blockFreeMark) (hdev : 0 ≤ dev) (hv : valid block) (data : Sector) :
    ∃ c', blockDiskWriteSyncCache D dev block data c = (.fail, data, c') ∧
      c'.slots = c.slots ∧ Rep view valid c' (F.set dev block data) := by
  obtain ⟨found, c₁, heq, hR, -, hmiss, -⟩ := writeThrough_flat hD H hb hdev hv data
  have hfound : found = false := by
    cases found with
    | false => rfl
    | true =>
        have hm : c.Misses dev block := place_misses (by simp [hp])
        simp only [writeThrough, Cache.wrapCurr_slots, search_eq_none hm] at heq
        split at heq <;> simp at heq
  obtain ⟨-, hw, rfl⟩ := hmiss hfound
  have hp' : Cache.place { c with hw := hw } dev block = .full := hp
  refine ⟨_, ?_, ?_, hR.missed⟩
  · rw [blockDiskWriteSyncCache, heq, hfound]
    simp only [blockRead, if_neg (not_neg_of_nonneg hdev), hp']
  · rfl

/-- Read the first `n` blocks of device 0. -/
def readFirst (n : ℕ) : List Op :=
  (List.range n).map fun b => .read 0 (UInt32.ofNat b) Sector.zero

/-- Read each of the first `n` blocks of device 0 until its use counter is saturated. -/
def saturateFirst (n : ℕ) : List Op :=
  (List.range n).flatMap fun b =>
    List.replicate (2 ^ 32) (.read 0 (UInt32.ofNat b) Sector.zero)

/-- Fill the table and saturate every use counter. -/
def warmUp : List Op := readFirst blockArraySize ++ saturateFirst blockArraySize

/-- After the warm-up, write a block that is not cached, and read it back after a slot
has been freed. -/
def saturationRun : List Op :=
  warmUp ++ [.diskWriteSyncCache 0 200 Sector.ones, .free 0 0, .read 0 200 Sector.zero]

/-- Clean slots; the first `k` are saturated and slot `k` has been used `m` times. -/
def UsedUpTo (k m : ℕ) (i : Fin blockArraySize) (s : Slot) : Prop :=
  s.dirty = false ∧ ((i : ℕ) < k → s.lru = blockMaxLru) ∧ ((i : ℕ) = k → min m 4294967295 ≤ s.lru.toNat)

theorem blockRead_free {σ : Type} {D : DevLayer σ} {view : σ → Disk} {valid : BlockNo → Prop}
    (hD : FlatDev D view valid) {c : Cache σ} {dev : DevNo} {block : BlockNo}
    {i : Fin blockArraySize} (hdev : 0 ≤ dev) (hv : valid block)
    (hp : c.place dev block = .free i) (hs : c.slots i = Slot.fresh) (data : Sector) :
    ∃ x, (blockRead D dev block data c).2.2.slots =
        Function.update c.slots i ⟨false, c.scan.highest + 1, block, x, dev⟩ ∧
      (blockRead D dev block data c).2.2.curr = i := by
  obtain ⟨hw, hfill, -⟩ := fill_flat hD hdev hv i { c.wrapCurr with highest := c.scan.highest }
  simp only [blockRead, if_neg (not_neg_of_nonneg hdev), hp, readInto, hfill]
  simp only [install, Cache.setSlot, Cache.wrapCurr_slots, Function.update_self,
    Function.update_idem, hs]
  exact ⟨_, rfl, trivial⟩

theorem filled_readFirst {n : ℕ} (hn : n ≤ blockArraySize) :
    Filled (UsedUpTo 0 0) n ((cacheMachine userDev).exec (readFirst n) userStart) := by
  induction n with
  | zero => exact (opened_boot userDev "/" _).filled
  | succ n ih =>
      have hF := ih (by omega)
      rw [readFirst, List.range_succ, List.map_append, Lib.Machine.exec_append, ← readFirst]
      obtain ⟨x, hs, hcurr⟩ := blockRead_free userDev_flat (by decide)
        (offsetFits_ofNat (hn.trans (by decide))) (hF.place hn) (hF.free _ le_rfl) Sector.zero
      exact hF.extend hn hs (hcurr ▸ hn) ⟨rfl, rfl⟩ ⟨rfl, by simp, by simp⟩

theorem bumpLru_toNat (s : Slot) : s.bumpLru.lru.toNat = min (s.lru.toNat + 1) 4294967295 := by
  have hlt := s.lru.toNat_lt
  simp only [Slot.bumpLru, blockMaxLru, UInt32.lt_iff_toNat_lt, UInt32.toNat_ofNat, Nat.reducePow,
    Nat.reduceMod] at hlt ⊢
  split
  · simp only [UInt32.toNat_add, UInt32.toNat_ofNat, Nat.reducePow, Nat.reduceMod]
    omega
  · omega

/-- Reading a cached block again and again. -/
theorem filled_replicate {σ : Type} {D : DevLayer σ} {k : ℕ} (hk : k < blockArraySize) (r : ℕ) :
    ∀ (m : ℕ) (c : Cache σ), Filled (UsedUpTo k m) blockArraySize c →
      Filled (UsedUpTo k (m + r)) blockArraySize
        ((cacheMachine D).exec (List.replicate r (.read 0 (UInt32.ofNat k) Sector.zero)) c) := by
  induction r with
  | zero => intro m c h; exact h
  | succ r ih =>
      intro m c h
      rw [List.replicate_succ, Lib.Machine.exec_cons, Nat.add_comm r 1, ← Nat.add_assoc]
      refine ih (m + 1) _ ?_
      have hp : c.place 0 (UInt32.ofNat k) = .hit ⟨k, hk⟩ := h.place_hit (i := ⟨k, hk⟩) hk
      obtain ⟨hold, hd, -, hm⟩ := h.held ⟨k, hk⟩ hk
      have hstep : ((cacheMachine D).step (.read 0 (UInt32.ofNat k) Sector.zero) c).2 =
          { c.setSlot ⟨k, hk⟩ (c.slots ⟨k, hk⟩).bumpLru with curr := k } := by
        have hneg : ¬ (0 : DevNo) < 0 := by decide
        simp only [cacheMachine, Op.step, blockRead, if_neg hneg, hp]
      rw [hstep]
      refine h.update (i := ⟨k, hk⟩) hk rfl hk hold ⟨hd, by simp, fun _ => ?_⟩ ?_
      · have hm' := hm rfl
        have hb := bumpLru_toNat (c.slots ⟨k, hk⟩)
        omega
      · rintro j hj ⟨h1, h2, -⟩
        exact ⟨h1, h2, fun he => absurd (Fin.ext he) hj⟩

theorem filled_saturateFirst {σ : Type} {D : DevLayer σ} {c : Cache σ}
    (h : Filled (UsedUpTo 0 0) blockArraySize c) {k : ℕ} (hk : k ≤ blockArraySize) :
    Filled (UsedUpTo k 0) blockArraySize ((cacheMachine D).exec (saturateFirst k) c) := by
  induction k with
  | zero => exact h
  | succ k ih =>
      rw [saturateFirst, List.range_succ, List.flatMap_append, Lib.Machine.exec_append,
        ← saturateFirst]
      have hr := filled_replicate (D := D) hk (2 ^ 32) 0 _ (ih (by omega))
      rw [List.flatMap_cons, List.flatMap_nil, List.append_nil]
      refine hr.mono ?_
      rintro j s ⟨h1, h2, h3⟩
      refine ⟨h1, fun hj => ?_, by simp⟩
      rcases Nat.lt_succ_iff_lt_or_eq.mp hj with hj | hj
      · exact h2 hj
      · refine UInt32.toNat_inj.mp ?_
        have hlt := s.lru.toNat_lt
        have hmax : blockMaxLru.toNat = 4294967295 := rfl
        have := h3 hj
        omega

theorem mem_warmUp {op : Op} (h : op ∈ warmUp) :
    ∃ b, b < blockArraySize ∧ op = .read 0 (UInt32.ofNat b) Sector.zero := by
  rcases List.mem_append.mp h with h | h
  · obtain ⟨b, hb, rfl⟩ := List.mem_map.mp h
    exact ⟨b, List.mem_range.mp hb, rfl⟩
  · obtain ⟨b, hb, hop⟩ := List.mem_flatMap.mp h
    exact ⟨b, List.mem_range.mp hb, List.eq_of_mem_replicate hop⟩

theorem mem_saturationRun {op : Op} (h : op ∈ saturationRun) :
    op.Valid ∧ op.Addresses OffsetFits := by
  rcases List.mem_append.mp h with h | h
  · obtain ⟨b, hb, rfl⟩ := mem_warmUp h
    exact ⟨⟨by decide, ofNat_ne_blockFreeMark (hb.trans (by decide))⟩,
      offsetFits_ofNat (hb.trans (by decide))⟩
  · simp only [List.mem_cons, List.not_mem_nil, or_false] at h
    rcases h with rfl | rfl | rfl
    · exact ⟨⟨by decide, by decide⟩, offsetFits_ofNat (b := 200) (by decide)⟩
    · exact ⟨⟨by decide, by decide⟩, offsetFits_ofNat (b := 0) (by decide)⟩
    · exact ⟨⟨by decide, by decide⟩, offsetFits_ofNat (b := 200) (by decide)⟩

/-- After the warm-up no slot can be replaced, and the cache still represents a disk. -/
theorem exec_warmUp :
    Filled (UsedUpTo blockArraySize 0) blockArraySize
        ((cacheMachine userDev).exec warmUp userStart) ∧
      ∃ F, Rep HostFiles.view OffsetFits ((cacheMachine userDev).exec warmUp userStart) F := by
  constructor
  · rw [warmUp, Lib.Machine.exec_append]
    exact filled_saturateFirst (filled_readFirst le_rfl) le_rfl
  · have hstep : ∀ s F op, Rep HostFiles.view OffsetFits s F →
        op.Served userDev HostFiles.view OffsetFits s →
        Rep HostFiles.view OffsetFits ((cacheMachine userDev).step op s).2
          (flatUpdate op ((cacheMachine userDev).step op s).1 F) :=
      fun s F op hR hg => (Op.step_flat userDev_flat hR hg.1 hg.2.1 hg.2.2.1 hg.2.2.2).2
    refine ⟨_, Lib.Machine.exec_simulates hstep warmUp userStart _
      (opened_boot userDev "/" _).rep (.of_forall _ _ ?_)⟩
    intro op hop s
    have hv := mem_saturationRun (List.mem_append_left _ hop)
    obtain ⟨b, hb, rfl⟩ := mem_warmUp hop
    exact ⟨hv.1, hv.2, Or.inl userDev_scanAddressed, trivial⟩

/-- **The user-space cache does not refine a flat disk either.** When all use counters
are saturated, a `block_disk_write_sync_cache` reports a failure and has changed the
device; once a slot is free again the block reads as the data of the failed write. -/
theorem user_saturationRun_reads_failed_write :
    Opened userDev userStart ∧ (∀ op ∈ saturationRun, op.Valid ∧ op.Addresses OffsetFits) ∧
      ¬ ReadsLatest userStart.hw.view ((cacheMachine userDev).trace saturationRun userStart) := by
  refine ⟨opened_boot userDev "/" _, fun op hop => mem_saturationRun hop, fun h => ?_⟩
  obtain ⟨hF, F, hR⟩ := exec_warmUp
  generalize hc : (cacheMachine userDev).exec warmUp userStart = c at hF hR
  have hocc : ∀ i, (c.slots i).map ≠ blockFreeMark ∧ (c.slots i).lru = blockMaxLru := fun i =>
    ⟨by
      rw [(hF.held i i.isLt).1.1]
      exact ofNat_ne_blockFreeMark (i.isLt.trans (by decide)), (hF.held i i.isLt).2.2.1 i.isLt⟩
  have hmiss : c.Misses 0 200 := hF.misses (m := 200) (by decide) (by decide)
  have hfits : OffsetFits 200 := offsetFits_ofNat (b := 200) (by decide)
  -- The write fails, but the device has taken the data.
  obtain ⟨c₁, hwrite, hslots, hR₁⟩ := blockDiskWriteSyncCache_full userDev_flat hR
    (place_eq_full hmiss hocc) (by decide) (by decide) hfits Sector.ones
  -- Slot 0 is clean and becomes free.
  have hfree : blockFree userDev 0 0 c₁ = (.ok, release 0 c₁) := by
    have hneg : ¬ (0 : DevNo) < 0 := by decide
    have hfind : ((List.finRange blockArraySize).find? fun i => (c₁.slots i).Holds 0 0) = some 0 := by
      refine Lib.find?_finRange_eq_some ?_ fun j hj => absurd hj (by simp)
      rw [hslots]
      simpa using (hF.held 0 (by decide)).1
    have hclean : (c₁.slots 0).dirty = false := by
      rw [hslots]
      exact (hF.held 0 (by decide)).2.1
    simp only [blockFree, if_neg hneg, hfind, hclean, Bool.false_eq_true, if_false]
  have hR₂ : Rep HostFiles.view OffsetFits (release 0 c₁) (F.set 0 200 Sector.ones) := by
    have hR' : Rep HostFiles.view OffsetFits (blockFree userDev 0 0 c₁).2 _ :=
      blockFree_flat userDev_flat hR₁ (by decide) (by decide) (offsetFits_ofNat (b := 0) (by decide))
    rwa [hfree] at hR'
  have hplace : (release 0 c₁).place 0 200 = .free 0 := by
    refine place_eq_free (fun j hj => ?_) (by simp [release, Cache.setSlot])
      (fun j hj => absurd hj (by simp))
    by_cases hj0 : j = 0
    · subst hj0
      exact absurd hj.1 (by simp [release, Cache.setSlot, blockFreeMark])
    · refine hmiss j ?_
      rw [← hslots]
      simpa [release, Cache.setSlot, Function.update_of_ne hj0] using hj
  have hevicts : Evicts userDev HostFiles.view OffsetFits (release 0 c₁) 0 200 :=
    Or.inl userDev_scanAddressed
  obtain ⟨c₂, hread, -⟩ | ⟨hfull, -⟩ := blockRead_flat userDev_flat hR₂ hevicts (by decide)
    (by decide) hfits Sector.zero
  · have htrace : (cacheMachine userDev).trace saturationRun userStart =
        ((cacheMachine userDev).trace warmUp userStart ++
          [(.diskWriteSyncCache 0 200 Sector.ones, ⟨.fail, some Sector.ones⟩),
            (.free 0 0, ⟨.ok, none⟩)]) ++
          [(.read 0 200 Sector.zero, ⟨.ok, some Sector.ones⟩)] := by
      rw [saturationRun, Lib.Machine.trace_append, hc, List.append_assoc]
      simp only [Lib.Machine.trace_cons, Lib.Machine.trace_nil, cacheMachine, Op.step, hwrite,
        hfree, hread, Disk.set_self, List.cons_append, List.nil_append]
    have hlatest := h _ _ _ _ _ [] htrace rfl
    rw [latestWrite_eq_none] at hlatest
    · simp only [Option.getD_none, Option.some.injEq] at hlatest
      exact absurd (congrFun hlatest 0) (by decide)
    · intro e he
      rcases List.mem_append.mp he with he | he
      · have hop : e.1 ∈ warmUp := by
          rw [← (cacheMachine userDev).map_fst_trace warmUp userStart]
          exact List.mem_map_of_mem he
        obtain ⟨b, -, hb⟩ := mem_warmUp hop
        obtain ⟨op, r⟩ := e
        subst hb
        rfl
      · simp only [List.mem_cons, List.not_mem_nil, or_false] at he
        rcases he with rfl | rfl
        · simp [writtenBy]
        · rfl
  · rw [hplace] at hfull
    cases hfull

end User

end OxKernel.Fs
