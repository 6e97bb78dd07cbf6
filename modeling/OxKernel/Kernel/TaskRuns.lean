import OxKernel.Kernel.Tasks
import OxKernel.Lib.Tally
import OxKernel.Mm.Page

/-!
# Process numbers and task descriptors over whole runs

`kgenpid` counts modulo 2 ^ 30 and never looks at the table, and the descriptors are written with
functions that only set bits. What comes of either depends on whether an entry of the GDT is used
again. As it is compiled, `free_process` gives no entry back, because its store to `GDT_MAP` goes
through a pointer that is made of the first entries of the map: `alloc_gdt` panics long before the
generator comes round.

## Main results

* `process_ids_distinct` — the numbers are distinct in every run.
* `task_descriptors` — if entries may be given back, the descriptors are right as long as the
  entries that are used again have no bits that the new descriptors do not have.
-/
namespace OxKernel.Kernel

open Lib (tally)
open Platform (SegmentDescriptor)
open Platform.SegmentDescriptor (Covered sizeofTss)

namespace TaskCall
variable {close : Process → Tables} {offset : UInt32} {store : GdtStore} {c c' : Tasks}
  {call : TaskCall} {p proc parent : Ptr} {i : Fin nrGdt} {exec eip : UInt32} {s : State}
  {map map' : Fin nrGdt → UInt8} {addr : ℕ}

/-! ## The numbers -/

/-- The numbers come from the generator, which has not come round. -/
structure Numbered (c : Tasks) : Prop where
  lower : 2 ≤ c.state.nextPid.toInt
  upper : c.state.nextPid.toInt ≤ 2 ^ 30
  pid : ∀ p ∈ c.forked, 2 ≤ (c.state.mem p).pid.toInt ∧
    (c.state.mem p).pid.toInt < c.state.nextPid.toInt
  inj : ∀ p ∈ c.forked, ∀ p' ∈ c.forked, (c.state.mem p).pid = (c.state.mem p').pid → p = p'

theorem Numbered.distinctPids (h : Numbered c) : c.DistinctPids := by
  refine ⟨fun p hp => ⟨?_, ?_⟩, h.inj⟩
  · intro hz
    have hpid := (h.pid p hp).1
    rw [hz] at hpid
    exact absurd hpid (by decide)
  · intro hz
    have hpid := (h.pid p hp).1
    rw [hz] at hpid
    exact absurd hpid (by decide)

theorem Leaves.mem_forked (h : Leaves store c c') (hp : p ∈ c'.forked) : p ∈ c.forked :=
  ⟨h.live p hp.1, h.creator ▸ hp.2⟩

theorem Leaves.numbered (h : Leaves store c c') (hn : Numbered c) : Numbered c' := by
  refine ⟨by rw [h.nextPid]; exact hn.lower, by rw [h.nextPid]; exact hn.upper, ?_, ?_⟩
  · intro p hp
    rw [h.pid p hp.1, h.nextPid]
    exact hn.pid p (h.mem_forked hp)
  · intro p hp p' hp' heq
    rw [h.pid p hp.1, h.pid p' hp'.1] at heq
    exact hn.inj p (h.mem_forked hp) p' (h.mem_forked hp') heq

/-- The number of a new process, as long as the generator has not come round. -/
theorem nextPid_mod {n : Int32} (h0 : 0 ≤ n.toInt) (h : n.toInt < 2 ^ 30) :
    n % 1073741824 = n := by
  apply Int32.toInt_inj.mp
  rw [Int32.toInt_mod]
  exact Int.tmod_eq_of_lt h0 h

theorem toInt_add_one {n : Int32} (h0 : 0 ≤ n.toInt) (h : n.toInt < 2 ^ 30) :
    (n + 1).toInt = n.toInt + 1 := by
  rw [Int32.toInt_add]
  exact Int.bmod_eq_of_le (by simp; omega) (by simp; omega)

theorem Fork.numbered (h : Fork offset proc exec eip c c' parent i s) (hn : Numbered c)
    (hlt : c.state.nextPid.toInt < 2 ^ 30) : Numbered c' := by
  have h0 : 0 ≤ c.state.nextPid.toInt := by have := hn.lower; omega
  have hnew : (c'.state.mem proc).pid = c.state.nextPid := by
    rw [h.pid_new, nextPid_mod h0 hlt]
  have hnext : c'.state.nextPid.toInt = c.state.nextPid.toInt + 1 := by
    rw [h.nextPid, toInt_add_one h0 hlt]
  have hother : ∀ p ∈ c.forked, (c'.state.mem p).pid ≠ c.state.nextPid := by
    intro p hp heq
    rw [h.pid_old hp.1] at heq
    have hpid := (hn.pid p hp).2
    rw [heq] at hpid
    omega
  refine ⟨by have := hn.lower; omega, by omega, fun p hp => ?_, fun p hp p' hp' heq => ?_⟩
  · rw [hnext]
    rcases h.mem_forked.mp hp with rfl | hp
    · rw [hnew]
      exact ⟨hn.lower, by omega⟩
    · rw [h.pid_old hp.1]
      exact ⟨(hn.pid p hp).1, by have := (hn.pid p hp).2; omega⟩
  · rcases h.mem_forked.mp hp with rfl | hp
    · rcases h.mem_forked.mp hp' with rfl | hp'
      · rfl
      · exact absurd (heq.symm.trans hnew) (hother p' hp')
    · rcases h.mem_forked.mp hp' with rfl | hp'
      · exact absurd (heq.trans hnew) (hother p hp)
      · rw [h.pid_old hp.1, h.pid_old hp'.1] at heq
        exact hn.inj p hp p' hp' heq

/-- The state that `scheduler_init` leaves. -/
theorem init_cases (h : (system close offset store).init c) : ∃ proc, ∃ i : Fin nrGdt, ∃ gdt,
    (∀ k : Fin nrGdt, 6 ≤ (k : ℕ) → gdt k = .zero) ∧ 6 ≤ (i : ℕ) ∧
    c.gdt = loadTssInGdt gdt (proc.1 + offset).toBitVec 0 i ∧ c.live = {proc} ∧
    (c.creator = fun _ => none) ∧ c.state.nextPid = 2 ∧ c.slot proc = i ∧
    c.state.gdtMap i = 1 ∧ ∀ k : Fin nrGdt, (k : ℕ) < 6 → c.state.gdtMap k = 1 := by
  obtain ⟨proc, init, s₀, s, i, gdt, htab, hnext, hmap, hzeroed, halloc, hrun, hgdt, hlive,
    hcreator, hkept⟩ := h
  rw [ForkCall.schedulerInit_run (htab 0) halloc] at hrun
  cases hrun
  have hproc : proc ∈ c.live := by
    rw [hlive]
    rfl
  have hi : 6 ≤ (i : ℕ) := by
    by_contra hlt
    have hzero := freeGdt_eq_some halloc
    rw [hmap i, if_pos (not_le.mp hlt)] at hzero
    exact absurd hzero (by decide)
  have hgdtMap : c.state.gdtMap = Function.update s₀.gdtMap i 1 := hkept.gdtMap
  refine ⟨proc, i, gdt, hzeroed, hi, hgdt, hlive, hcreator, ?_, ?_, ?_, fun k hk => ?_⟩
  · rw [hkept.nextPid]
    exact hnext
  · rw [Tasks.slot, hkept.tssSeg proc hproc]
    have htss : ((((ForkCall.started s₀ proc i init).setNext proc (some proc)).setPrev proc
        (some proc)).mem proc).tssSeg = UInt16.ofNat (i * 8) := by
      simp [State.setNext, State.setPrev, ForkCall.started]
    exact (congrArg gdtIndex htss).trans (gdtIndex_ofNat i)
  · rw [hgdtMap, Function.update_self]
  · have hne : k ≠ i := by
      rintro rfl
      omega
    rw [hgdtMap, Function.update_of_ne hne, hmap, if_pos hk]

theorem numbered_init (h : (system close offset store).init c) : Numbered c := by
  obtain ⟨proc, i, gdt, -, -, -, -, hcreator, hnext, -⟩ := init_cases h
  have hnone : ∀ p, p ∉ c.forked := fun p hp => hp.2 (by rw [hcreator])
  refine ⟨?_, ?_, fun p hp => absurd hp (hnone p), fun p hp => absurd hp (hnone p)⟩
  · rw [hnext]
    decide
  · rw [hnext]
    decide

/-- The entries of the kernel that make up the pointer are in use, and for every process there was
an entry. -/
structure Counted (c : Tasks) : Prop where
  kernel : ∀ k : Fin nrGdt, (k : ℕ) < 4 → c.state.gdtMap k = 1
  used : c.state.nextPid.toInt ≤ tally (fun b => b ≠ 0) c.state.gdtMap + 2

/-- **The store misses the map**, which is in front of what it takes for a pointer. -/
theorem compiledStore_iff (haddr : addr + nrGdt ≤ Mm.kernelEnd.toNat)
    (hkernel : ∀ k : Fin nrGdt, (k : ℕ) < 4 → map k = 1) :
    compiledStore addr map i map' ↔ map' = map := by
  have hpointer : gdtMapPointer map = 16843009 := by
    rw [gdtMapPointer, hkernel 0 (by decide), hkernel 1 (by decide), hkernel 2 (by decide),
      hkernel 3 (by decide)]
    rfl
  have hend : Mm.kernelEnd.toNat = 2097152 := rfl
  have hmiss : (fun k : Fin nrGdt => if gdtMapPointer map + 4 * i ≤ addr + k ∧
      addr + k < gdtMapPointer map + 4 * i + 4 then 0 else map k) = map := by
    funext k
    have hk := k.isLt
    rw [hpointer]
    exact if_neg fun hin => by omega
  rw [compiledStore, hmiss]

theorem Counted.lt (h : Counted c) : c.state.nextPid.toInt < 2 ^ 30 := by
  have hle : tally (fun b => b ≠ 0) c.state.gdtMap ≤ nrGdt := by
    have hcard := Lib.tally_le (c := fun b : UInt8 => b ≠ 0) (f := c.state.gdtMap)
    rwa [Fintype.card_fin] at hcard
  have hused := h.used
  have hnr : nrGdt = 8192 := rfl
  omega

theorem counted_init (h : (system close offset store).init c) : Counted c := by
  obtain ⟨proc, i, gdt, -, -, -, -, -, hnext, -, -, hkernel⟩ := init_cases h
  refine ⟨fun k hk => hkernel k (by omega), ?_⟩
  have htwo : (2 : Int32).toInt = 2 := rfl
  rw [hnext, htwo]
  omega

theorem Fork.counted (h : Fork offset proc exec eip c c' parent i s) (hn : Numbered c)
    (hc : Counted c) : Counted c' := by
  have hfree : c.state.gdtMap i = 0 := freeGdt_eq_some h.alloc
  refine ⟨fun k hk => ?_, ?_⟩
  · have hne : k ≠ i := by
      rintro rfl
      rw [hc.kernel k hk] at hfree
      exact absurd hfree (by decide)
    rw [h.gdtMap, Function.update_of_ne hne]
    exact hc.kernel k hk
  · have hlower := hn.lower
    have hused := hc.used
    have hgain := Lib.tally_gain (c := fun b : UInt8 => b ≠ 0) (f := c.state.gdtMap) (i := i)
      (x := 1) (not_not.mpr hfree) (by decide)
    rw [h.gdtMap, hgain, h.nextPid, toInt_add_one (by omega) hc.lt]
    push_cast
    omega

theorem Leaves.counted (h : Leaves (compiledStore addr) c c')
    (haddr : addr + nrGdt ≤ Mm.kernelEnd.toNat) (hc : Counted c) : Counted c' := by
  have hmap : c'.state.gdtMap = c.state.gdtMap := by
    rcases h.gdtMap with hmap | ⟨p, -, -, hstore⟩
    · exact hmap
    · exact (compiledStore_iff haddr hc.kernel).mp hstore
  refine ⟨fun k hk => ?_, ?_⟩
  · rw [hmap]
    exact hc.kernel k hk
  · rw [hmap, h.nextPid]
    exact hc.used

/-- **The numbers of the processes** that `kfork` made are distinct, and neither 0 nor 1, in every
state of every run: `alloc_gdt` panics before the generator comes round. The map is in the image of
the kernel, which ends at `KERNEL_END`. -/
theorem process_ids_distinct (haddr : addr + nrGdt ≤ Mm.kernelEnd.toNat)
    (h : (system close offset (compiledStore addr)).Reach (fun _ _ => True) c) :
    c.DistinctPids := by
  have hinv : Numbered c ∧ Counted c := by
    refine Lib.System.Reach.invariant (P := fun c => Numbered c ∧ Counted c)
      (fun c hc => ⟨numbered_init hc, counted_init hc⟩) (fun c call c' hinv _ hstep => ?_) h
    obtain ⟨hn, hc⟩ := hinv
    rcases hstep.cases with ⟨proc, exec, eip, parent, i, s, rfl, hfork⟩ | ⟨-, hleaves⟩
    · exact ⟨hfork.numbered hn hc.lt, hfork.counted hn hc⟩
    · exact ⟨hleaves.numbered hn, hleaves.counted haddr hc⟩
  exact hinv.1.distinctPids

/-- A process is made and freed, and two others are made after it. -/
theorem process_ids_distinct_three : ∃ c,
    (system ForkCall.noFiles 0 (compiledStore (2 ^ 20))).Reach (fun _ _ => True) c ∧
      secondProcess ∈ c.forked ∧ thirdProcess ∈ c.forked ∧ c.DistinctPids := by
  have haddr : 2 ^ 20 + nrGdt ≤ Mm.kernelEnd.toNat := by decide
  have hkernel : ∀ k : Fin nrGdt, (k : ℕ) < 4 →
      Function.update (firstTasks 0).state.gdtMap 7 1 k = 1 := by
    intro k hk
    have h7 : k ≠ 7 := by
      rintro rfl
      exact absurd hk (by decide)
    have h6 : k ≠ 6 := by
      rintro rfl
      exact absurd hk (by decide)
    have hmap : (firstTasks 0).state.gdtMap = Function.update bootState.gdtMap 6 1 := rfl
    rw [Function.update_of_ne h7, hmap, Function.update_of_ne h6]
    exact if_pos (by omega)
  obtain ⟨c₁, c₂, s, hfork, hfree, hsingle, -, hmap, -⟩ :=
    single_firstTasks.round (b := secondProcess) (by decide) firstTasks_alloc ForkCall.noFiles 0 0 0
      _ ((compiledStore_iff haddr hkernel).mpr rfl)
  have hboot : c₂.state.gdtMap = Function.update (Function.update bootState.gdtMap 6 1) 7 1 := hmap
  obtain ⟨c₃, c₄, s₃, s₄, hfork₃, hfork₄, -⟩ :=
    hsingle.twice (b := secondProcess) (d := thirdProcess) (i := 8) (j := 9) (by decide)
      (by rw [hboot]; decide) (by decide) (by decide) 0 0 0 (by rw [hboot]; decide)
  have hreach₁ : (system ForkCall.noFiles 0 (compiledStore (2 ^ 20))).Reach (fun _ _ => True) c₁ :=
    reach_fork (.init init_firstTasks) trivial hfork
  have hreach₂ : (system ForkCall.noFiles 0 (compiledStore (2 ^ 20))).Reach (fun _ _ => True) c₂ :=
    .step (c := free secondProcess) hreach₁ trivial hfree
  have hreach := reach_fork (reach_fork hreach₂ trivial hfork₃) trivial hfork₄
  exact ⟨c₄, hreach, hfork₄.mem_forked.mpr (.inr (hfork₃.mem_forked.mpr (.inl rfl))),
    hfork₄.mem_forked.mpr (.inl rfl), process_ids_distinct haddr hreach⟩

/-! ## The descriptors -/

/-- The entries are described, and in use. -/
structure Slotted (offset : UInt32) (c : Tasks) : Prop where
  described : c.Described offset
  used : ∀ p ∈ c.live, c.state.gdtMap (c.slot p) ≠ 0

theorem Leaves.slotted (h : Leaves mayGiveBack c c') (hs : Slotted offset c) :
    Slotted offset c' := by
  refine ⟨⟨fun p hp => ?_, fun p hp p' hp' heq => ?_⟩, fun p hp => ?_⟩
  · rw [h.gdt, h.slot p hp, Tasks.privilegeOf, h.creator]
    exact hs.described.entry p (h.live p hp)
  · rw [h.slot p hp, h.slot p' hp'] at heq
    exact hs.described.inj p (h.live p hp) p' (h.live p' hp') heq
  · rw [h.slot p hp]
    rcases h.gdtMap with hmap | ⟨x, hx, hgone, hmap | hmap⟩
    · rw [hmap]
      exact hs.used p (h.live p hp)
    · rw [hmap]
      exact hs.used p (h.live p hp)
    · -- The entry that is given back is not that of another process.
      have hne : c.slot p ≠ c.slot x := by
        intro heq
        rw [hs.described.inj p (h.live p hp) x hx heq] at hp
        exact hgone hp
      rw [hmap, Function.update_of_ne hne]
      exact hs.used p (h.live p hp)

/-- The entry that `alloc_gdt` gives out for a process. -/
theorem Fork.freshEntry_iff (h : Fork offset proc exec eip c c' parent i s) :
    FreshEntry offset c (fork proc exec eip) ↔
      (c.gdt i).Covered (proc.1 + offset).toBitVec (privilege (c.state.mem parent).euid) := by
  refine ⟨fun hfresh => hfresh parent i h.current h.alloc, fun hcov parent' i' hcur halloc => ?_⟩
  obtain rfl : parent = parent' := Option.some.inj (h.current.symm.trans hcur)
  obtain rfl : i = i' := Option.some.inj (h.alloc.symm.trans halloc)
  exact hcov

section Fork
variable (h : Fork offset proc exec eip c c' parent i s) (hs : Slotted offset c)
include h hs

/-- A new process gets an entry of its own. -/
theorem Fork.slot_ne (hp : p ∈ c.live) : c.slot p ≠ i := by
  intro heq
  exact hs.used p hp (heq ▸ freeGdt_eq_some h.alloc)

/-- **`load_tss_in_gdt`** makes the right descriptor exactly if the entry has no other bits. -/
theorem Fork.described_iff : c'.Described offset ↔
    (c.gdt i).Covered (proc.1 + offset).toBitVec (privilege (c.state.mem parent).euid) := by
  have hentry : (c'.gdt (c'.slot proc)).Describes (proc.1 + offset).toBitVec
      (c'.privilegeOf proc) ↔
      (c.gdt i).Covered (proc.1 + offset).toBitVec (privilege (c.state.mem parent).euid) := by
    rw [h.slot_new, h.privilegeOf_new, h.gdt, loadTssInGdt, Function.update_self]
    exact SegmentDescriptor.protectInitTsssegment_describes_iff _ _ (privilege_cases _)
  rw [← hentry]
  refine ⟨fun hd => hd.entry proc h.proc_mem, fun hd => ⟨fun p hp => ?_, fun p hp p' hp' heq => ?_⟩⟩
  · rcases h.mem_live.mp hp with rfl | hp
    · exact hd
    · rw [h.slot_old hp, Tasks.privilegeOf, h.creator_old hp, h.gdt, loadTssInGdt,
        Function.update_of_ne (h.slot_ne hs hp)]
      exact hs.described.entry p hp
  · rcases h.mem_live.mp hp with rfl | hp
    · rcases h.mem_live.mp hp' with rfl | hp'
      · rfl
      · rw [h.slot_new, h.slot_old hp'] at heq
        exact absurd heq.symm (h.slot_ne hs hp')
    · rcases h.mem_live.mp hp' with rfl | hp'
      · rw [h.slot_new, h.slot_old hp] at heq
        exact absurd heq (h.slot_ne hs hp)
      · rw [h.slot_old hp, h.slot_old hp'] at heq
        exact hs.described.inj p hp p' hp' heq

theorem Fork.used (hp : p ∈ c'.live) : c'.state.gdtMap (c'.slot p) ≠ 0 := by
  rw [h.gdtMap]
  rcases h.mem_live.mp hp with rfl | hp
  · rw [h.slot_new, Function.update_self]
    decide
  · rw [h.slot_old hp, Function.update_of_ne (h.slot_ne hs hp)]
    exact hs.used p hp

end Fork

theorem slotted_init (h : (system close offset store).init c) : Slotted offset c := by
  obtain ⟨proc, i, gdt, hgdt, hi, hc, hlive, hcreator, -, hslot, hmap, -⟩ := init_cases h
  have hone : ∀ p ∈ c.live, p = proc := by
    intro p hp
    rw [hlive] at hp
    exact hp
  refine ⟨⟨fun p hp => ?_, fun p hp p' hp' _ => (hone p hp).trans (hone p' hp').symm⟩,
    fun p hp => ?_⟩
  · rw [hone p hp, hslot, hc, loadTssInGdt, Function.update_self, hgdt i hi, Tasks.privilegeOf,
      hcreator]
    exact SegmentDescriptor.newTss_describes _ (.inl rfl)
  · rw [hone p hp, hslot, hmap]
    decide

/-- **The descriptors of the tasks** are right, and no two processes have one entry, in every
state of a run in which no entry is used again that has a bit which the new descriptor does not
have; and `kfork` with such an entry makes a wrong descriptor. -/
theorem task_descriptors (h : (system close offset mayGiveBack).Reach (FreshEntry offset) c) :
    c.Described offset ∧ ∀ call c', Step close offset mayGiveBack call c c' →
      (c'.Described offset ↔ FreshEntry offset c call) := by
  have hs : Slotted offset c := by
    refine h.invariant (fun c hc => slotted_init hc) fun c call c' hs hg hstep => ?_
    rcases hstep.cases with ⟨proc, exec, eip, parent, i, s, rfl, hf⟩ | ⟨-, hleaves⟩
    · exact ⟨(hf.described_iff hs).mpr (hf.freshEntry_iff.mp hg), fun p hp => hf.used hs hp⟩
    · exact hleaves.slotted hs
  refine ⟨hs.described, fun call c' hstep => ?_⟩
  rcases hstep.cases with ⟨proc, exec, eip, parent, i, s, rfl, hf⟩ | ⟨hnot, hleaves⟩
  · exact (hf.described_iff hs).trans hf.freshEntry_iff.symm
  · refine iff_of_true (hleaves.slotted hs).described ?_
    cases call with
    | fork proc exec eip => exact absurd rfl (hnot proc exec eip)
    | exit e exitCode => trivial
    | free p => trivial

/-- A descriptor of the task state does for the same address and privilege level again. -/
theorem covered_of_describes {d : SegmentDescriptor} {base : BitVec 32} {level : BitVec 8}
    (h : d.Describes base level) : d.Covered base level where
  base := by rw [h.base, BitVec.or_self]
  limit := by rw [h.limit, BitVec.or_self]
  dpl := by rw [h.dpl, BitVec.or_self]
  type := by rw [h.type, BitVec.or_self]

/-- A zeroed entry does for every task state. -/
theorem covered_zero {base : BitVec 32} {level : BitVec 8} (h : level = 0 ∨ level = 3) :
    SegmentDescriptor.zero.Covered base level :=
  (SegmentDescriptor.protectInitTsssegment_describes_iff _ _ h).mp
    (SegmentDescriptor.newTss_describes base h)

/-- A process is made and freed, and its entry is used again at the same address; a third process
gets a new entry. -/
theorem task_descriptors_three : ∃ c,
    (system ForkCall.noFiles 0 mayGiveBack).Reach (FreshEntry 0) c ∧ secondProcess ∈ c.forked ∧
      thirdProcess ∈ c.forked ∧ c.slot secondProcess = 7 ∧ c.Described 0 ∧
      ∀ call c', Step ForkCall.noFiles 0 mayGiveBack call c c' →
        (c'.Described 0 ↔ FreshEntry 0 c call) := by
  obtain ⟨c₁, c₂, s, hfork, hfree, hsingle, hgdt₂, hmap, -, heuid⟩ :=
    single_firstTasks.round (b := secondProcess) (by decide) firstTasks_alloc ForkCall.noFiles 0 0 0
      mayGiveBack (.inr rfl)
  have hboot : c₂.state.gdtMap = Function.update (Function.update
      (Function.update bootState.gdtMap 6 1) 7 1) 7 0 := hmap
  obtain ⟨c₃, c₄, s₃, s₄, hfork₃, hfork₄, -⟩ :=
    hsingle.twice (b := secondProcess) (d := thirdProcess) (i := 7) (j := 8) (by decide)
      (by rw [hboot]; decide) (by decide) (by decide) 0 0 0 (by rw [hboot]; decide)
  have hzeroed : ∀ k : Fin nrGdt, k ≠ 6 → (firstTasks 0).gdt k = .zero := by
    intro k hk
    show Function.update (fun _ : Fin nrGdt => SegmentDescriptor.zero) 6 _ k = _
    rw [Function.update_of_ne hk]
  have hfresh : FreshEntry 0 (firstTasks 0) (fork secondProcess 0 0) := by
    rw [hfork.freshEntry_iff, hzeroed 7 (by decide)]
    exact covered_zero (privilege_cases _)
  have hfresh₃ : FreshEntry 0 c₂ (fork secondProcess 0 0) := by
    rw [hfork₃.freshEntry_iff, heuid, hgdt₂, hfork.gdt, loadTssInGdt, Function.update_self,
      hzeroed 7 (by decide)]
    exact covered_of_describes (SegmentDescriptor.newTss_describes _ (privilege_cases _))
  have hfresh₄ : FreshEntry 0 c₃ (fork thirdProcess 0 0) := by
    rw [hfork₄.freshEntry_iff, hfork₃.gdt, hgdt₂, hfork.gdt, loadTssInGdt, loadTssInGdt,
      Function.update_of_ne (by decide), Function.update_of_ne (by decide), hzeroed 8 (by decide)]
    exact covered_zero (privilege_cases _)
  have hreach := reach_fork (reach_fork (.step (c := free secondProcess)
    (reach_fork (.init init_firstTasks) hfresh hfork) trivial hfree) hfresh₃ hfork₃) hfresh₄ hfork₄
  refine ⟨c₄, hreach, hfork₄.mem_forked.mpr (.inr (hfork₃.mem_forked.mpr (.inl rfl))),
    hfork₄.mem_forked.mpr (.inl rfl), ?_, task_descriptors hreach⟩
  rw [hfork₄.slot_old hfork₃.proc_mem, hfork₃.slot_new]

/-- An entry that is given back and used again keeps the bits of the address before. -/
theorem descriptor_used_again : ¬ ∀ (close : Process → Tables) (offset : UInt32) (c : Tasks),
    (system close offset mayGiveBack).Reach (fun _ _ => True) c → c.Described offset := by
  intro h
  obtain ⟨c₁, c₂, s, hfork, hfree, hsingle₂, hgdt₂, hmap₂, -⟩ :=
    single_firstTasks.round (b := thirdProcess) (by decide) firstTasks_alloc ForkCall.noFiles 0 0 0
      mayGiveBack (.inr rfl)
  have halloc : freeGdt c₂.state.gdtMap nrGdt 0 = some 7 := by
    have hboot : c₂.state.gdtMap = Function.update (Function.update
        (Function.update bootState.gdtMap 6 1) 7 1) 7 0 := hmap₂
    rw [hboot]
    decide
  have hfork₃ := hsingle₂.fork (b := secondProcess) (by decide) halloc 0 0 0
  have hreach₁ : (system ForkCall.noFiles 0 mayGiveBack).Reach (fun _ _ => True) c₁ :=
    reach_fork (.init init_firstTasks) trivial hfork
  have hreach₂ : (system ForkCall.noFiles 0 mayGiveBack).Reach (fun _ _ => True) c₂ :=
    .step (c := free thirdProcess) hreach₁ trivial hfree
  have hreach₃ := reach_fork hreach₂ trivial hfork₃
  have hthird := (h _ _ c₁ hreach₁).entry thirdProcess hfork.proc_mem
  have hsecond := (h _ _ _ hreach₃).entry secondProcess hfork₃.proc_mem
  rw [hfork.slot_new] at hthird
  rw [hfork₃.slot_new, hfork₃.gdt, loadTssInGdt, Function.update_self] at hsecond
  have hbase := ((SegmentDescriptor.protectInitTsssegment_describes_iff _ _
    (privilege_cases _)).mp (hfork₃.privilegeOf_new ▸ hsecond)).base
  rw [hgdt₂, hthird.base] at hbase
  exact absurd hbase (by decide)

end TaskCall
end OxKernel.Kernel
