import OxKernel.Fs.CacheBuilds
import OxKernel.Fs.CacheFailures

/-!
# Victims of the cache

The replacement scan takes a slot only if its use counter is below `BLOCK_MAX_LRU`, and the
counter of a slot that is used stays at `BLOCK_MAX_LRU` once it is there. When all slots are in
use and saturated, a request for a block that is not cached finds no victim, and `block_read`
and `block_write` come to the last return, which the source takes for impossible.

## Main definitions

* `Cache.Saturated` — no slot is free and every use counter is at `BLOCK_MAX_LRU`.
* `FindsVictim` — the guard of the runs without a failure.

## Main results

* `place_full_iff` — when a request finds no slot.
* `exec_never_fails_iff` — the runs in which no `block_read` or `block_write` fails.
* `user_saturated_read_fails` — a run in which one does.
-/
namespace OxKernel.Fs

/-- All slots are in use, and all use counters are saturated. -/
def Cache.Saturated {σ : Type} (c : Cache σ) : Prop :=
  ∀ i, (c.slots i).map ≠ blockFreeMark ∧ (c.slots i).lru = blockMaxLru

/-! ## Requests without a slot -/

theorem eq_blockMaxLru {x : BlockNo} (h : ¬ x < blockMaxLru) : x = blockMaxLru := by
  have hlt := x.toNat_lt
  have hmax : blockMaxLru.toNat = 4294967295 := rfl
  rw [UInt32.lt_iff_toNat_lt, hmax] at h
  rw [← UInt32.toNat_inj, hmax]
  omega

/-- A scan without a pointer has seen saturated slots only. -/
theorem scanSlots_none {slots : Slots} :
    ∀ (is : List (Fin blockArraySize)) (a : Scan),
      (a.lowestCleanPtr = none → a.lowestClean = blockMaxLru) →
      (a.lowestDirtyPtr = none → a.lowestDirty = blockMaxLru) →
      (∀ i ∈ is, (slots i).map ≠ blockFreeMark) →
      (scanSlots slots is a).lowestCleanPtr = none → (scanSlots slots is a).lowestDirtyPtr = none →
      a.lowestCleanPtr = none ∧ a.lowestDirtyPtr = none ∧
        ∀ i ∈ is, (slots i).lru = blockMaxLru := by
  intro is
  induction is with
  | nil => exact fun a _ _ _ hc hd => ⟨hc, hd, fun _ hi => absurd hi List.not_mem_nil⟩
  | cons i is ih =>
      intro a hclean hdirty hocc hc hd
      rw [scanSlots, if_neg (hocc i List.mem_cons_self)] at hc hd
      have hvc : (a.visit i (slots i)).lowestCleanPtr = none →
          (a.visit i (slots i)).lowestClean = blockMaxLru := by
        simp only [Scan.visit]
        split
        · simp
        · exact hclean
      have hvd : (a.visit i (slots i)).lowestDirtyPtr = none →
          (a.visit i (slots i)).lowestDirty = blockMaxLru := by
        simp only [Scan.visit]
        split
        · simp
        · exact hdirty
      obtain ⟨hpc, hpd, hrest⟩ :=
        ih _ hvc hvd (fun j hj => hocc j (List.mem_cons_of_mem _ hj)) hc hd
      simp only [Scan.visit] at hpc hpd
      have hnc : ¬ ((slots i).dirty = false ∧ (slots i).lru < a.lowestClean) := fun h => by
        rw [if_pos h] at hpc
        cases hpc
      have hnd : ¬ ((slots i).dirty = true ∧ (slots i).lru < a.lowestDirty) := fun h => by
        rw [if_pos h] at hpd
        cases hpd
      rw [if_neg hnc] at hpc
      rw [if_neg hnd] at hpd
      rw [hclean hpc] at hnc
      rw [hdirty hpd] at hnd
      refine ⟨hpc, hpd, List.forall_mem_cons.mpr ⟨?_, hrest⟩⟩
      cases hdirt : (slots i).dirty with
      | false => exact eq_blockMaxLru fun hlt => hnc ⟨hdirt, hlt⟩
      | true => exact eq_blockMaxLru fun hlt => hnd ⟨hdirt, hlt⟩

section Place
variable {σ : Type} {c : Cache σ} {dev : DevNo} {block : BlockNo}

/-- A request finds no slot exactly if the block is not cached and the table is saturated. -/
theorem place_full_iff : c.place dev block = .full ↔ c.Misses dev block ∧ c.Saturated := by
  constructor
  · intro h
    have hm : c.Misses dev block := place_misses (by simp [h])
    rw [Cache.place, search_eq_none hm] at h
    simp only at h
    split at h
    · cases h
    · cases h
    · cases h
    · rename_i hfree hclean hdirty
      have hocc := Cache.scan_free_none hfree
      obtain ⟨-, -, hlru⟩ := scanSlots_none (List.finRange blockArraySize) (Scan.start c.highest)
        (fun _ => rfl) (fun _ => rfl) (fun i _ => hocc i) hclean hdirty
      exact ⟨hm, fun i => ⟨hocc i, hlru i (List.mem_finRange i)⟩⟩
  · exact fun h => place_eq_full h.1 h.2

end Place

/-! ## Calls over a working device -/

section Calls
variable {σ : Type} {W : DevLayer σ} {view : σ → Disk} {valid : BlockNo → Prop} {a : Addressing}
  {c : Cache σ} {dev : DevNo} {block : BlockNo}

/-- `block_read` fails for want of a slot only. -/
theorem blockRead_fails_iff (hW : WorkingDev W view valid a) (ho : c.Owned valid) (hdev : 0 ≤ dev)
    (hv : valid block) (data : Sector) :
    (blockRead W dev block data c).1 = .fail ↔ c.place dev block = .full := by
  obtain ⟨c', hread⟩ := blockRead_working hW ho hdev hv data
  rw [hread, readReply]
  cases c.place dev block <;> simp

/-- `block_write` fails for want of a slot only. -/
theorem blockWrite_fails_iff (hW : WorkingDev W view valid a) (ho : c.Owned valid)
    (data : Sector) : (blockWrite W dev block data c).1 = .fail ↔ c.place dev block = .full := by
  rw [blockWrite]
  cases hp : c.place dev block with
  | hit i => simp
  | free i => simp
  | clean i => simp
  | dirty i =>
      -- The victim is written back first, and its label is a proper one.
      obtain ⟨hdi, hvi⟩ := ho i ((place_dirty hp).2.1 i)
      obtain ⟨hw₁, hscan, -⟩ := hW.flat.scan (c.slots i).dev (c.slots i).map c.hw hdi
      obtain ⟨hw₂, hwrite, -⟩ :=
        hW.write (c.slots i).dev (c.slots i).map block (c.slots i).array c.hw hdi hvi
      rw [hscan] at hwrite
      simp [flush, hscan, hwrite]
  | full => simp

end Calls

/-! ## Runs -/

/-- A `block_read` or `block_write` does not return `BLOCK_FAIL`. -/
def Op.Answers : Op → Reply → Prop
  | .read .., r => r.rtvl ≠ .fail
  | .write .., r => r.rtvl ≠ .fail
  | _, _ => True

/-- A read or a write is of a cached block, or the table has a slot that is free or below
`BLOCK_MAX_LRU`. -/
def FindsVictim {σ : Type} (c : Cache σ) : Op → Prop
  | .read dev block _ => ¬ (c.Misses dev block ∧ c.Saturated)
  | .write dev block _ => ¬ (c.Misses dev block ∧ c.Saturated)
  | _ => True

/-- **The runs without a failure**, over a device that works: every read and write meets a state
in which its block is cached or the table is not saturated. -/
theorem exec_never_fails_iff {σ : Type} {W : DevLayer σ} {view : σ → Disk}
    {valid : BlockNo → Prop} {a : Addressing} (hW : WorkingDev W view valid a) {c : Cache σ}
    (h : Opened W c) {ops : List Op} (hops : ∀ op ∈ ops, op.Valid ∧ op.Addresses valid) :
    (∀ e ∈ (cacheMachine W).trace ops c, e.1.Answers e.2) ↔
      (cacheMachine W).Admits FindsVictim ops c := by
  have howned : c.Owned valid := fun i hi => absurd (by rw [h.slots_curr.1 i]; rfl) hi
  have hkeep : ∀ (c : Cache σ) (op : Op), c.Owned valid → op.Valid ∧ op.Addresses valid →
      ((cacheMachine W).step op c).2.Owned valid := fun c op ho hop => ho.step hop.1 hop.2
  apply Lib.Machine.forall_trace_iff hkeep ?_ ops c howned hops
  intro c op ho hop
  cases op with
  | read dev block data =>
      have hiff := blockRead_fails_iff hW ho hop.1.1 hop.2 data
      simp [cacheMachine, Op.step, Op.Answers, FindsVictim, hiff, place_full_iff]
  | write dev block data =>
      have hiff : (blockWrite W dev block data c).1 = .fail ↔ c.place dev block = .full :=
        blockWrite_fails_iff hW ho data
      simp [cacheMachine, Op.step, Op.Answers, FindsVictim, hiff, place_full_iff]
  | free dev block => simp [Op.Answers, FindsVictim]
  | sync dev => simp [Op.Answers, FindsVictim]
  | diskWrite dev block data => simp [Op.Answers, FindsVictim]
  | diskWriteSyncCache dev block data => simp [Op.Answers, FindsVictim]

theorem exec_never_fails_write_read :
    (∀ e ∈ (cacheMachine kernelDev).trace [.write 0 5 Sector.ones, .read 0 5 Sector.zero]
        kernelStart, e.1.Answers e.2) ↔
      (cacheMachine kernelDev).Admits FindsVictim [.write 0 5 Sector.ones, .read 0 5 Sector.zero]
        kernelStart := by
  refine exec_never_fails_iff kernelDev_working (opened_boot kernelDev "/" _) ?_
  intro op hop
  simp only [List.mem_cons, List.not_mem_nil, or_false] at hop
  rcases hop with rfl | rfl <;> exact ⟨⟨by decide, by decide⟩, trivial⟩

/-- A run that ends in a saturated table, and a read of one more block. -/
theorem read_fails_of_saturated {σ : Type} {W : DevLayer σ} {view : σ → Disk}
    {valid : BlockNo → Prop} {a : Addressing} (hW : WorkingDev W view valid a) {c : Cache σ}
    {ops : List Op} {dev : DevNo} {block : BlockNo}
    (howned : ((cacheMachine W).exec ops c).Owned valid) (hdev : 0 ≤ dev) (hv : valid block)
    (hmiss : ((cacheMachine W).exec ops c).Misses dev block)
    (hsat : ((cacheMachine W).exec ops c).Saturated) (data : Sector) :
    ¬ ∀ e ∈ (cacheMachine W).trace (ops ++ [.read dev block data]) c,
      e.1.Answers e.2 := by
  intro hall
  have hfail : (blockRead W dev block data ((cacheMachine W).exec ops c)).1 = .fail :=
    (blockRead_fails_iff hW howned hdev hv data).mpr (place_full_iff.mpr ⟨hmiss, hsat⟩)
  rw [Lib.Machine.trace_append] at hall
  exact hall _ (List.mem_append_right _ List.mem_cons_self) hfail

/-- **A read without a victim.** When all counters have been saturated by reads, a read of one
more block fails, though the device works. -/
theorem user_saturated_read_fails :
    Opened userDev userStart ∧
      (∀ op ∈ warmUp ++ [.read 0 200 Sector.zero], op.Valid ∧ op.Addresses OffsetFits) ∧
      ¬ ∀ e ∈ (cacheMachine userDev).trace (warmUp ++ [.read 0 200 Sector.zero]) userStart,
        e.1.Answers e.2 := by
  have hfits : OffsetFits 200 := offsetFits_ofNat (b := 200) (by decide)
  have hwarm : ∀ op ∈ warmUp, op.Valid ∧ op.Addresses OffsetFits := fun op hop =>
    mem_saturationRun (List.mem_append_left _ hop)
  have hopened : Opened userDev userStart := opened_boot userDev "/" _
  obtain ⟨hF, -⟩ := exec_warmUp
  refine ⟨hopened, ?_, ?_⟩
  · intro op hop
    rcases List.mem_append.mp hop with hop | hop
    · exact hwarm op hop
    · rw [List.mem_singleton.mp hop]
      exact ⟨⟨by decide, by decide⟩, hfits⟩
  · refine read_fails_of_saturated userDev_working (exec_owned hopened hwarm) (by decide) hfits
      (hF.misses (m := 200) (by decide) (by decide)) (fun i => ⟨?_, ?_⟩) Sector.zero
    · rw [(hF.held i i.isLt).1.1]
      exact ofNat_ne_blockFreeMark (i.isLt.trans (by decide))
    · exact (hF.held i i.isLt).2.2.1 i.isLt

end OxKernel.Fs
