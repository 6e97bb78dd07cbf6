import OxKernel.Fs.CacheRefinement

/-!
# What a failed read leaves in the cache

`block_read` transfers straight into the buffer of the slot it is about to give away.
On the free path a failed transfer leaves the slot free. On the two eviction paths the
victim still carries its label, and its dirty bit, when the transfer fails, so whatever
the transfer left in the buffer is what the victim reads as from then on.

The module compares the cache before and after a failed call through a later read over
a working device. The device that fails is any `FaultyDev`: it may fail where it likes
and fill a buffer as it likes, but it changes no sector it was not asked to write.
The two builds differ in which sector that is, see `Addressing`.

## Main definitions

* `Addressing`, `FaultyDev`, `WorkingDev` — what is known of the two devices.
* `SameLabels` — two tables that differ in their buffers only.
* `KeepsVictim` — the failing transfer left the buffer of the victim as it was.
* `Harmless` — no other block reads differently and no dirty slot has changed.
-/
namespace OxKernel.Fs

/-! ## The devices -/

/-- The sector a write goes to. -/
inductive Addressing
  /-- The one last scanned to, as under `_USER_SPACE`. -/
  | scanned
  /-- The one of the number passed to the driver, as in the kernel. -/
  | numbered
  deriving DecidableEq, Repr

/-- Where a write of number `block` after a scan to `sector` lands. -/
def Addressing.target : Addressing → BlockNo → BlockNo → BlockNo
  | .scanned, sector, _ => sector
  | .numbered, _, block => block

/-- A device that may fail: only a write changes a sector, and only its own. -/
structure FaultyDev {σ : Type} (D : DevLayer σ) (view : σ → Disk) (valid : BlockNo → Prop)
    (a : Addressing) : Prop where
  scan : ∀ dev block hw, view (D.devScan dev block hw).2 = view hw
  read : ∀ dev block data hw, view (D.devRead dev block data hw).2.2 = view hw
  write : ∀ dev sector block data hw d b, valid sector → ¬ (d = dev ∧ b = a.target sector block) →
    view (D.devWrite dev block data (D.devScan dev sector hw).2).2 d b = view hw d b

/-- A device that works: a flat array of sectors, each write to the sector of the build. -/
structure WorkingDev {σ : Type} (D : DevLayer σ) (view : σ → Disk) (valid : BlockNo → Prop)
    (a : Addressing) : Prop where
  flat : FlatDev D view valid
  write : ∀ dev sector block data hw, 0 ≤ dev → valid sector →
    ∃ hw', D.devWrite dev block data (D.devScan dev sector hw).2 = (.ok, hw') ∧
      view hw' = (view hw).set dev (a.target sector block) data

theorem kernelDev_working : WorkingDev kernelDev id (fun _ => True) .numbered where
  flat := kernelDev_flat
  write dev _ block data d _ _ := ⟨d.set dev block data, rfl, rfl⟩

theorem userDev_working : WorkingDev userDev HostFiles.view OffsetFits .scanned where
  flat := userDev_flat
  write dev sector block data h := userDev_scanAddressed dev sector block data h

theorem kernelDev_faulty : FaultyDev kernelDev id (fun _ => True) .numbered where
  scan _ _ _ := rfl
  read _ _ _ _ := rfl
  write _ _ _ _ _ _ _ _ h := Disk.set_of_ne h

theorem userDev_faulty : FaultyDev userDev HostFiles.view OffsetFits .scanned where
  scan dev block h := by
    simp only [userDev]
    split <;> rfl
  read dev block data h := by
    simp only [userDev]
    split <;> rfl
  write dev sector block data h d b hv hne := by
    by_cases hneg : dev < 0
    · simp [userDev, hneg]
    · simp only [userDev, hneg, if_false, toNat_mul_blockSize hv]
      have ho : (h.seek dev (sector.toNat * devBlockSize)).offset dev =
          sector.toNat * devBlockSize := by
        simp [HostFiles.seek]
      rw [HostFiles.view_seek, HostFiles.view_writeAt ho]
      apply Disk.set_of_ne hne

/-! ## Tables that differ in their buffers -/

/-- The tables agree in everything but the buffers. -/
def SameLabels (s t : Slots) : Prop := ∀ i, ∃ x, t i = { s i with array := x }

namespace SameLabels
variable {s t : Slots} (h : SameLabels s t)
include h

theorem map (i : Fin blockArraySize) : (t i).map = (s i).map := by
  obtain ⟨x, hx⟩ := h i
  simp [hx]

theorem dev (i : Fin blockArraySize) : (t i).dev = (s i).dev := by
  obtain ⟨x, hx⟩ := h i
  simp [hx]

theorem dirty (i : Fin blockArraySize) : (t i).dirty = (s i).dirty := by
  obtain ⟨x, hx⟩ := h i
  simp [hx]

theorem holds (i : Fin blockArraySize) (d : DevNo) (b : BlockNo) :
    (t i).Holds d b ↔ (s i).Holds d b := by
  simp [Slot.Holds, h.map, h.dev]

theorem search (curr : ℕ) (d : DevNo) (b : BlockNo) :
    search t curr d b = search s curr d b := by
  simp [OxKernel.Fs.search, h.holds]

/-- The replacement scan does not look at the buffers. -/
theorem scanSlots (is : List (Fin blockArraySize)) (a : Scan) :
    scanSlots t is a = scanSlots s is a := by
  induction is generalizing a with
  | nil => rfl
  | cons i is ih =>
      obtain ⟨x, hx⟩ := h i
      have hv : a.visit i (t i) = a.visit i (s i) := by simp [Scan.visit, hx]
      simp only [OxKernel.Fs.scanSlots, h.map, hv, ih]

end SameLabels

theorem SameLabels.refl (s : Slots) : SameLabels s s := fun _ => ⟨_, rfl⟩

theorem SameLabels.update (s : Slots) (i : Fin blockArraySize) (x : Sector) :
    SameLabels s (Function.update s i { s i with array := x }) := by
  intro j
  by_cases hj : j = i
  · subst hj
    exact ⟨x, by simp⟩
  · exact ⟨(s j).array, by simp [Function.update_of_ne hj]⟩

/-- The use count the scan starts from reaches none of its pointers. -/
theorem scanSlots_highest (s : Slots) (is : List (Fin blockArraySize)) (a : Scan) (h : BlockNo) :
    ∃ h', scanSlots s is { a with highest := h } = { scanSlots s is a with highest := h' } := by
  induction is generalizing a h with
  | nil => exact ⟨h, rfl⟩
  | cons i is ih =>
      simp only [scanSlots]
      split
      · exact ⟨h, rfl⟩
      · exact ih (a.visit i (s i)) (if h < (s i).lru then (s i).lru else h)

section Place
variable {σ : Type} {c c' : Cache σ}

/-- A request goes to the same place in two tables that differ in their buffers. -/
theorem place_congr (hs : SameLabels c.slots c'.slots) (hc : c'.wrapCurr.curr = c.wrapCurr.curr)
    (dev : DevNo) (block : BlockNo) : c'.place dev block = c.place dev block := by
  have hscan : ∃ h, c'.scan = { c.scan with highest := h } := by
    obtain ⟨h, hh⟩ := scanSlots_highest c.slots (List.finRange blockArraySize)
      (Scan.start c.highest) c'.highest
    refine ⟨h, ?_⟩
    rw [Cache.scan, hs.scanSlots, Cache.scan, ← hh]
    rfl
  obtain ⟨h, hh⟩ := hscan
  simp only [Cache.place, hs.search, hc, hh]

/-- Two blocks that are not cached are served by the same slot. -/
theorem place_eq_of_misses {dev dev' : DevNo} {block block' : BlockNo} (h : c.Misses dev block)
    (h' : c.Misses dev' block') : c.place dev' block' = c.place dev block := by
  have hnone : ∀ d b, c.Misses d b → search c.slots c.wrapCurr.curr d b = none := by
    intro d b hm
    cases hs : search c.slots c.wrapCurr.curr d b with
    | none => rfl
    | some i => exact absurd (search_some hs) (hm i)
  simp only [Cache.place, hnone _ _ h, hnone _ _ h']

/-- A cached block is served by the slot that holds it. -/
theorem place_of_holds {dev : DevNo} {block : BlockNo} {i : Fin blockArraySize}
    (hu : SlotsOk c.slots) (hb : block ≠ blockFreeMark) (h : (c.slots i).Holds dev block) :
    c.place dev block = .hit i := by
  have hhit : ∃ j, c.place dev block = .hit j := by
    by_contra hno
    exact place_misses (fun j hj => hno ⟨j, hj⟩) i h
  obtain ⟨j, hj⟩ := hhit
  obtain ⟨hm, hd⟩ := place_hit hj
  rw [hj, hu.unique i j (by rw [h.1]; exact hb) (h.1.trans hm.symm) (h.2.trans hd.symm)]

end Place

/-! ## A read over a working device -/

/-- The labels in use name a proper device and a sector it can address. -/
def Cache.Owned {σ : Type} (valid : BlockNo → Prop) (c : Cache σ) : Prop :=
  ∀ i, (c.slots i).map ≠ blockFreeMark → 0 ≤ (c.slots i).dev ∧ valid (c.slots i).map

namespace Cache.Owned
variable {σ : Type} {D : DevLayer σ} {valid : BlockNo → Prop} {c : Cache σ} {dev : DevNo}
  {block : BlockNo} {i : Fin blockArraySize}

/-- A slot may change if its new label is a proper one. -/
theorem update (h : c.Owned valid) {c' : Cache σ} {s : Slot}
    (hs : c'.slots = Function.update c.slots i s)
    (hl : s.map ≠ blockFreeMark → 0 ≤ s.dev ∧ valid s.map) : c'.Owned valid := by
  intro j hj
  rw [hs] at hj ⊢
  by_cases hji : j = i
  · subst hji
    simpa using hl (by simpa using hj)
  · simp only [Function.update_of_ne hji] at hj ⊢
    exact h j hj

theorem flushed {sector : BlockNo} {data : Sector} {r : DevRtvl} {c' : Cache σ}
    (h : c.Owned valid) (heq : flush D dev sector block data c = (r, c')) : c'.Owned valid := by
  obtain ⟨r', hw, heq'⟩ := flush_eq D dev sector block data c
  obtain ⟨-, rfl⟩ := Prod.ext_iff.mp (heq.symm.trans heq')
  exact h

theorem readInto {data : Sector} (h : c.Owned valid) (hdev : 0 ≤ dev) (hv : valid block) :
    (readInto D dev block data i c).2.2.Owned valid := by
  obtain ⟨r, x, hw, heq⟩ := fill_eq D dev block i c
  have hfill : Cache.Owned valid { c.setSlot i { c.slots i with array := x } with hw := hw } :=
    h.update rfl (h i)
  rw [OxKernel.Fs.readInto, heq]
  cases r with
  | ok => exact hfill.update rfl fun _ => ⟨hdev, hv⟩
  | fail => exact hfill
  | param => exact hfill

theorem blockRead {data : Sector} (h : c.Owned valid) (hdev : 0 ≤ dev) (hv : valid block) :
    (blockRead D dev block data c).2.2.Owned valid := by
  have hm : Cache.Owned valid { c.wrapCurr with highest := c.scan.highest } := h
  simp only [OxKernel.Fs.blockRead, not_neg_of_nonneg hdev, if_false]
  split
  · rename_i i _
    exact h.update rfl (h i)
  · exact readInto hm hdev hv
  · exact readInto hm hdev hv
  · split
    · rename_i heq
      exact readInto (hm.flushed heq) hdev hv
    · rename_i heq
      exact hm.flushed heq
  · exact hm

theorem writeInto {data : Sector} (h : c.Owned valid) (hdev : 0 ≤ dev) (hv : valid block) :
    (writeInto dev block data i c).Owned valid := by
  have hset : Cache.Owned valid (c.setSlot i { c.slots i with array := data }) :=
    h.update rfl (h i)
  exact hset.update rfl fun _ => ⟨hdev, hv⟩

theorem blockWrite {data : Sector} (h : c.Owned valid) (hdev : 0 ≤ dev) (hv : valid block) :
    (blockWrite D dev block data c).2.Owned valid := by
  have hm : Cache.Owned valid { c.wrapCurr with highest := c.scan.highest } := h
  rw [OxKernel.Fs.blockWrite]
  split
  · rename_i i _
    exact h.update rfl (h i)
  · exact writeInto hm hdev hv
  · exact writeInto hm hdev hv
  · split
    · rename_i heq
      exact writeInto (hm.flushed heq) hdev hv
    · rename_i heq
      exact hm.flushed heq
  · exact hm

theorem release (h : c.Owned valid) : (release i c).Owned valid :=
  h.update rfl fun hne => absurd rfl hne

theorem blockFree (h : c.Owned valid) : (blockFree D dev block c).2.Owned valid := by
  rw [OxKernel.Fs.blockFree]
  split
  · exact h
  · split
    · exact h
    · rename_i i _
      split
      · split
        · rename_i heq
          exact (h.flushed heq).release
        · rename_i heq
          exact h.flushed heq
      · exact h.release

theorem writeThrough {data : Sector} (h : c.Owned valid) :
    (writeThrough D dev block data c).2.2.Owned valid := by
  have hwrap : c.wrapCurr.Owned valid := h
  simp only [OxKernel.Fs.writeThrough]
  split
  · rename_i i _
    have hset : Cache.Owned valid (c.wrapCurr.setSlot i { c.slots i with array := data }) :=
      h.update rfl (h i)
    split <;> (rename_i heq; exact hset.flushed heq)
  · split <;> (rename_i heq; exact hwrap.flushed heq)

theorem blockSync (h : c.Owned valid) : (blockSync D dev c).2.Owned valid := by
  have hslot : ∀ (i : Fin blockArraySize) (r : BlockRtvl × Cache σ), r.2.Owned valid →
      (syncSlot D dev i r).2.Owned valid := by
    intro i r hr
    have hw := @writeThrough σ D valid _ dev (r.2.slots i).map (r.2.slots i).array hr
    simp only [syncSlot, blockDiskWrite]
    split
    · split
      · rename_i heq
        rw [heq] at hw
        exact hw
      · rename_i heq
        rw [heq] at hw
        exact hw.update rfl (hw i)
    · exact hr
  have hfold : ∀ (is : List (Fin blockArraySize)) (r : BlockRtvl × Cache σ), r.2.Owned valid →
      (is.foldl (fun r i => syncSlot D dev i r) r).2.Owned valid := by
    intro is
    induction is with
    | nil => intro r hr; exact hr
    | cons i is ih => intro r hr; exact ih _ (hslot i r hr)
  exact hfold _ _ h

theorem step {op : Op} (hop : op.Valid) (ha : op.Addresses valid) (h : c.Owned valid) :
    (op.step D c).2.Owned valid := by
  cases op with
  | read dev block data => exact h.blockRead hop.1 ha
  | write dev block data => exact h.blockWrite hop.1 ha
  | free dev block => exact h.blockFree
  | sync dev =>
      simp only [Op.step]
      exact h.blockSync
  | diskWrite dev block data => exact h.writeThrough
  | diskWriteSyncCache dev block data =>
      have hw := @writeThrough σ D valid _ dev block data h
      simp only [Op.step, blockDiskWriteSyncCache]
      split
      · rename_i heq
        rw [heq] at hw
        exact hw.blockRead hop.1 ha
      · rename_i heq
        rw [heq] at hw
        exact hw

end Cache.Owned

/-- **Every reachable table is owned**, whatever the device does. -/
theorem exec_owned {σ : Type} {D : DevLayer σ} {valid : BlockNo → Prop} {c : Cache σ}
    (h : Opened D c) {ops : List Op} (hops : ∀ op ∈ ops, op.Valid ∧ op.Addresses valid) :
    ((cacheMachine D).exec ops c).Owned valid :=
  Lib.Machine.exec_invariant (P := Cache.Owned valid)
    (fun _ _ hs hg => Cache.Owned.step hg.1 hg.2 hs) ops c
    (fun i hi => absurd (by rw [h.slots_curr.1 i]; rfl) hi)
    (.of_forall ops c fun op hop _ => hops op hop)

section Reply
variable {σ : Type} {view : σ → Disk} {valid : BlockNo → Prop} {a : Addressing}
  {c c' : Cache σ} {dev : DevNo} {block : BlockNo}

/-- What `block_read` answers over a device that works, by the place of the request. -/
def readReply (view : σ → Disk) (a : Addressing) (dev : DevNo) (block : BlockNo) (data : Sector)
    (c : Cache σ) : BlockRtvl × Sector :=
  match c.place dev block with
  | .hit i => (.ok, (c.slots i).array)
  | .free _ => (.ok, view c.hw dev block)
  | .clean _ => (.ok, view c.hw dev block)
  | .dirty i =>
    (.ok, (view c.hw).set (c.slots i).dev (a.target (c.slots i).map block) (c.slots i).array
      dev block)
  | .full => (.fail, data)

theorem readInto_working {W : DevLayer σ} (hW : WorkingDev W view valid a) (hdev : 0 ≤ dev)
    (hv : valid block) (data : Sector) (i : Fin blockArraySize) (c : Cache σ) :
    ∃ c', readInto W dev block data i c = (.ok, view c.hw dev block, c') := by
  obtain ⟨hw, hfill, -⟩ := fill_flat hW.flat hdev hv i c
  simp [readInto, hfill, Cache.setSlot]

theorem blockRead_working {W : DevLayer σ} (hW : WorkingDev W view valid a) (ho : c.Owned valid)
    (hdev : 0 ≤ dev) (hv : valid block) (data : Sector) :
    ∃ c', blockRead W dev block data c =
      ((readReply view a dev block data c).1, (readReply view a dev block data c).2, c') := by
  simp only [blockRead, not_neg_of_nonneg hdev, if_false, readReply]
  cases hp : c.place dev block with
  | hit i => exact ⟨_, rfl⟩
  | free i => exact readInto_working hW hdev hv data i _
  | clean i => exact readInto_working hW hdev hv data i _
  | dirty i =>
      obtain ⟨hdi, hvi⟩ := ho i ((place_dirty hp).2.1 i)
      obtain ⟨hw₁, hscan, -⟩ := hW.flat.scan (c.slots i).dev (c.slots i).map c.hw hdi
      obtain ⟨hw₂, hwrite, hview⟩ :=
        hW.write (c.slots i).dev (c.slots i).map block (c.slots i).array c.hw hdi hvi
      rw [hscan] at hwrite
      obtain ⟨c₂, hr⟩ := readInto_working hW hdev hv data i
        ({ c.wrapCurr with highest := c.scan.highest, hw := hw₂ } : Cache σ)
      refine ⟨c₂, ?_⟩
      simp only [flush, Cache.wrapCurr_hw, hscan, hwrite]
      rw [hview] at hr
      exact hr
  | full => exact ⟨_, rfl⟩

/-- The answer depends on the buffers of the labelled slots and on the sectors, except
for the one sector that a dirty victim is about to overwrite. -/
theorem readReply_congr (hs : SameLabels c.slots c'.slots)
    (hc : c'.wrapCurr.curr = c.wrapCurr.curr)
    (harr : ∀ i, (c.slots i).map ≠ blockFreeMark → (c'.slots i).array = (c.slots i).array)
    {dev' : DevNo} {block' : BlockNo} (hm' : c.Misses dev' block')
    (hview : ∀ d b, (∀ i, c.place dev' block' = .dirty i →
        ¬ (d = (c.slots i).dev ∧ b = a.target (c.slots i).map block')) →
      view c'.hw d b = view c.hw d b)
    (hb : block ≠ blockFreeMark) (data : Sector) :
    readReply view a dev block data c' = readReply view a dev block data c := by
  have hmiss : (∀ i, c.place dev block ≠ .hit i) →
      c.place dev block = c.place dev' block' :=
    fun h => place_eq_of_misses hm' (place_misses h)
  simp only [readReply, place_congr hs hc]
  cases hp : c.place dev block with
  | hit i => simp only [harr i (by rw [(place_hit hp).1]; exact hb)]
  | free i =>
      have hp' := (hmiss (by simp [hp])).symm.trans hp
      simp only [hview dev block (by simp [hp'])]
  | clean i =>
      have hp' := (hmiss (by simp [hp])).symm.trans hp
      simp only [hview dev block (by simp [hp'])]
  | dirty i =>
      have hp' := (hmiss (by simp [hp])).symm.trans hp
      obtain ⟨hm, hocc, -⟩ := place_dirty hp
      simp only [harr i (hocc i), hs.map, hs.dev, Disk.set]
      by_cases hself : dev = (c.slots i).dev ∧ block = a.target (c.slots i).map block
      · simp only [if_pos hself]
      · simp only [if_neg hself]
        rw [hview dev block]
        intro j hj
        rw [hp'] at hj
        cases hj
        rintro ⟨hd, hbt⟩
        -- The victim's own sector is cached; the number of the failed call is written again.
        cases a with
        | scanned => exact hm i ⟨hbt.symm, hd.symm⟩
        | numbered => exact hself ⟨hd, rfl⟩
  | full => rfl

end Reply

/-! ## The failed call -/

/-- The transfer of `block`, if it comes to it, leaves in the buffer what was there. -/
def Spares {σ : Type} (D : DevLayer σ) (dev : DevNo) (block : BlockNo) (buffer : Sector) (hw : σ) :
    Prop :=
  ∀ hw', D.devScan dev block hw = (.ok, hw') → (D.devRead dev block buffer hw').2.1 = buffer

/-- The device takes a block and is in state `hw'` afterwards. -/
def Takes {σ : Type} (D : DevLayer σ) (dev : DevNo) (sector block : BlockNo) (data : Sector)
    (hw hw' : σ) : Prop :=
  ∃ hw₁, D.devScan dev sector hw = (.ok, hw₁) ∧ D.devWrite dev block data hw₁ = (.ok, hw')

/-- The request evicts no slot, or the device spares the buffer of the slot it evicts;
a dirty victim is written out first. -/
def KeepsVictim {σ : Type} (D : DevLayer σ) (dev : DevNo) (block : BlockNo) (c : Cache σ) : Prop :=
  match c.place dev block with
  | .clean i => Spares D dev block (c.slots i).array c.hw
  | .dirty i =>
    ∀ hw, Takes D (c.slots i).dev (c.slots i).map block (c.slots i).array c.hw hw →
      Spares D dev block (c.slots i).array hw
  | _ => True

section Failed
variable {σ : Type} {D : DevLayer σ} {view : σ → Disk} {valid : BlockNo → Prop} {a : Addressing}
  {c c' : Cache σ} {dev : DevNo} {block : BlockNo}

/-- What a call that failed has done to the cache: buffers may have changed, and the
sector a dirty victim was written to. -/
structure FailedRead (view : σ → Disk) (a : Addressing) (dev : DevNo) (block : BlockNo)
    (c c' : Cache σ) : Prop where
  labels : SameLabels c.slots c'.slots
  curr : c'.curr = c.wrapCurr.curr
  view : ∀ d b, (∀ i, c.place dev block = .dirty i →
      ¬ (d = (c.slots i).dev ∧ b = a.target (c.slots i).map block)) →
    view c'.hw d b = view c.hw d b

/-- The buffers of the labelled slots are what they were. -/
def SameBuffers (c c' : Cache σ) : Prop :=
  ∀ i, (c.slots i).map ≠ blockFreeMark → (c'.slots i).array = (c.slots i).array

/-- A fill keeps the old buffer exactly when the device spares it. -/
theorem fill_faulty (hD : FaultyDev D view valid a) (dev : DevNo) (block : BlockNo)
    (i : Fin blockArraySize) (c : Cache σ) :
    ∃ r x hw, fill D dev block i c =
        (r, { c.setSlot i { c.slots i with array := x } with hw := hw }) ∧
      view hw = view c.hw ∧
      (x = (c.slots i).array ↔ Spares D dev block (c.slots i).array c.hw) := by
  have hscan := hD.scan dev block c.hw
  rw [fill]
  split
  · rename_i hw heq
    rw [heq] at hscan
    refine ⟨_, _, _, rfl, (hD.read _ _ _ _).trans hscan, ?_⟩
    simp [Spares, heq]
  · rename_i r hw hne heq
    rw [heq] at hscan
    refine ⟨r, (c.slots i).array, hw, by simp [Cache.setSlot], hscan, ?_⟩
    simp only [Spares, heq, Prod.mk.injEq, true_iff]
    intro hw' h
    exact absurd h.1 hne

/-- A flush changes at most the sector of its own write. -/
theorem flush_faulty (hD : FaultyDev D view valid a) (d : DevNo) {sector : BlockNo}
    (hv : valid sector) (block : BlockNo) (data : Sector) (c : Cache σ) :
    ∃ r hw, flush D d sector block data c = (r, { c with hw := hw }) ∧
      (∀ d' b', ¬ (d' = d ∧ b' = a.target sector block) → view hw d' b' = view c.hw d' b') ∧
      (∀ hw', Takes D d sector block data c.hw hw' ↔ r = .ok ∧ hw' = hw) := by
  have hscan := hD.scan d sector c.hw
  rw [flush]
  split
  · rename_i hw heq
    refine ⟨_, _, rfl, fun d' b' hne => ?_, fun hw' => ?_⟩
    · have hwrite := hD.write d sector block data c.hw d' b' hv hne
      rwa [heq] at hwrite
    · simp [Takes, heq, Prod.ext_iff, eq_comm]
  · rename_i r hw hne heq
    rw [heq] at hscan
    refine ⟨r, hw, rfl, fun d' b' _ => by rw [hscan], fun hw' => ?_⟩
    simp only [Takes, heq, Prod.mk.injEq]
    constructor
    · intro h
      obtain ⟨hw₁, ⟨hr, -⟩, -⟩ := h
      exact absurd hr hne
    · intro h
      exact absurd h.1 hne

/-- The labels after a fill, whatever its result. -/
theorem readInto_fail {data : Sector} {i : Fin blockArraySize} (hD : FaultyDev D view valid a)
    (h : (readInto D dev block data i c).1 = .fail) :
    ∃ x hw, (readInto D dev block data i c).2.2 =
        { c.setSlot i { c.slots i with array := x } with hw := hw } ∧
      view hw = view c.hw ∧
      (x = (c.slots i).array ↔ Spares D dev block (c.slots i).array c.hw) := by
  obtain ⟨r, x, hw, hfill, hview, hx⟩ := fill_faulty hD dev block i c
  refine ⟨x, hw, ?_, hview, hx⟩
  simp only [readInto, hfill] at h ⊢
  cases r <;> simp_all

/-- The buffers of the labelled slots after slot `i` alone was filled. -/
theorem sameBuffers_update {i : Fin blockArraySize} {x : Sector}
    (h : c'.slots = Function.update c.slots i { c.slots i with array := x }) :
    SameBuffers c c' ↔ ((c.slots i).map ≠ blockFreeMark → x = (c.slots i).array) := by
  constructor
  · intro hs hm
    simpa [h] using hs i hm
  · intro hx j hj
    by_cases hji : j = i
    · subst hji
      simpa [h] using hx hj
    · simp [h, Function.update_of_ne hji]

/-- **A failed `block_read`** changes no label, and it keeps the buffers of the labelled
slots exactly when the device spared the victim's. -/
theorem blockRead_fail (hD : FaultyDev D view valid a) (ho : c.Owned valid) (hdev : 0 ≤ dev)
    {data : Sector} (h : (blockRead D dev block data c).1 = .fail) :
    FailedRead view a dev block c (blockRead D dev block data c).2.2 ∧
      (SameBuffers c (blockRead D dev block data c).2.2 ↔ KeepsVictim D dev block c) := by
  simp only [blockRead, not_neg_of_nonneg hdev, if_false, KeepsVictim] at h ⊢
  cases hp : c.place dev block with
  | hit i => simp [hp] at h
  | free i =>
      simp only [hp] at h ⊢
      obtain ⟨x, hw, heq, hview, -⟩ := readInto_fail hD h
      rw [heq]
      refine ⟨⟨SameLabels.update _ i x, rfl, fun d b _ => by simp [hview]⟩, ?_⟩
      rw [@sameBuffers_update _ _ _ i x rfl]
      simp [(place_free hp).2]
  | clean i =>
      simp only [hp] at h ⊢
      obtain ⟨x, hw, heq, hview, hx⟩ := readInto_fail hD h
      rw [heq]
      refine ⟨⟨SameLabels.update _ i x, rfl, fun d b _ => by simp [hview]⟩, ?_⟩
      rw [@sameBuffers_update _ _ _ i x rfl]
      simpa [(place_clean hp).2.1 i] using hx
  | dirty i =>
      have hocc := (place_dirty hp).2.1 i
      obtain ⟨r, hw₁, hfl, hoff, hok⟩ := flush_faulty hD (c.slots i).dev (ho i hocc).2 block
        (c.slots i).array { c.wrapCurr with highest := c.scan.highest }
      have htakes : ∀ hw, Takes D (c.slots i).dev (c.slots i).map block (c.slots i).array c.hw hw ↔
          r = .ok ∧ hw = hw₁ := hok
      simp only [hp, hfl] at h ⊢
      by_cases hr : r = .ok
      · subst hr
        obtain ⟨x, hw, heq, hview, hx⟩ := readInto_fail hD h
        simp only [heq]
        refine ⟨⟨SameLabels.update _ i x, rfl, fun d b hdb => ?_⟩, ?_⟩
        · simp only [hview]
          exact hoff d b (hdb i hp)
        · rw [@sameBuffers_update _ _ _ i x rfl]
          simpa [hocc, htakes] using hx
      · cases r with
        | ok => exact absurd rfl hr
        | _ =>
            exact ⟨⟨SameLabels.refl _, rfl, fun d b hdb => hoff d b (hdb i hp)⟩,
              by simp [SameBuffers, htakes]⟩
  | full => exact ⟨⟨SameLabels.refl _, rfl, fun _ _ _ => rfl⟩, by simp [SameBuffers]⟩

/-! ## What a later read sees -/

/-- Every other block reads over the working device `W` as it would have before the
call, and the dirty slots are the ones there were. -/
def Harmless (W : DevLayer σ) (valid : BlockNo → Prop) (dev : DevNo) (block : BlockNo)
    (c c' : Cache σ) : Prop :=
  (∀ d b data, 0 ≤ d → valid b → b ≠ blockFreeMark → ¬ (d = dev ∧ b = block) →
    (blockRead W d b data c').1 = (blockRead W d b data c).1 ∧
      (blockRead W d b data c').2.1 = (blockRead W d b data c).2.1) ∧
  ∀ i, (c.slots i).dirty = true → c'.slots i = c.slots i

theorem FailedRead.owned (H : FailedRead view a dev block c c') (ho : c.Owned valid) :
    c'.Owned valid := by
  intro i hi
  rw [H.labels.map] at hi ⊢
  rw [H.labels.dev]
  exact ho i hi

theorem FailedRead.wrapCurr (H : FailedRead view a dev block c c') :
    c'.wrapCurr.curr = c.wrapCurr.curr := by
  rw [Cache.wrapCurr, H.curr, if_neg (not_le.mpr c.wrapCurr_lt)]

/-- A call that fails was not served from the table. -/
theorem blockRead_fail_misses (hdev : 0 ≤ dev) {data : Sector}
    (h : (blockRead D dev block data c).1 = .fail) : c.Misses dev block := by
  apply place_misses
  intro i hp
  simp [blockRead, not_neg_of_nonneg hdev, hp] at h

/-- Untouched buffers are all a later read needs. -/
theorem FailedRead.harmless {W : DevLayer σ} (hW : WorkingDev W view valid a)
    (H : FailedRead view a dev block c c') (hI : c.Inv) (ho : c.Owned valid)
    (hm : c.Misses dev block) (hs : SameBuffers c c') : Harmless W valid dev block c c' := by
  constructor
  · intro d b data hd hv hb _
    obtain ⟨c₁, h₁⟩ := blockRead_working hW ho hd hv data
    obtain ⟨c₂, h₂⟩ := blockRead_working hW (H.owned ho) hd hv data
    have heq : readReply view a d b data c' = readReply view a d b data c :=
      readReply_congr H.labels H.wrapCurr hs hm H.view hb data
    simp [h₁, h₂, heq]
  · intro i hi
    obtain ⟨x, hx⟩ := H.labels i
    have hocc : (c.slots i).map ≠ blockFreeMark := by
      intro he
      simp [hI.slots.freeClean i he] at hi
    have harr := hs i hocc
    rw [hx] at harr ⊢
    simp only at harr
    rw [harr]

/-- A buffer that has changed shows in a read of the block it is labelled with. -/
theorem FailedRead.sameBuffers {W : DevLayer σ} (H : FailedRead view a dev block c c')
    (hI : c.Inv) (ho : c.Owned valid) (hm : c.Misses dev block)
    (hh : Harmless W valid dev block c c') : SameBuffers c c' := by
  intro i hocc
  obtain ⟨hd, hv⟩ := ho i hocc
  have hp : c.place (c.slots i).dev (c.slots i).map = .hit i :=
    place_of_holds hI.slots hocc ⟨rfl, rfl⟩
  have hp' : c'.place (c.slots i).dev (c.slots i).map = .hit i := by
    rw [place_congr H.labels H.wrapCurr, hp]
  have hne : ¬ ((c.slots i).dev = dev ∧ (c.slots i).map = block) := fun he => hm i ⟨he.2, he.1⟩
  have hread := (hh.1 _ _ Sector.zero hd hv hocc hne).2
  simpa [blockRead, not_neg_of_nonneg hd, hp, hp'] using hread

/-- **A failed read is harmless exactly when the device spares the victim's buffer.**
From every state of the invariant, over every device that may fail: afterwards every
other block reads as before and no dirty slot has changed, if and only if the request
evicted no slot or the failing transfer left the victim's buffer as it was. -/
theorem blockRead_fail_harmless_iff {W : DevLayer σ} (hD : FaultyDev D view valid a)
    (hW : WorkingDev W view valid a) (hI : c.Inv) (ho : c.Owned valid) (hdev : 0 ≤ dev)
    {data : Sector} (h : (blockRead D dev block data c).1 = .fail) :
    Harmless W valid dev block c (blockRead D dev block data c).2.2 ↔
      KeepsVictim D dev block c := by
  obtain ⟨H, hbuf⟩ := blockRead_fail hD ho hdev h
  have hm := blockRead_fail_misses hdev h
  rw [← hbuf]
  exact ⟨H.sameBuffers hI ho hm, H.harmless hW hI ho hm⟩

end Failed

/-! ## A device that fails in mid-transfer -/

/-- The kernel's device with every read failing after it has filled the buffer. -/
def brokenDev : DevLayer Disk where
  devOpen := kernelDev.devOpen
  devClose := kernelDev.devClose
  devScan := kernelDev.devScan
  devRead _ _ _ d := (.fail, Sector.ones, d)
  devWrite := kernelDev.devWrite

theorem brokenDev_faulty : FaultyDev brokenDev id (fun _ => True) .numbered where
  scan _ _ _ := rfl
  read _ _ _ _ := rfl
  write _ _ _ _ _ _ _ _ h := Disk.set_of_ne h

/-- Every read that needs the device fails. -/
theorem blockRead_brokenDev {c : Cache Disk} {dev : DevNo} {block : BlockNo}
    {i : Fin blockArraySize} (hdev : 0 ≤ dev)
    (hp : c.place dev block = .free i ∨ c.place dev block = .clean i) (data : Sector) :
    (blockRead brokenDev dev block data c).1 = .fail := by
  rcases hp with hp | hp <;>
    simp only [blockRead, not_neg_of_nonneg hdev, if_false, hp, readInto, fill, brokenDev,
      kernelDev]

/-- A full table: slot `i` holds block `i` of device 0, clean and zeroed. -/
def fullTable : Cache Disk where
  init := true
  curr := 0
  highest := 0
  slots i := ⟨false, 0, UInt32.ofNat i, Sector.zero, 0⟩
  hw _ _ := Sector.zero

theorem fullTable_map (i : Fin blockArraySize) : (fullTable.slots i).map.toNat = i := by
  have hi : (i : ℕ) < 128 := i.isLt
  simp [fullTable, Nat.mod_eq_of_lt (show (i : ℕ) < 4294967296 by omega)]

theorem fullTable_inv : fullTable.Inv where
  slots := by
    constructor
    · intro i j _ hmap _
      rw [← UInt32.toNat_inj, fullTable_map, fullTable_map] at hmap
      exact Fin.ext hmap
    · intro i _
      rfl
  curr := Nat.succ_pos _

theorem fullTable_owned : fullTable.Owned (fun _ => True) := by
  intro i _
  exact ⟨(by decide : (0 : DevNo) ≤ 0), trivial⟩

theorem fullTable_place : fullTable.place 0 200 = .clean 0 := by
  decide +kernel

/-- A read of block 200 that fails in mid-transfer changes what block 0 reads as. -/
theorem fullTable_read_harms :
    fullTable.Inv ∧ fullTable.Owned (fun _ => True) ∧
      (blockRead brokenDev 0 200 Sector.zero fullTable).1 = .fail ∧
      ¬ Harmless kernelDev (fun _ => True) 0 200 fullTable
        (blockRead brokenDev 0 200 Sector.zero fullTable).2.2 := by
  have hfail := blockRead_brokenDev (by decide) (.inr fullTable_place) Sector.zero
  obtain ⟨H, hbuf⟩ := blockRead_fail brokenDev_faulty fullTable_owned (by decide) hfail
  refine ⟨fullTable_inv, fullTable_owned, hfail, fun hh => ?_⟩
  have hsame := H.sameBuffers fullTable_inv fullTable_owned
    (blockRead_fail_misses (by decide) hfail) hh
  rw [hbuf, KeepsVictim, fullTable_place] at hsame
  have hbuffer := hsame fullTable.hw rfl
  simp only [brokenDev, fullTable] at hbuffer
  simpa [Sector.ones, Sector.zero] using congrFun hbuffer ⟨0, by decide⟩

/-- The first read after `block_open` has a free slot and may fail as it likes. -/
theorem blockRead_fail_harmless_opened :
    Harmless kernelDev (fun _ => True) 0 200
      (blockOpen kernelDev "/" 0 (Cache.boot fun _ _ => Sector.zero)).2.2
      (blockRead brokenDev 0 200 Sector.zero
        (blockOpen kernelDev "/" 0 (Cache.boot fun _ _ => Sector.zero)).2.2).2.2 := by
  have hO := opened_boot kernelDev "/" fun _ _ => Sector.zero
  have hp : (blockOpen kernelDev "/" 0 (Cache.boot fun _ _ => Sector.zero)).2.2.place 0 200 =
      .free 0 := by
    decide +kernel
  have howned : Cache.Owned (fun _ => True)
      (blockOpen kernelDev "/" 0 (Cache.boot fun _ _ => Sector.zero)).2.2 :=
    fun i hi => absurd (by rw [hO.slots_curr.1 i]; rfl) hi
  refine (blockRead_fail_harmless_iff brokenDev_faulty kernelDev_working hO.inv howned
    (by decide) (blockRead_brokenDev (by decide) (.inl hp) Sector.zero)).mpr ?_
  simp only [KeepsVictim, hp]

end OxKernel.Fs
