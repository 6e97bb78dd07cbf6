import OxKernel.Fs.CacheInvariant

/-!
# Durability and frame of `block_sync`

`block_sync` writes each dirty slot of a device through `block_disk_write`, which
searches the table again from the cursor instead of using the slot index. Under slot
uniqueness that search finds the slot itself, so the loop makes one device write for
each dirty slot, in slot order. The device of this module answers its `n`-th write
with an arbitrary `outcome n`; a failing write may leave anything in its own sector.

The loop is followed by `syncUpTo`, the state after the first `k` slots, and
`syncUpTo_spec` describes that state field by field.

## Main definitions

* `FlakyDisk`, `flakyDev` — a disk that counts its writes and lets some of them fail.
* `pendingBefore` — the number of writes made before the loop reaches a slot.
* `blockSync_durable` — the effect of `block_sync`.
-/
namespace OxKernel.Fs

/-- A disk together with the number of writes it has been asked for. -/
structure FlakyDisk where
  disk : Disk
  writes : ℕ

/-- The kernel's device layer over a disk whose `n`-th write answers `outcome n` and,
when it fails, leaves `junk n` in the sector it was to write. -/
def flakyDev (outcome : ℕ → DevRtvl) (junk : ℕ → Sector) : DevLayer FlakyDisk where
  devOpen _ _ h := (.ok, 0, h)
  devClose _ h := (.ok, h)
  devScan _ _ h := (.ok, h)
  devRead dev block _ h := (.ok, h.disk dev block, h)
  devWrite dev block data h :=
    (outcome h.writes,
      { disk := h.disk.set dev block (if outcome h.writes = .ok then data else junk h.writes)
        writes := h.writes + 1 })

/-- A slot the loop of `block_sync(dev)` writes. -/
def Slot.Pending (s : Slot) (dev : DevNo) : Prop := s.dirty = true ∧ s.dev = dev

instance (s : Slot) (dev : DevNo) : Decidable (s.Pending dev) := inferInstanceAs (Decidable (_ ∧ _))

/-- The number of slots of `dev` among the first `k` that the loop writes. -/
def pendingBefore (slots : Slots) (dev : DevNo) (k : ℕ) : ℕ :=
  ((List.finRange blockArraySize).take k).countP fun i => (slots i).Pending dev

theorem take_finRange_succ {n k : ℕ} (hk : k < n) :
    (List.finRange n).take (k + 1) = (List.finRange n).take k ++ [⟨k, hk⟩] := by
  rw [List.take_add_one, List.getElem?_eq_getElem (by simpa using hk)]
  simp

theorem pendingBefore_succ (slots : Slots) (dev : DevNo) {k : ℕ} (hk : k < blockArraySize) :
    pendingBefore slots dev (k + 1) =
      pendingBefore slots dev k + if (slots ⟨k, hk⟩).Pending dev then 1 else 0 := by
  rw [pendingBefore, take_finRange_succ hk, List.countP_append, List.countP_singleton]
  simp [pendingBefore]

/-- Under uniqueness the search for the block of an occupied slot finds that slot,
from every cursor. -/
theorem SlotsOk.search_eq {slots : Slots} (h : SlotsOk slots) {i : Fin blockArraySize} {dev : DevNo}
    (hm : (slots i).map ≠ blockFreeMark) (hd : (slots i).dev = dev) (curr : ℕ) :
    search slots curr dev (slots i).map = some i := by
  cases hs : search slots curr dev (slots i).map with
  | none => exact absurd ⟨rfl, hd⟩ (search_none hs i)
  | some j =>
      have hj : (slots j).Holds dev (slots i).map := search_some hs
      rw [h.unique j i (hj.1 ▸ hm) hj.1 (hj.2.trans hd.symm)]

section Sync
variable {outcome : ℕ → DevRtvl} {junk : ℕ → Sector} {dev : DevNo}

/-- Writing a slot back through the cache is one device write of its own sector. -/
theorem blockDiskWrite_slot {c : Cache FlakyDisk} (h : SlotsOk c.slots) {i : Fin blockArraySize}
    (hp : (c.slots i).Pending dev) :
    blockDiskWrite (flakyDev outcome junk) dev (c.slots i).map (c.slots i).array c =
      (if outcome c.hw.writes = .ok then .ok else .fail,
        { c.wrapCurr with
          hw :=
            { disk := c.hw.disk.set dev (c.slots i).map
                (if outcome c.hw.writes = .ok then (c.slots i).array else junk c.hw.writes)
              writes := c.hw.writes + 1 } }) := by
  have hm : (c.slots i).map ≠ blockFreeMark := by
    intro he
    have := h.freeClean i he
    simp [hp.1] at this
  have hsame : c.wrapCurr.setSlot i (c.slots i) = c.wrapCurr := by
    have hu : Function.update c.wrapCurr.slots i (c.slots i) = c.wrapCurr.slots := by
      rw [c.wrapCurr_slots, Function.update_eq_self]
    rw [Cache.setSlot, hu]
  simp only [blockDiskWrite, writeThrough, Cache.wrapCurr_slots, h.search_eq hm hp.2]
  rw [show ({ c.slots i with array := (c.slots i).array } : Slot) = c.slots i from rfl, hsame]
  simp only [flush, flakyDev, Cache.wrapCurr_hw]
  cases outcome c.hw.writes <;> simp

variable (outcome junk dev) in
/-- The state of the loop of `block_sync` after the first `k` slots. -/
def syncUpTo (c : Cache FlakyDisk) (k : ℕ) : BlockRtvl × Cache FlakyDisk :=
  ((List.finRange blockArraySize).take k).foldl
    (fun a i => syncSlot (flakyDev outcome junk) dev i a) (.ok, c)

theorem syncUpTo_succ (c : Cache FlakyDisk) {k : ℕ} (hk : k < blockArraySize) :
    syncUpTo outcome junk dev c (k + 1) =
      syncSlot (flakyDev outcome junk) dev ⟨k, hk⟩ (syncUpTo outcome junk dev c k) := by
  rw [syncUpTo, take_finRange_succ hk, List.foldl_append]
  rfl

/-- The number of the device write that `block_sync(dev)` makes for slot `i`. -/
def ownWrite (c : Cache FlakyDisk) (dev : DevNo) (i : Fin blockArraySize) : ℕ :=
  c.hw.writes + pendingBefore c.slots dev i

/-- The state after the first `k` slots, compared with the state at entry. -/
structure SyncSpec (outcome : ℕ → DevRtvl) (dev : DevNo) (c : Cache FlakyDisk) (k : ℕ)
    (a : BlockRtvl × Cache FlakyDisk) : Prop where
  rtvl : a.1 = .ok ↔ ∀ i, (c.slots i).Pending dev → (i : ℕ) < k → outcome (ownWrite c dev i) = .ok
  writes : a.2.hw.writes = c.hw.writes + pendingBefore c.slots dev k
  slot : ∀ i, a.2.slots i =
    if (c.slots i).Pending dev ∧ (i : ℕ) < k ∧ outcome (ownWrite c dev i) = .ok then
      { (c.slots i).bumpLru with dirty := false }
    else c.slots i
  written : ∀ i, (c.slots i).Pending dev → (i : ℕ) < k → outcome (ownWrite c dev i) = .ok →
    a.2.hw.disk dev (c.slots i).map = (c.slots i).array
  frame : ∀ d b, (∀ i, (c.slots i).Pending dev → ¬ (c.slots i).Holds d b) →
    a.2.hw.disk d b = c.hw.disk d b

/-- The uniqueness invariant is kept by the loop: it only cleans slots. -/
theorem SyncSpec.slotsOk {c : Cache FlakyDisk} {k : ℕ} {a : BlockRtvl × Cache FlakyDisk}
    (H : SyncSpec outcome dev c k a) (h : SlotsOk c.slots) : SlotsOk a.2.slots := by
  have hmap : ∀ i, (a.2.slots i).map = (c.slots i).map := by
    intro i; rw [H.slot i]; split <;> rfl
  have hdev : ∀ i, (a.2.slots i).dev = (c.slots i).dev := by
    intro i; rw [H.slot i]; split <;> rfl
  constructor
  · intro i j hi hm hd
    rw [hmap] at hi
    rw [hmap, hmap] at hm
    rw [hdev, hdev] at hd
    exact h.unique i j hi hm hd
  · intro i hi
    rw [hmap] at hi
    have hclean := h.freeClean i hi
    rw [H.slot i]
    split
    · rfl
    · exact hclean

/-- The step over a slot that is clean or belongs to another device. -/
theorem SyncSpec.skip {c : Cache FlakyDisk} {k : ℕ} {a : BlockRtvl × Cache FlakyDisk}
    (hk : k < blockArraySize) (H : SyncSpec outcome dev c k a)
    (hp : ¬ (c.slots ⟨k, hk⟩).Pending dev) : SyncSpec outcome dev c (k + 1) a := by
  have hlt : ∀ i : Fin blockArraySize, (c.slots i).Pending dev → ((i : ℕ) < k + 1 ↔ (i : ℕ) < k) := by
    intro i hi
    have hne : (i : ℕ) ≠ k := fun he => hp (by rwa [show (⟨k, hk⟩ : Fin blockArraySize) = i from
      Fin.ext he.symm])
    omega
  refine ⟨?_, ?_, ?_, ?_, H.frame⟩
  · rw [H.rtvl]
    constructor
    · intro hall i hi hik
      exact hall i hi ((hlt i hi).mp hik)
    · intro hall i hi hik
      exact hall i hi ((hlt i hi).mpr hik)
  · rw [H.writes, pendingBefore_succ c.slots dev hk, if_neg hp, Nat.add_zero]
  · intro i
    rw [H.slot i]
    by_cases hi : (c.slots i).Pending dev
    · simp only [hlt i hi]
    · simp only [hi, false_and]
  · intro i hi hik
    exact H.written i hi ((hlt i hi).mp hik)

/-- The body of the loop at a dirty slot of the device: one write of its own sector. -/
theorem syncSlot_pending {a : BlockRtvl × Cache FlakyDisk} (h : SlotsOk a.2.slots)
    {i : Fin blockArraySize} (hp : (a.2.slots i).Pending dev) :
    syncSlot (flakyDev outcome junk) dev i a =
      (if outcome a.2.hw.writes = .ok then a.1 else .fail,
        { a.2.wrapCurr with
          slots := if outcome a.2.hw.writes = .ok then
              Function.update a.2.slots i { (a.2.slots i).bumpLru with dirty := false }
            else a.2.slots
          hw :=
            { disk := a.2.hw.disk.set dev (a.2.slots i).map
                (if outcome a.2.hw.writes = .ok then (a.2.slots i).array else junk a.2.hw.writes)
              writes := a.2.hw.writes + 1 } }) := by
  have hif : (a.2.slots i).dirty = true ∧ (a.2.slots i).dev = dev := hp
  simp only [syncSlot, hif, and_self, if_true]
  rw [blockDiskWrite_slot h hp]
  by_cases ho : outcome a.2.hw.writes = .ok <;> simp [ho, Cache.setSlot]

theorem SyncSpec.write {c : Cache FlakyDisk} {k : ℕ} {a : BlockRtvl × Cache FlakyDisk}
    (h : SlotsOk c.slots) (hk : k < blockArraySize) (H : SyncSpec outcome dev c k a)
    (hp : (c.slots ⟨k, hk⟩).Pending dev) :
    SyncSpec outcome dev c (k + 1) (syncSlot (flakyDev outcome junk) dev ⟨k, hk⟩ a) := by
  obtain ⟨i, hi⟩ : ∃ i : Fin blockArraySize, i = ⟨k, hk⟩ := ⟨_, rfl⟩
  have hik : (i : ℕ) = k := by rw [hi]
  rw [← hi] at hp ⊢
  have hslot : a.2.slots i = c.slots i := by rw [H.slot i]; simp [hik]
  have hown : a.2.hw.writes = ownWrite c dev i := by rw [H.writes, ownWrite, hik]
  rw [syncSlot_pending (H.slotsOk h) (by rw [hslot]; exact hp), hslot, hown]
  have hother : ∀ j : Fin blockArraySize, j ≠ i → ((j : ℕ) < k + 1 ↔ (j : ℕ) < k) := by
    intro j hj
    have hne : (j : ℕ) ≠ k := fun he => hj (Fin.ext (he.trans hik.symm))
    omega
  -- Slots with the same sector are the same slot, so the write below touches no
  -- sector written earlier in the loop.
  have hsector : ∀ j, (c.slots j).Pending dev → j ≠ i → (c.slots j).map ≠ (c.slots i).map := by
    intro j hj hne hm
    have hjm : (c.slots j).map ≠ blockFreeMark := by
      intro he
      have := h.freeClean j he
      simp [hj.1] at this
    exact hne (h.unique j i hjm hm (hj.2.trans hp.2.symm))
  refine ⟨?_, ?_, ?_, ?_, ?_⟩
  · constructor
    · intro hr j hj hjk
      by_cases ho : outcome (ownWrite c dev i) = .ok
      · by_cases hji : j = i
        · rw [hji]; exact ho
        · rw [if_pos ho] at hr
          exact H.rtvl.mp hr j hj ((hother j hji).mp hjk)
      · simp [ho] at hr
    · intro hall
      rw [if_pos (hall i hp (by omega))]
      exact H.rtvl.mpr fun j hj hjk => hall j hj (by omega)
  · rw [pendingBefore_succ c.slots dev hk, ← hi, if_pos hp]
    simp only [ownWrite, hik]
    omega
  · intro j
    by_cases hji : j = i
    · subst hji
      by_cases ho : outcome (ownWrite c dev j) = .ok
      · simp [ho, hp, hik]
      · simp [ho, hslot]
    · have hj : (if outcome (ownWrite c dev i) = .ok then
            Function.update a.2.slots i { (c.slots i).bumpLru with dirty := false }
          else a.2.slots) j = a.2.slots j := by
        split
        · exact Function.update_of_ne hji _ _
        · rfl
      simp only [hj, H.slot j, hother j hji]
  · intro j hj hjk ho
    by_cases hji : j = i
    · subst hji
      simp [ho]
    · have hne : ¬ (dev = dev ∧ (c.slots j).map = (c.slots i).map) := fun he => hsector j hj hji he.2
      simp only [Disk.set_of_ne hne]
      exact H.written j hj ((hother j hji).mp hjk) ho
  · intro d b hfr
    have hne : ¬ (d = dev ∧ b = (c.slots i).map) :=
      fun he => hfr i hp ⟨he.2.symm, hp.2.trans he.1.symm⟩
    simp only [Disk.set_of_ne hne]
    exact H.frame d b hfr

theorem syncUpTo_spec {c : Cache FlakyDisk} (h : SlotsOk c.slots) :
    ∀ k ≤ blockArraySize, SyncSpec outcome dev c k (syncUpTo outcome junk dev c k) := by
  intro k
  induction k with
  | zero =>
      intro _
      refine ⟨?_, ?_, ?_, ?_, ?_⟩
      · simp [syncUpTo]
      · simp [syncUpTo, pendingBefore]
      · simp [syncUpTo]
      · simp
      · intro d b _; simp [syncUpTo]
  | succ k ih =>
      intro hk
      have H := ih (by omega)
      rw [syncUpTo_succ c hk]
      by_cases hp : (c.slots ⟨k, hk⟩).Pending dev
      · exact H.write h hk hp
      · have hslot : (syncUpTo outcome junk dev c k).2.slots ⟨k, hk⟩ = c.slots ⟨k, hk⟩ := by
          rw [H.slot ⟨k, hk⟩]; simp
        have hskip : syncSlot (flakyDev outcome junk) dev ⟨k, hk⟩ (syncUpTo outcome junk dev c k) =
            syncUpTo outcome junk dev c k := by
          simp only [syncSlot, hslot]
          exact if_neg hp
        rw [hskip]
        exact H.skip hk hp

/-- **Durability and frame of `block_sync`.** From every state with unique slots and
for every pattern of successes and failures: a dirty slot of the device is clean
afterwards exactly when its own write succeeded, and then the disk holds its data;
the result is `BLOCK_OK` exactly when no write failed; and nothing else changes. -/
theorem blockSync_durable {c : Cache FlakyDisk} (h : SlotsOk c.slots) :
    let a := blockSync (flakyDev outcome junk) dev c
    (∀ i, (c.slots i).Pending dev →
      ((a.2.slots i).dirty = false ↔ outcome (ownWrite c dev i) = .ok) ∧
      (outcome (ownWrite c dev i) = .ok →
        a.2.hw.disk dev (c.slots i).map = (c.slots i).array)) ∧
    (a.1 = .ok ↔ ∀ i, (c.slots i).Pending dev → outcome (ownWrite c dev i) = .ok) ∧
    (∀ i, (a.2.slots i).array = (c.slots i).array ∧ (a.2.slots i).map = (c.slots i).map ∧
      (a.2.slots i).dev = (c.slots i).dev) ∧
    (∀ i, (c.slots i).dev ≠ dev → a.2.slots i = c.slots i) ∧
    (∀ d b, (∀ i, (c.slots i).Pending dev → ¬ (c.slots i).Holds d b) →
      a.2.hw.disk d b = c.hw.disk d b) := by
  have H : SyncSpec outcome dev c blockArraySize (syncUpTo outcome junk dev c blockArraySize) :=
    syncUpTo_spec h blockArraySize le_rfl
  have hall : syncUpTo outcome junk dev c blockArraySize = blockSync (flakyDev outcome junk) dev c := by
    rw [syncUpTo, List.take_of_length_le (by simp), blockSync]
  rw [hall] at H
  refine ⟨?_, ?_, ?_, ?_, H.frame⟩
  · intro i hi
    refine ⟨?_, H.written i hi i.isLt⟩
    rw [H.slot i]
    by_cases ho : outcome (ownWrite c dev i) = .ok
    · simp [ho, hi]
    · simp [ho, hi.1]
  · rw [H.rtvl]
    exact ⟨fun hr i hi => hr i hi i.isLt, fun hr i hi _ => hr i hi⟩
  · intro i
    rw [H.slot i]
    split <;> exact ⟨rfl, rfl, rfl⟩
  · intro i hi
    rw [H.slot i, if_neg]
    exact fun hc => hi hc.1.2

/-- A slot of the table. -/
def dirtySlot : Fin blockArraySize := ⟨3, by decide⟩

/-- A cache with one dirty slot, over a disk of zeroes. -/
def oneDirty : Cache FlakyDisk where
  init := true
  curr := 0
  highest := 1
  slots := Function.update (fun _ => Slot.fresh) dirtySlot ⟨true, 1, 7, Sector.ones, 0⟩
  hw := ⟨fun _ _ => Sector.zero, 0⟩

theorem blockSync_durable_oneDirty :
    SlotsOk oneDirty.slots ∧
      (blockSync (flakyDev (fun _ => .ok) fun _ => Sector.zero) 0 oneDirty).2.hw.disk 0 7 =
        Sector.ones := by
  have hfresh : SlotsOk fun _ => Slot.fresh := ⟨fun _ _ h => absurd rfl h, fun _ _ => rfl⟩
  have hok : SlotsOk oneDirty.slots :=
    hfresh.update (fun h => absurd h (by decide)) (fun _ _ _ hj => absurd hj.1 (by decide))
  have hs : oneDirty.slots dirtySlot = ⟨true, 1, 7, Sector.ones, 0⟩ := by
    simp [oneDirty]
  have hp : (oneDirty.slots dirtySlot).Pending 0 := by rw [hs]; exact ⟨rfl, rfl⟩
  obtain ⟨hdur, -⟩ := @blockSync_durable (fun _ => .ok) (fun _ => Sector.zero) 0 oneDirty hok
  have hwritten := (hdur dirtySlot hp).2
  simp only [hs] at hwritten
  exact ⟨hok, hwritten trivial⟩

end Sync

end OxKernel.Fs
