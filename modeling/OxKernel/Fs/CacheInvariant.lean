import OxKernel.Fs.Cache
import OxKernel.Lib.Machine

/-!
# The invariant of the cache table

No block is cached twice, no free slot is dirty, and `curr` is the index of a slot.
The invariant holds in every reachable state, whatever the device does: the results
below quantify over every `DevLayer`, so each call of it may succeed or fail, and a
failing read may leave any bytes in its buffer.

The argument is in three layers. `search` and `scanSlots` get one lemma for each way
they can end; `place` inherits them, one lemma for each constructor of `Place`; and
every operation is then a few updates of single slots, for which
`SlotsOk.update` is the only rule.

## Main definitions

* `SlotsOk`, `Cache.Inv` — the invariant.
* `searchOrder` — the indices the two search loops visit.
* `cacheMachine`, `Op.Valid`, `Opened` — runs of calls from an opened cache.
-/
namespace OxKernel.Fs

/-! ## The search -/

/-- The indices of the two search loops of every function, in the order of the visits. -/
def searchOrder (curr : ℕ) : List ℕ :=
  List.range' curr (blockArraySize - curr) ++ List.range curr

/-- A cursor inside the table makes the two loops visit every slot exactly once. -/
theorem searchOrder_perm {curr : ℕ} (h : curr ≤ blockArraySize) :
    (searchOrder curr).Perm (List.range blockArraySize) := by
  refine List.perm_append_comm.trans ?_
  have happ := @List.range'_append 0 curr (blockArraySize - curr) 1
  rw [Nat.one_mul, Nat.zero_add, Nat.add_sub_cancel' h] at happ
  rw [List.range_eq_range', List.range_eq_range', happ]

/-- `search` goes through the slots in that order. -/
theorem map_val_upper_lower {curr : ℕ} (h : curr ≤ blockArraySize) :
    (upperSlots curr ++ lowerSlots curr).map Fin.val = searchOrder curr := by
  have hv : (List.finRange blockArraySize).map Fin.val = List.range blockArraySize :=
    List.map_coe_finRange_eq_range
  simp only [upperSlots, lowerSlots, List.map_append, List.map_drop, List.map_take, hv, searchOrder]
  rw [List.take_range, Nat.min_eq_left h, List.range_eq_range', List.drop_range']
  simp

section Search
variable {slots : Slots} {curr : ℕ} {dev : DevNo} {block : BlockNo}

theorem search_some {i : Fin blockArraySize} (h : search slots curr dev block = some i) :
    (slots i).Holds dev block := by
  rw [search, Option.or_eq_some_iff] at h
  rcases h with h | ⟨-, h⟩ <;> simpa using List.find?_some h

theorem search_none (h : search slots curr dev block = none) (i : Fin blockArraySize) :
    ¬ (slots i).Holds dev block := by
  rw [search, Option.or_eq_none_iff, List.find?_eq_none, List.find?_eq_none] at h
  have hi : i ∈ (List.finRange blockArraySize).take curr ++ (List.finRange blockArraySize).drop curr := by
    rw [List.take_append_drop]
    exact List.mem_finRange i
  rcases List.mem_append.mp hi with hi | hi
  · simpa using h.2 i hi
  · simpa using h.1 i hi

end Search

/-! ## The replacement scan -/

/-- What the pointers of the scan point to. -/
structure Scan.Sound (slots : Slots) (a : Scan) : Prop where
  free : ∀ i, a.free = some i → (slots i).map = blockFreeMark
  clean : ∀ i, a.lowestCleanPtr = some i → (slots i).dirty = false
  dirty : ∀ i, a.lowestDirtyPtr = some i → (slots i).dirty = true

/-- Looking at an occupied slot keeps the pointers right. -/
theorem Scan.Sound.visit {slots : Slots} {a : Scan} (h : a.Sound slots) (i : Fin blockArraySize) :
    (a.visit i (slots i)).Sound slots := by
  refine ⟨h.free, fun j hj => ?_, fun j hj => ?_⟩
  · simp only [Scan.visit] at hj
    split at hj
    · rename_i hc
      exact (Option.some.inj hj) ▸ hc.1
    · exact h.clean j hj
  · simp only [Scan.visit] at hj
    split at hj
    · rename_i hd
      exact (Option.some.inj hj) ▸ hd.1
    · exact h.dirty j hj

theorem scanSlots_sound {slots : Slots} :
    ∀ (is : List (Fin blockArraySize)) (a : Scan), a.Sound slots → (scanSlots slots is a).Sound slots := by
  intro is
  induction is with
  | nil => intro a h; exact h
  | cons i is ih =>
      intro a h
      rw [scanSlots]
      split
      · rename_i hi
        exact ⟨fun j hj => by simp only [Option.some.injEq] at hj; exact hj ▸ hi, h.clean, h.dirty⟩
      · exact ih _ (h.visit i)

/-- The scan misses no free slot. -/
theorem scanSlots_free_none {slots : Slots} :
    ∀ (is : List (Fin blockArraySize)) (a : Scan), (scanSlots slots is a).free = none →
      ∀ i ∈ is, (slots i).map ≠ blockFreeMark := by
  intro is
  induction is with
  | nil => intro a _ i hi; simp at hi
  | cons i is ih =>
      intro a h j hj
      rw [scanSlots] at h
      split at h
      · simp at h
      · rename_i hi
        rcases List.mem_cons.mp hj with rfl | hj
        · exact hi
        · exact ih _ h j hj

section Place
variable {σ : Type} {c : Cache σ} {dev : DevNo} {block : BlockNo} {i : Fin blockArraySize}

theorem Cache.scan_sound (c : Cache σ) : c.scan.Sound c.slots :=
  scanSlots_sound _ _ ⟨by simp [Scan.start], by simp [Scan.start], by simp [Scan.start]⟩

theorem Cache.scan_free_none (h : c.scan.free = none) (i : Fin blockArraySize) :
    (c.slots i).map ≠ blockFreeMark :=
  scanSlots_free_none _ _ h i (List.mem_finRange i)

/-- A block is not cached. -/
def Cache.Misses (c : Cache σ) (dev : DevNo) (block : BlockNo) : Prop :=
  ∀ i, ¬ (c.slots i).Holds dev block

theorem place_hit (h : c.place dev block = .hit i) : (c.slots i).Holds dev block := by
  simp only [Cache.place] at h
  split at h
  · rename_i hs
    exact (Place.hit.inj h) ▸ search_some hs
  · split at h <;> simp at h

/-- Every place but a hit is reached after a search that went through the table. -/
theorem place_misses (h : ∀ i, c.place dev block ≠ .hit i) : c.Misses dev block := by
  simp only [Cache.place] at h
  split at h
  · rename_i i _
    exact absurd rfl (h i)
  · rename_i hs
    exact search_none hs

theorem place_free (h : c.place dev block = .free i) :
    c.Misses dev block ∧ (c.slots i).map = blockFreeMark := by
  refine ⟨place_misses (by simp [h]), ?_⟩
  simp only [Cache.place] at h
  split at h
  · simp at h
  · split at h <;> simp only [Place.free.injEq, reduceCtorEq] at h
    rename_i hf
    exact h ▸ c.scan_sound.free _ hf

theorem place_clean (h : c.place dev block = .clean i) :
    c.Misses dev block ∧ (∀ j, (c.slots j).map ≠ blockFreeMark) ∧ (c.slots i).dirty = false := by
  refine ⟨place_misses (by simp [h]), ?_⟩
  simp only [Cache.place] at h
  split at h
  · simp at h
  · split at h <;> simp only [Place.clean.injEq, reduceCtorEq] at h
    rename_i hf hc
    exact ⟨Cache.scan_free_none hf, h ▸ c.scan_sound.clean _ hc⟩

theorem place_dirty (h : c.place dev block = .dirty i) :
    c.Misses dev block ∧ (∀ j, (c.slots j).map ≠ blockFreeMark) ∧ (c.slots i).dirty = true := by
  refine ⟨place_misses (by simp [h]), ?_⟩
  simp only [Cache.place] at h
  split at h
  · simp at h
  · split at h <;> simp only [Place.dirty.injEq, reduceCtorEq] at h
    rename_i hf hc hd
    exact ⟨Cache.scan_free_none hf, h ▸ c.scan_sound.dirty _ hd⟩

end Place

/-! ## The invariant -/

/-- No block is cached twice and no free slot is dirty. -/
structure SlotsOk (slots : Slots) : Prop where
  unique : ∀ i j, (slots i).map ≠ blockFreeMark → (slots i).map = (slots j).map →
    (slots i).dev = (slots j).dev → i = j
  freeClean : ∀ i, (slots i).map = blockFreeMark → (slots i).dirty = false

/-- The invariant of the cache. -/
structure Cache.Inv {σ : Type} (c : Cache σ) : Prop where
  slots : SlotsOk c.slots
  curr : c.curr < blockArraySize

/-- The only rule for changing a slot: the new contents are not cached elsewhere. -/
theorem SlotsOk.update {slots : Slots} (h : SlotsOk slots) {i : Fin blockArraySize} {s : Slot}
    (hfree : s.map = blockFreeMark → s.dirty = false)
    (hnew : s.map ≠ blockFreeMark → ∀ j, j ≠ i → ¬ (slots j).Holds s.dev s.map) :
    SlotsOk (Function.update slots i s) := by
  constructor
  · intro a b ha hmap hdev
    by_cases hai : a = i <;> by_cases hbi : b = i
    · rw [hai, hbi]
    · subst hai
      rw [Function.update_self, Function.update_of_ne hbi] at *
      exact absurd ⟨hmap.symm, hdev.symm⟩ (hnew ha b hbi)
    · subst hbi
      rw [Function.update_self, Function.update_of_ne hai] at *
      exact absurd ⟨hmap, hdev⟩ (hnew (hmap ▸ ha) a hai)
    · rw [Function.update_of_ne hai, Function.update_of_ne hbi] at *
      exact h.unique a b ha hmap hdev
  · intro a ha
    by_cases hai : a = i
    · subst hai
      rw [Function.update_self] at *
      exact hfree ha
    · rw [Function.update_of_ne hai] at *
      exact h.freeClean a ha

/-- A slot that keeps its block may change its other fields, as long as a free slot
stays clean. -/
theorem SlotsOk.updateSame {slots : Slots} (h : SlotsOk slots) {i : Fin blockArraySize} {s : Slot}
    (hmap : s.map = (slots i).map) (hdev : s.dev = (slots i).dev)
    (hfree : s.map = blockFreeMark → s.dirty = false) : SlotsOk (Function.update slots i s) := by
  refine h.update hfree ?_
  rintro hm j hj ⟨h1, h2⟩
  exact hj (h.unique j i (h1 ▸ hm) (h1.trans hmap) (h2.trans hdev))

@[simp] theorem Cache.wrapCurr_slots {σ : Type} (c : Cache σ) : c.wrapCurr.slots = c.slots := rfl
@[simp] theorem Cache.wrapCurr_hw {σ : Type} (c : Cache σ) : c.wrapCurr.hw = c.hw := rfl

theorem Cache.wrapCurr_lt {σ : Type} (c : Cache σ) : c.wrapCurr.curr < blockArraySize := by
  simp only [Cache.wrapCurr]
  split
  · exact Nat.succ_pos _
  · rename_i h; exact not_le.mp h

theorem Cache.Inv.wrapCurr_eq {σ : Type} {c : Cache σ} (h : c.Inv) : c.wrapCurr = c := by
  rw [Cache.wrapCurr, if_neg (not_le.mpr h.curr)]

/-! ## One call -/

section Step
variable {σ : Type} (D : DevLayer σ)

/-- A fill changes the hardware and the buffer of its slot. -/
theorem fill_eq (dev : DevNo) (block : BlockNo) (i : Fin blockArraySize) (c : Cache σ) :
    ∃ r data hw, fill D dev block i c =
      (r, { c.setSlot i { c.slots i with array := data } with hw := hw }) := by
  rw [fill]
  split
  · exact ⟨_, _, _, rfl⟩
  · rename_i r hw _ _
    refine ⟨r, (c.slots i).array, hw, ?_⟩
    simp [Cache.setSlot]

/-- A flush changes the hardware and nothing else. -/
theorem flush_eq (dev : DevNo) (sector block : BlockNo) (data : Sector) (c : Cache σ) :
    ∃ r hw, flush D dev sector block data c = (r, { c with hw := hw }) := by
  rw [flush]
  split <;> exact ⟨_, _, rfl⟩

variable {D} {dev : DevNo} {block : BlockNo} {i : Fin blockArraySize} {c : Cache σ}

/-- Giving a slot to a block that is not cached. -/
theorem Inv.install {dirty : Bool} (h : SlotsOk c.slots) (hb : block ≠ blockFreeMark)
    (hm : c.Misses dev block) : (install dev block dirty i c).Inv where
  slots := by
    refine h.update (fun he => absurd he hb) ?_
    intro _ j _
    exact hm j
  curr := i.isLt

theorem Inv.readInto {data : Sector} (h : c.Inv) (hb : block ≠ blockFreeMark)
    (hm : c.Misses dev block) : (readInto D dev block data i c).2.2.Inv := by
  obtain ⟨r, x, hw, heq⟩ := fill_eq D dev block i c
  have hs : SlotsOk (Function.update c.slots i { c.slots i with array := x }) :=
    h.slots.updateSame rfl rfl (h.slots.freeClean i)
  have hm' : Cache.Misses { c.setSlot i { c.slots i with array := x } with hw := hw } dev block := by
    intro j
    by_cases hj : j = i
    · subst hj
      simpa [Cache.setSlot, Slot.Holds] using hm j
    · simpa [Cache.setSlot, Function.update_of_ne hj] using hm j
  rw [OxKernel.Fs.readInto, heq]
  cases r
  · exact Inv.install hs hb hm'
  · exact ⟨hs, h.curr⟩
  · exact ⟨hs, h.curr⟩

theorem Inv.writeInto {data : Sector} (h : SlotsOk c.slots) (hb : block ≠ blockFreeMark)
    (hm : c.Misses dev block) : (writeInto dev block data i c).Inv := by
  refine Inv.install (h.updateSame rfl rfl (h.freeClean i)) hb ?_
  intro j
  by_cases hj : j = i
  · subst hj
    simpa [Cache.setSlot, Slot.Holds] using hm j
  · simpa [Cache.setSlot, Function.update_of_ne hj] using hm j

/-- The state in which a miss is served: only `curr` and `highest` have moved. -/
theorem Inv.missed (h : c.Inv) : ({ c.wrapCurr with highest := c.scan.highest } : Cache σ).Inv := by
  rw [h.wrapCurr_eq]
  exact ⟨h.slots, h.curr⟩

theorem Misses.missed (hm : c.Misses dev block) :
    ({ c.wrapCurr with highest := c.scan.highest } : Cache σ).Misses dev block := by
  intro j
  simpa using hm j

theorem blockRead_inv (data : Sector) (h : c.Inv) (hb : block ≠ blockFreeMark) :
    (blockRead D dev block data c).2.2.Inv := by
  rw [blockRead]
  split
  · exact h
  · split
    · rename_i i hp
      exact ⟨h.slots.updateSame rfl rfl (h.slots.freeClean i), i.isLt⟩
    · rename_i i hp
      exact Inv.readInto (Inv.missed h) hb (Misses.missed (place_free hp).1)
    · rename_i i hp
      exact Inv.readInto (Inv.missed h) hb (Misses.missed (place_clean hp).1)
    · rename_i i hp
      obtain ⟨r, hw, heq⟩ := flush_eq D (c.slots i).dev (c.slots i).map block (c.slots i).array
        { c.wrapCurr with highest := c.scan.highest }
      have hI := Inv.missed h
      rw [heq]
      cases r
      · exact Inv.readInto ⟨hI.slots, hI.curr⟩ hb (Misses.missed (place_dirty hp).1)
      · exact ⟨hI.slots, hI.curr⟩
      · exact ⟨hI.slots, hI.curr⟩
    · exact Inv.missed h

theorem blockWrite_inv (data : Sector) (h : c.Inv) (hb : block ≠ blockFreeMark) :
    (blockWrite D dev block data c).2.Inv := by
  rw [blockWrite]
  split
  · rename_i i hp
    have hmap : (c.slots i).map = block := (place_hit hp).1
    exact ⟨h.slots.updateSame rfl rfl (fun he => absurd (hmap.symm.trans he) hb), i.isLt⟩
  · rename_i i hp
    exact Inv.writeInto (Inv.missed h).slots hb (Misses.missed (place_free hp).1)
  · rename_i i hp
    exact Inv.writeInto (Inv.missed h).slots hb (Misses.missed (place_clean hp).1)
  · rename_i i hp
    obtain ⟨r, hw, heq⟩ := flush_eq D (c.slots i).dev (c.slots i).map block (c.slots i).array
      { c.wrapCurr with highest := c.scan.highest }
    have hI := Inv.missed h
    rw [heq]
    cases r
    · exact Inv.writeInto hI.slots hb (Misses.missed (place_dirty hp).1)
    · exact ⟨hI.slots, hI.curr⟩
    · exact ⟨hI.slots, hI.curr⟩
  · exact Inv.missed h

theorem release_inv (h : SlotsOk c.slots) : (release i c).Inv where
  slots := h.update (fun _ => rfl) (fun hne => absurd rfl hne)
  curr := i.isLt

theorem blockFree_inv (h : c.Inv) : (blockFree D dev block c).2.Inv := by
  rw [blockFree]
  split
  · exact h
  · split
    · exact h
    · rename_i i _
      split
      · obtain ⟨r, hw, heq⟩ := flush_eq D dev block block (c.slots i).array c
        rw [heq]
        cases r
        · exact release_inv h.slots
        · exact ⟨h.slots, h.curr⟩
        · exact ⟨h.slots, h.curr⟩
      · exact release_inv h.slots

theorem writeThrough_inv (data : Sector) (h : c.Inv) :
    (writeThrough D dev block data c).2.2.Inv := by
  simp only [writeThrough, h.wrapCurr_eq]
  split
  · rename_i i _
    obtain ⟨r, hw, heq⟩ := flush_eq D dev block block data
      (c.setSlot i { c.slots i with array := data })
    have hs : SlotsOk (c.setSlot i { c.slots i with array := data }).slots :=
      h.slots.updateSame rfl rfl (h.slots.freeClean i)
    rw [heq]
    cases r <;> exact ⟨hs, h.curr⟩
  · obtain ⟨r, hw, heq⟩ := flush_eq D dev block block data c
    rw [heq]
    cases r <;> exact ⟨h.slots, h.curr⟩

theorem blockDiskWriteSyncCache_inv (data : Sector) (h : c.Inv) (hb : block ≠ blockFreeMark) :
    (blockDiskWriteSyncCache D dev block data c).2.2.Inv := by
  have hw : (writeThrough D dev block data c).2.2.Inv := writeThrough_inv data h
  rw [blockDiskWriteSyncCache]
  split
  · rename_i c' heq
    rw [heq] at hw
    exact blockRead_inv data hw hb
  · rename_i heq
    rw [heq] at hw
    exact hw

theorem syncSlot_inv {a : BlockRtvl × Cache σ} (h : a.2.Inv) : (syncSlot D dev i a).2.Inv := by
  have hw : (blockDiskWrite D dev (a.2.slots i).map (a.2.slots i).array a.2).2.Inv :=
    writeThrough_inv _ h
  simp only [syncSlot]
  split
  · split
    · rename_i heq
      rw [heq] at hw
      exact hw
    · rename_i heq
      rw [heq] at hw
      exact ⟨hw.slots.updateSame rfl rfl (fun _ => rfl), hw.curr⟩
  · exact h

theorem blockSync_inv (h : c.Inv) : (blockSync D dev c).2.Inv := by
  have hfold : ∀ (is : List (Fin blockArraySize)) (a : BlockRtvl × Cache σ), a.2.Inv →
      (is.foldl (fun a i => syncSlot D dev i a) a).2.Inv := by
    intro is
    induction is with
    | nil => intro a ha; exact ha
    | cons i is ih => intro a ha; exact ih _ (syncSlot_inv ha)
  exact hfold _ _ h

end Step

/-! ## Runs -/

/-- A call on a proper device and block: `dev >= 0` and `block != BLOCK_FREE`. -/
def Op.Valid : Op → Prop
  | .read dev block _ => 0 ≤ dev ∧ block ≠ blockFreeMark
  | .write dev block _ => 0 ≤ dev ∧ block ≠ blockFreeMark
  | .free dev block => 0 ≤ dev ∧ block ≠ blockFreeMark
  | .sync dev => 0 ≤ dev
  | .diskWrite dev block _ => 0 ≤ dev ∧ block ≠ blockFreeMark
  | .diskWriteSyncCache dev block _ => 0 ≤ dev ∧ block ≠ blockFreeMark

/-- The cache over a device layer as a machine. -/
def cacheMachine {σ : Type} (D : DevLayer σ) : Lib.Machine (Cache σ) Op Reply where
  step := Op.step D

/-- A state `block_open` leaves: on the first call, or on the first one after
`block_reinit`. -/
def Opened {σ : Type} (D : DevLayer σ) (c : Cache σ) : Prop :=
  ∃ (path : String) (dev : DevNo) (c₀ : Cache σ), c₀.init = false ∧ c₀.curr < blockArraySize ∧
    c = (blockOpen D path dev c₀).2.2

/-- The static variables before the first call. -/
def Cache.boot {σ : Type} (hw : σ) : Cache σ where
  init := false
  curr := 0
  highest := 0
  slots := fun _ => ⟨false, 0, 0, Sector.zero, 0⟩
  hw := hw

theorem opened_boot {σ : Type} (D : DevLayer σ) (path : String) (hw : σ) :
    Opened D (blockOpen D path 0 (Cache.boot hw)).2.2 :=
  ⟨path, 0, Cache.boot hw, rfl, Nat.succ_pos _, rfl⟩

section Runs
variable {σ : Type} {D : DevLayer σ} {c : Cache σ}

theorem Opened.slots_curr (h : Opened D c) :
    (∀ i, c.slots i = Slot.fresh) ∧ c.curr < blockArraySize := by
  obtain ⟨path, dev, c₀, hinit, hcurr, rfl⟩ := h
  simp only [blockOpen, hinit]
  split <;> exact ⟨fun _ => rfl, hcurr⟩

theorem Opened.inv (h : Opened D c) : c.Inv where
  slots :=
    ⟨fun i _ hne => absurd (by rw [h.slots_curr.1 i]; rfl) hne,
      fun i _ => by rw [h.slots_curr.1 i]; rfl⟩
  curr := h.slots_curr.2

/-- **One call keeps the invariant**, whatever the device does. -/
theorem Op.step_inv {op : Op} (hop : op.Valid) (h : c.Inv) : (op.step D c).2.Inv := by
  cases op with
  | read dev block data => exact blockRead_inv data h hop.2
  | write dev block data => exact blockWrite_inv data h hop.2
  | free dev block => exact blockFree_inv h
  | sync dev =>
      simp only [Op.step]
      exact blockSync_inv h
  | diskWrite dev block data => exact writeThrough_inv data h
  | diskWriteSyncCache dev block data => exact blockDiskWriteSyncCache_inv data h hop.2

theorem exec_inv (h : Opened D c) {ops : List Op} (hops : ∀ op ∈ ops, op.Valid) :
    ((cacheMachine D).exec ops c).Inv :=
  Lib.Machine.exec_invariant (P := Cache.Inv) (fun _ _ hs hg => Op.step_inv hg hs) ops c h.inv
    (.of_forall ops c fun op hop _ => hops op hop)

/-- **Slot uniqueness.** In every state reachable from an opened cache by calls on
proper devices and blocks, over any device layer, two occupied slots hold different
blocks, no free slot is dirty, and the two search loops visit every slot once. -/
theorem exec_slots_unique (h : Opened D c) {ops : List Op} (hops : ∀ op ∈ ops, op.Valid) :
    (∀ i j, i ≠ j → (((cacheMachine D).exec ops c).slots i).map ≠ blockFreeMark →
      ((((cacheMachine D).exec ops c).slots i).dev, (((cacheMachine D).exec ops c).slots i).map) ≠
        ((((cacheMachine D).exec ops c).slots j).dev, (((cacheMachine D).exec ops c).slots j).map)) ∧
    (∀ i, (((cacheMachine D).exec ops c).slots i).map = blockFreeMark →
      (((cacheMachine D).exec ops c).slots i).dirty = false) ∧
    (searchOrder ((cacheMachine D).exec ops c).curr).Perm (List.range blockArraySize) := by
  have hI := exec_inv h hops
  refine ⟨?_, hI.slots.freeClean, searchOrder_perm hI.curr.le⟩
  intro i j hij hmap heq
  rw [Prod.mk.injEq] at heq
  exact hij (hI.slots.unique i j hmap heq.2 heq.1)

/-- On the kernel's device, after two writes and a release. -/
theorem exec_slots_unique_write_free :
    let c := (cacheMachine kernelDev).exec
      [.write 0 5 Sector.ones, .write 1 5 Sector.zero, .free 0 5]
      (blockOpen kernelDev "/" 0 (Cache.boot fun _ _ => Sector.zero)).2.2
    ∀ i j, i ≠ j → (c.slots i).map ≠ blockFreeMark →
      ((c.slots i).dev, (c.slots i).map) ≠ ((c.slots j).dev, (c.slots j).map) := by
  refine (exec_slots_unique (opened_boot kernelDev "/" _) ?_).1
  intro op hop
  simp only [List.mem_cons, List.not_mem_nil, or_false] at hop
  rcases hop with rfl | rfl | rfl <;> exact ⟨by decide, by decide⟩

end Runs

end OxKernel.Fs
