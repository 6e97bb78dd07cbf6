import OxKernel.Fs.CacheInvariant

/-!
# The cache refines a flat disk

The abstraction of a cache is the disk `F` a reader sees: a cached block reads as its
slot, any other block as the device. `Rep` states this together with what keeps it
true, that a block no dirty slot holds is up to date on the device. Each operation is
then one of a handful of slot updates, each of which has a rule below: `Rep.touch`,
`Rep.replace`, `Rep.overwrite`, `Rep.through`, `Rep.release`, `Rep.clean`.

The two builds differ in one place. When a dirty slot is evicted the victim is
scanned to by its own number and then written under the number of the requested
block. A device whose transfers go to the scanned sector (`ScanAddressed`) writes the
victim back; the kernel's device overwrites the requested block instead.

## Main definitions

* `Rep` — the representation relation.
* `flatUpdate`, `latestWrite` — the flat disk after a list of events.
* `ReadsLatest` — every successful read delivers the latest successful write.
* `Op.KeepsDirty`, `Op.HasVictim` — the conditions on a call in a state.
-/
namespace OxKernel.Fs

/-! ## The specification -/

/-- The event is a successful write of `data` to `block` of `dev`. -/
def writtenBy (dev : DevNo) (block : BlockNo) : Op × Reply → Option Sector
  | (.write dev' block' data, r) =>
    if dev' = dev ∧ block' = block ∧ r.rtvl = .ok then some data else none
  | (.diskWrite dev' block' data, r) =>
    if dev' = dev ∧ block' = block ∧ r.rtvl = .ok then some data else none
  | (.diskWriteSyncCache dev' block' data, r) =>
    if dev' = dev ∧ block' = block ∧ r.rtvl = .ok then some data else none
  | _ => none

/-- The data of the latest successful write to a block among the events. -/
def latestWrite (dev : DevNo) (block : BlockNo) (es : List (Op × Reply)) : Option Sector :=
  es.foldl (fun a e => (writtenBy dev block e).or a) none

/-- Every `block_read` that returns `BLOCK_OK` delivers the latest preceding
successful write to its block, or the initial contents if there was none. -/
def ReadsLatest (d : Disk) (es : List (Op × Reply)) : Prop :=
  ∀ pre dev block data r post, es = pre ++ (Op.read dev block data, r) :: post →
    r.rtvl = .ok → r.data = some ((latestWrite dev block pre).getD (d dev block))

/-- The flat disk after one event. -/
def flatUpdate (op : Op) (r : Reply) (F : Disk) : Disk :=
  fun dev block => (writtenBy dev block (op, r)).getD (F dev block)

/-- What the flat disk promises about the next event. -/
def FlatReply (F : Disk) : Op → Reply → Prop
  | .read dev block _, r => r.rtvl = .ok → r.data = some (F dev block)
  | _, _ => True

/-- Replaying the events of a run on a flat disk gives the latest write of each block. -/
theorem replay_flatUpdate (es : List (Op × Reply)) (d : Disk) (dev : DevNo) (block : BlockNo) :
    Lib.replay flatUpdate es d dev block = (latestWrite dev block es).getD (d dev block) := by
  induction es using List.reverseRecOn with
  | nil => rfl
  | append_singleton es e ih =>
      rw [Lib.replay_append, latestWrite, List.foldl_append]
      simp only [Lib.replay_cons, Lib.replay_nil, List.foldl_cons, List.foldl_nil, flatUpdate, ih]
      rw [← latestWrite]
      cases writtenBy dev block e <;> rfl

/-! ## The representation relation -/

section Rep
variable {σ : Type} {D : DevLayer σ} {view : σ → Disk} {valid : BlockNo → Prop}

/-- `c` represents the disk `F`. -/
structure Rep (view : σ → Disk) (valid : BlockNo → Prop) (c : Cache σ) (F : Disk) : Prop where
  inv : c.Inv
  owner : ∀ i, (c.slots i).map ≠ blockFreeMark → 0 ≤ (c.slots i).dev ∧ valid (c.slots i).map
  cached : ∀ i, (c.slots i).map ≠ blockFreeMark →
    (c.slots i).array = F (c.slots i).dev (c.slots i).map
  backed : ∀ dev block, block ≠ blockFreeMark →
    (∀ i, (c.slots i).Holds dev block → (c.slots i).dirty = false) →
    view c.hw dev block = F dev block

variable {c : Cache σ} {F : Disk} {dev : DevNo} {block : BlockNo} {i : Fin blockArraySize}

/-- A clean slot is up to date on the device. -/
theorem Rep.backed_clean (H : Rep view valid c F) (hm : (c.slots i).map ≠ blockFreeMark)
    (hd : (c.slots i).dirty = false) :
    view c.hw (c.slots i).dev (c.slots i).map = F (c.slots i).dev (c.slots i).map := by
  refine H.backed _ _ hm fun j hj => ?_
  rwa [H.inv.slots.unique j i (hj.1 ▸ hm) hj.1 hj.2]

/-- A block that is not cached is up to date on the device. -/
theorem Rep.backed_misses (H : Rep view valid c F) (hb : block ≠ blockFreeMark)
    (hm : c.Misses dev block) : view c.hw dev block = F dev block :=
  H.backed dev block hb fun j hj => absurd hj (hm j)

/-- The bookkeeping fields do not matter. -/
theorem Rep.congr (H : Rep view valid c F) {c' : Cache σ} (hs : c'.slots = c.slots)
    (hw : view c'.hw = view c.hw) (hc : c'.curr < blockArraySize) : Rep view valid c' F where
  inv := ⟨hs ▸ H.inv.slots, hc⟩
  owner := hs ▸ H.owner
  cached := hs ▸ H.cached
  backed := by rw [hs, hw]; exact H.backed

/-- Counting a use of a slot. -/
theorem Rep.touch (H : Rep view valid c F) {c' : Cache σ} {s : Slot}
    (hs : c'.slots = Function.update c.slots i s) (hw : c'.hw = c.hw)
    (hc : c'.curr < blockArraySize) (hmap : s.map = (c.slots i).map)
    (hdev : s.dev = (c.slots i).dev) (harr : s.array = (c.slots i).array)
    (hd : s.dirty = (c.slots i).dirty) : Rep view valid c' F := by
  have hsame : ∀ j, (c'.slots j).map = (c.slots j).map ∧ (c'.slots j).dev = (c.slots j).dev ∧
      (c'.slots j).array = (c.slots j).array ∧ (c'.slots j).dirty = (c.slots j).dirty := by
    intro j
    rw [hs]
    by_cases hj : j = i
    · subst hj; simp [hmap, hdev, harr, hd]
    · simp [Function.update_of_ne hj]
  refine ⟨⟨?_, hc⟩, ?_, ?_, ?_⟩
  · rw [hs]
    exact H.inv.slots.updateSame hmap hdev fun he => hd ▸ H.inv.slots.freeClean i (hmap ▸ he)
  · intro j hj
    rw [(hsame j).1] at hj ⊢
    rw [(hsame j).2.1]
    exact H.owner j hj
  · intro j hj
    rw [(hsame j).1] at hj ⊢
    rw [(hsame j).2.1, (hsame j).2.2.1]
    exact H.cached j hj
  · intro d b hb hall
    rw [hw]
    refine H.backed d b hb fun j hj => ?_
    rw [← (hsame j).2.2.2]
    refine hall j ⟨(hsame j).1.trans hj.1, (hsame j).2.1.trans hj.2⟩

/-- Giving a slot whose old contents are on the device to a block that is not cached.
The new slot is dirty unless the device holds the same data. -/
theorem Rep.replace (H : Rep view valid c F) {c' : Cache σ} {s : Slot}
    (hs : c'.slots = Function.update c.slots i s) (hw : view c'.hw = view c.hw)
    (hc : c'.curr < blockArraySize)
    (hold : (c.slots i).map ≠ blockFreeMark →
      view c.hw (c.slots i).dev (c.slots i).map = F (c.slots i).dev (c.slots i).map)
    (hm : c.Misses s.dev s.map) (hb : s.map ≠ blockFreeMark) (hdev : 0 ≤ s.dev) (hv : valid s.map)
    (hnew : s.dirty = false → view c.hw s.dev s.map = s.array) :
    Rep view valid c' (F.set s.dev s.map s.array) := by
  have hne : ∀ j, (c.slots j).map ≠ blockFreeMark →
      ¬ ((c.slots j).dev = s.dev ∧ (c.slots j).map = s.map) :=
    fun j _ he => hm j ⟨he.2, he.1⟩
  refine ⟨⟨?_, hc⟩, ?_, ?_, ?_⟩
  · rw [hs]
    exact H.inv.slots.update (fun he => absurd he hb) fun _ j _ => hm j
  · intro j hj
    rw [hs] at hj ⊢
    by_cases hji : j = i
    · subst hji; simpa using ⟨hdev, hv⟩
    · rw [Function.update_of_ne hji] at hj ⊢
      exact H.owner j hj
  · intro j hj
    rw [hs] at hj ⊢
    by_cases hji : j = i
    · subst hji; simp
    · rw [Function.update_of_ne hji] at hj ⊢
      rw [Disk.set_of_ne (hne j hj)]
      exact H.cached j hj
  · intro d b hb' hall
    rw [hw]
    rw [hs] at hall
    by_cases hdb : d = s.dev ∧ b = s.map
    · obtain ⟨rfl, rfl⟩ := hdb
      rw [Disk.set_self]
      have hi := hall i
      rw [Function.update_self] at hi
      exact hnew (hi ⟨rfl, rfl⟩)
    · rw [Disk.set_of_ne hdb]
      by_cases hi : (c.slots i).Holds d b
      · -- The evicted block reads from the device from now on.
        obtain ⟨rfl, rfl⟩ := hi
        exact hold hb'
      · refine H.backed d b hb' fun j hj => ?_
        have hji : j ≠ i := fun he => hi (he ▸ hj)
        have := hall j
        rw [Function.update_of_ne hji] at this
        exact this hj

/-- New data for a cached block, in its slot and possibly on the device. -/
theorem Rep.overwrite (H : Rep view valid c F) {c' : Cache σ} {s : Slot}
    (hs : c'.slots = Function.update c.slots i s) (hc : c'.curr < blockArraySize)
    (hmap : s.map = (c.slots i).map) (hdev : s.dev = (c.slots i).dev)
    (hb : (c.slots i).map ≠ blockFreeMark)
    (hw : ∀ d b, ¬ (d = s.dev ∧ b = s.map) → view c'.hw d b = view c.hw d b)
    (hnew : s.dirty = false → view c'.hw s.dev s.map = s.array) :
    Rep view valid c' (F.set s.dev s.map s.array) := by
  have hother : ∀ j, j ≠ i → ¬ (c.slots j).Holds s.dev s.map := by
    rintro j hj ⟨h1, h2⟩
    exact hj (H.inv.slots.unique j i (by rw [h1, hmap]; exact hb) (h1.trans hmap) (h2.trans hdev))
  refine ⟨⟨?_, hc⟩, ?_, ?_, ?_⟩
  · rw [hs]
    exact H.inv.slots.updateSame hmap hdev fun he => absurd (hmap ▸ he) hb
  · intro j hj
    rw [hs] at hj ⊢
    by_cases hji : j = i
    · subst hji
      simpa [hmap, hdev] using H.owner j hb
    · rw [Function.update_of_ne hji] at hj ⊢
      exact H.owner j hj
  · intro j hj
    rw [hs] at hj ⊢
    by_cases hji : j = i
    · subst hji; simp
    · rw [Function.update_of_ne hji] at hj ⊢
      rw [Disk.set_of_ne fun he => hother j hji ⟨he.2, he.1⟩]
      exact H.cached j hj
  · intro d b hb' hall
    rw [hs] at hall
    by_cases hdb : d = s.dev ∧ b = s.map
    · obtain ⟨rfl, rfl⟩ := hdb
      rw [Disk.set_self]
      have hi := hall i
      rw [Function.update_self] at hi
      exact hnew (hi ⟨rfl, rfl⟩)
    · rw [Disk.set_of_ne hdb, hw d b hdb]
      refine H.backed d b hb' fun j hj => ?_
      have hji : j ≠ i := by
        rintro rfl
        exact hdb ⟨hj.2.symm.trans hdev.symm, hj.1.symm.trans hmap.symm⟩
      have := hall j
      rw [Function.update_of_ne hji] at this
      exact this hj

/-- Writing a block that is not cached to the device. -/
theorem Rep.through (H : Rep view valid c F) {c' : Cache σ} {data : Sector}
    (hs : c'.slots = c.slots) (hc : c'.curr < blockArraySize) (hm : c.Misses dev block)
    (hw : view c'.hw = (view c.hw).set dev block data) :
    Rep view valid c' (F.set dev block data) := by
  refine ⟨⟨hs ▸ H.inv.slots, hc⟩, hs ▸ H.owner, ?_, ?_⟩
  · intro j hj
    rw [hs] at hj ⊢
    rw [Disk.set_of_ne fun he => hm j ⟨he.2, he.1⟩]
    exact H.cached j hj
  · intro d b hb hall
    rw [hs] at hall
    rw [hw]
    by_cases hdb : d = dev ∧ b = block
    · obtain ⟨rfl, rfl⟩ := hdb
      simp
    · rw [Disk.set_of_ne hdb, Disk.set_of_ne hdb]
      exact H.backed d b hb hall

/-- Writing a slot back to the device: the disk it represents stays the same. -/
theorem Rep.flushed (H : Rep view valid c F) {c' : Cache σ} (hs : c'.slots = c.slots)
    (hc : c'.curr < blockArraySize) (hm : (c.slots i).map ≠ blockFreeMark)
    (hw : view c'.hw = (view c.hw).set (c.slots i).dev (c.slots i).map (c.slots i).array) :
    Rep view valid c' F := by
  refine ⟨⟨hs ▸ H.inv.slots, hc⟩, hs ▸ H.owner, hs ▸ H.cached, ?_⟩
  intro d b hb hall
  rw [hs] at hall
  rw [hw]
  by_cases hdb : d = (c.slots i).dev ∧ b = (c.slots i).map
  · obtain ⟨rfl, rfl⟩ := hdb
    rw [Disk.set_self]
    exact H.cached i hm
  · rw [Disk.set_of_ne hdb]
    exact H.backed d b hb hall

/-- Marking a slot clean whose data is on the device. -/
theorem Rep.clean (H : Rep view valid c F) {c' : Cache σ} {s : Slot}
    (hs : c'.slots = Function.update c.slots i s) (hw : c'.hw = c.hw)
    (hc : c'.curr < blockArraySize) (hmap : s.map = (c.slots i).map)
    (hdev : s.dev = (c.slots i).dev) (harr : s.array = (c.slots i).array)
    (hm : (c.slots i).map ≠ blockFreeMark)
    (hon : view c.hw (c.slots i).dev (c.slots i).map = F (c.slots i).dev (c.slots i).map) :
    Rep view valid c' F := by
  have hset : F.set s.dev s.map s.array = F := by
    funext d b
    by_cases hdb : d = s.dev ∧ b = s.map
    · obtain ⟨rfl, rfl⟩ := hdb
      rw [Disk.set_self, harr, hdev, hmap]
      exact H.cached i hm
    · rw [Disk.set_of_ne hdb]
  have hov : Rep view valid c' (F.set s.dev s.map s.array) := by
    refine H.overwrite hs hc hmap hdev hm (fun d b _ => by rw [hw]) ?_
    intro _
    rw [hw, harr, hdev, hmap, hon]
    exact (H.cached i hm).symm
  rwa [hset] at hov

/-- Releasing a slot whose data is on the device. -/
theorem Rep.release (H : Rep view valid c F)
    (hon : view c.hw (c.slots i).dev (c.slots i).map = F (c.slots i).dev (c.slots i).map) :
    Rep view valid (release i c) F := by
  refine ⟨release_inv H.inv.slots, ?_, ?_, ?_⟩
  · intro j hj
    by_cases hji : j = i
    · subst hji
      simp [OxKernel.Fs.release, Cache.setSlot] at hj
    · simp only [OxKernel.Fs.release, Cache.setSlot, Function.update_of_ne hji] at hj ⊢
      exact H.owner j hj
  · intro j hj
    by_cases hji : j = i
    · subst hji
      simp [OxKernel.Fs.release, Cache.setSlot] at hj
    · simp only [OxKernel.Fs.release, Cache.setSlot, Function.update_of_ne hji] at hj ⊢
      exact H.cached j hj
  · intro d b hb hall
    by_cases hi : (c.slots i).Holds d b
    · obtain ⟨rfl, rfl⟩ := hi
      exact hon
    · refine H.backed d b hb fun j hj => ?_
      have hji : j ≠ i := fun he => hi (he ▸ hj)
      have := hall j
      simp only [OxKernel.Fs.release, Cache.setSlot, Function.update_of_ne hji] at this
      exact this hj

/-! ## The operations over a flat device -/

/-- A fill over a flat device. -/
theorem fill_flat (hD : FlatDev D view valid) (hdev : 0 ≤ dev) (hv : valid block)
    (i : Fin blockArraySize) (c : Cache σ) :
    ∃ hw, fill D dev block i c =
        (.ok, { c.setSlot i { c.slots i with array := view c.hw dev block } with hw := hw }) ∧
      view hw = view c.hw := by
  obtain ⟨hw₁, hscan, -⟩ := hD.scan dev block c.hw hdev
  obtain ⟨hw₂, hread, hview⟩ := hD.read dev block (c.slots i).array c.hw hdev hv
  rw [hscan] at hread
  refine ⟨hw₂, ?_, hview⟩
  simp only [fill, hscan, hread]

/-- A flush over a flat device. -/
theorem flush_flat (hD : FlatDev D view valid) (hdev : 0 ≤ dev) (hv : valid block)
    (data : Sector) (c : Cache σ) :
    ∃ hw, flush D dev block block data c = (.ok, { c with hw := hw }) ∧
      view hw = (view c.hw).set dev block data := by
  obtain ⟨hw₁, hscan, -⟩ := hD.scan dev block c.hw hdev
  obtain ⟨hw₂, hwrite, hview⟩ := hD.write dev block data c.hw hdev hv
  rw [hscan] at hwrite
  refine ⟨hw₂, ?_, hview⟩
  simp only [flush, hscan, hwrite]

/-- The flush of a victim over a device that writes where it has scanned to. -/
theorem flush_scanAddressed (hD : FlatDev D view valid) (hA : ScanAddressed D view valid)
    (hdev : 0 ≤ dev) (hv : valid block) (block' : BlockNo) (data : Sector) (c : Cache σ) :
    ∃ hw, flush D dev block block' data c = (.ok, { c with hw := hw }) ∧
      view hw = (view c.hw).set dev block data := by
  obtain ⟨hw₁, hscan, -⟩ := hD.scan dev block c.hw hdev
  obtain ⟨hw₂, hwrite, hview⟩ := hA dev block block' data c.hw hdev hv
  rw [hscan] at hwrite
  refine ⟨hw₂, ?_, hview⟩
  simp only [flush, hscan, hwrite]

theorem Disk.set_eq_self {F : Disk} {x : Sector} (h : F dev block = x) : F.set dev block x = F := by
  funext d b
  by_cases hdb : d = dev ∧ b = block
  · obtain ⟨rfl, rfl⟩ := hdb
    rw [Disk.set_self, h]
  · rw [Disk.set_of_ne hdb]

/-- The end of every miss path of `block_read`. -/
theorem readInto_flat (hD : FlatDev D view valid) (H : Rep view valid c F)
    (hold : (c.slots i).map ≠ blockFreeMark →
      view c.hw (c.slots i).dev (c.slots i).map = F (c.slots i).dev (c.slots i).map)
    (hm : c.Misses dev block) (hb : block ≠ blockFreeMark) (hdev : 0 ≤ dev) (hv : valid block)
    (data : Sector) :
    ∃ c', readInto D dev block data i c = (.ok, F dev block, c') ∧ Rep view valid c' F := by
  obtain ⟨hw, hfill, hview⟩ := fill_flat hD hdev hv i c
  have hF := H.backed_misses hb hm
  refine ⟨install dev block false i
    { c.setSlot i { c.slots i with array := view c.hw dev block } with hw := hw }, ?_, ?_⟩
  · rw [readInto, hfill]
    simp only [Cache.setSlot, Function.update_self, hF]
  · have hR : Rep view valid (install dev block false i
        { c.setSlot i { c.slots i with array := view c.hw dev block } with hw := hw })
        (F.set dev block (view c.hw dev block)) := H.replace (i := i)
      (s := { c.slots i with
        array := view c.hw dev block, map := block, dev := dev, dirty := false
        lru := if (c.slots i).lru < blockMaxLru then c.highest + 1 else (c.slots i).lru })
      (by
        simp only [install, Cache.setSlot, Function.update_self, Function.update_idem]
        split <;> rfl)
      hview i.isLt hold hm hb hdev hv (fun _ => rfl)
    rwa [Disk.set_eq_self hF.symm] at hR

/-- The end of every miss path of `block_write`. -/
theorem writeInto_flat (H : Rep view valid c F)
    (hold : (c.slots i).map ≠ blockFreeMark →
      view c.hw (c.slots i).dev (c.slots i).map = F (c.slots i).dev (c.slots i).map)
    (hm : c.Misses dev block) (hb : block ≠ blockFreeMark) (hdev : 0 ≤ dev) (hv : valid block)
    (data : Sector) : Rep view valid (writeInto dev block data i c) (F.set dev block data) :=
  H.replace (i := i)
    (s := { c.slots i with
      array := data, map := block, dev := dev, dirty := true
      lru := if (c.slots i).lru < blockMaxLru then c.highest + 1 else (c.slots i).lru })
    (by
      simp only [writeInto, install, Cache.setSlot, Function.update_self, Function.update_idem]
      split <;> rfl)
    rfl i.isLt hold hm hb hdev hv (fun h => absurd h (by simp))

/-- The state in which a miss is served represents the same disk. -/
theorem Rep.missed (H : Rep view valid c F) :
    Rep view valid { c.wrapCurr with highest := c.scan.highest } F :=
  H.congr (by simp) (by simp) c.wrapCurr_lt

/-- The call does not evict a dirty slot. -/
def Op.KeepsDirty (c : Cache σ) : Op → Prop
  | .read dev block _ => ∀ i, c.place dev block ≠ .dirty i
  | .write dev block _ => ∀ i, c.place dev block ≠ .dirty i
  | .diskWriteSyncCache dev block _ => ∀ i, c.place dev block ≠ .dirty i
  | _ => True

/-- The read at the end of a `block_disk_write_sync_cache` finds a slot. -/
def Op.HasVictim (c : Cache σ) : Op → Prop
  | .diskWriteSyncCache dev block _ => c.place dev block ≠ .full
  | _ => True

/-- The victim of a request, if it is dirty, can be written back by this device. -/
def Evicts (D : DevLayer σ) (view : σ → Disk) (valid : BlockNo → Prop) (c : Cache σ)
    (dev : DevNo) (block : BlockNo) : Prop :=
  ScanAddressed D view valid ∨ ∀ i, c.place dev block ≠ .dirty i

/-- A dirty victim is on the device before its slot is given away. -/
theorem evict_flat (hD : FlatDev D view valid) (H : Rep view valid c F)
    (hE : Evicts D view valid c dev block) (hp : c.place dev block = .dirty i) :
    ∃ hw, flush D (c.slots i).dev (c.slots i).map block (c.slots i).array
          { c.wrapCurr with highest := c.scan.highest } =
        (.ok, { c.wrapCurr with highest := c.scan.highest, hw := hw }) ∧
      Rep view valid { c.wrapCurr with highest := c.scan.highest, hw := hw } F ∧
      view hw (c.slots i).dev (c.slots i).map = F (c.slots i).dev (c.slots i).map := by
  obtain hA | hK := hE
  · have hm := (place_dirty hp).2.1 i
    obtain ⟨hdev, hv⟩ := H.owner i hm
    obtain ⟨hw, hfl, hview⟩ := flush_scanAddressed hD hA hdev hv block (c.slots i).array
      { c.wrapCurr with highest := c.scan.highest }
    refine ⟨hw, hfl, ?_, ?_⟩
    · refine H.missed.flushed (i := i) rfl c.wrapCurr_lt ?_ ?_
      · simpa using hm
      · simpa using hview
    · rw [hview, Disk.set_self]
      exact H.cached i hm
  · exact absurd hp (hK i)

/-- `block_read` delivers what the flat disk holds. -/
theorem blockRead_flat (hD : FlatDev D view valid) (H : Rep view valid c F)
    (hE : Evicts D view valid c dev block) (hb : block ≠ blockFreeMark) (hdev : 0 ≤ dev)
    (hv : valid block) (data : Sector) :
    (∃ c', blockRead D dev block data c = (.ok, F dev block, c') ∧ Rep view valid c' F) ∨
    (c.place dev block = .full ∧ ∃ c', blockRead D dev block data c = (.fail, data, c') ∧
      Rep view valid c' F) := by
  have hneg := not_neg_of_nonneg hdev
  cases hp : c.place dev block with
  | hit i =>
      left
      obtain ⟨hm, hd⟩ := place_hit hp
      refine ⟨{ c.setSlot i (c.slots i).bumpLru with curr := i }, ?_, ?_⟩
      · have hx : (c.slots i).array = F dev block := by
          rw [H.cached i (hm ▸ hb), hm, hd]
        simp only [blockRead, hneg, if_false, hp, hx]
      · exact H.touch rfl rfl i.isLt rfl rfl rfl rfl
  | free i =>
      left
      obtain ⟨hm, hfree⟩ := place_free hp
      obtain ⟨c', hr, hR⟩ := readInto_flat (i := i) hD H.missed
        (fun hne => absurd (by simpa using hfree) hne) (Misses.missed hm) hb hdev hv data
      exact ⟨c', by simp only [blockRead, hneg, if_false, hp, hr], hR⟩
  | clean i =>
      left
      obtain ⟨hm, hocc, hclean⟩ := place_clean hp
      have hon := H.backed_clean (hocc i) hclean
      obtain ⟨c', hr, hR⟩ := readInto_flat (i := i) hD H.missed
        (fun _ => by simpa using hon) (Misses.missed hm) hb hdev hv data
      exact ⟨c', by simp only [blockRead, hneg, if_false, hp, hr], hR⟩
  | dirty i =>
      left
      obtain ⟨hw, hfl, hR, hon⟩ := evict_flat hD H hE hp
      obtain ⟨c', hr, hR'⟩ := readInto_flat (i := i) hD hR
        (fun _ => by simpa using hon) (fun j => by simpa using (place_dirty hp).1 j) hb hdev hv data
      exact ⟨c', by simp only [blockRead, hneg, if_false, hp, hfl, hr], hR'⟩
  | full =>
      right
      exact ⟨rfl, _, by simp only [blockRead, hneg, if_false, hp], H.missed⟩

/-- `block_write` changes one block of the flat disk, or fails and changes nothing. -/
theorem blockWrite_flat (hD : FlatDev D view valid) (H : Rep view valid c F)
    (hE : Evicts D view valid c dev block) (hb : block ≠ blockFreeMark) (hdev : 0 ≤ dev)
    (hv : valid block) (data : Sector) :
    (∃ c', blockWrite D dev block data c = (.ok, c') ∧ Rep view valid c' (F.set dev block data)) ∨
    (∃ c', blockWrite D dev block data c = (.fail, c') ∧ Rep view valid c' F) := by
  cases hp : c.place dev block with
  | hit i =>
      left
      obtain ⟨hm, hd⟩ := place_hit hp
      refine ⟨_, by simp only [blockWrite, hp]; rfl, ?_⟩
      have hR : Rep view valid
          { c.setSlot i { (c.slots i).bumpLru with dirty := true, array := data } with curr := i } _ :=
        H.overwrite (i := i) rfl i.isLt rfl rfl (hm ▸ hb) (fun _ _ _ => rfl) (fun h => absurd h (by simp))
      simpa only [Slot.bumpLru, hm, hd] using hR
  | free i =>
      left
      obtain ⟨hm, hfree⟩ := place_free hp
      refine ⟨_, by simp only [blockWrite, hp]; rfl, ?_⟩
      exact writeInto_flat H.missed (fun hne => absurd (by simpa using hfree) hne)
        (Misses.missed hm) hb hdev hv data
  | clean i =>
      left
      obtain ⟨hm, hocc, hclean⟩ := place_clean hp
      have hon := H.backed_clean (hocc i) hclean
      refine ⟨_, by simp only [blockWrite, hp]; rfl, ?_⟩
      exact writeInto_flat H.missed (fun _ => by simpa using hon) (Misses.missed hm) hb hdev hv data
  | dirty i =>
      left
      obtain ⟨hw, hfl, hR, hon⟩ := evict_flat hD H hE hp
      refine ⟨_, by simp only [blockWrite, hp, hfl]; rfl, ?_⟩
      exact writeInto_flat hR (fun _ => by simpa using hon)
        (fun j => by simpa using (place_dirty hp).1 j) hb hdev hv data
  | full =>
      right
      exact ⟨_, by simp only [blockWrite, hp], H.missed⟩

/-- `block_free` does not change what any block reads as. -/
theorem blockFree_flat (hD : FlatDev D view valid) (H : Rep view valid c F)
    (hb : block ≠ blockFreeMark) (hdev : 0 ≤ dev) (hv : valid block) :
    Rep view valid (blockFree D dev block c).2 F := by
  rw [blockFree]
  split
  · exact H
  · split
    · exact H
    · rename_i i hfind
      obtain ⟨hm, hd⟩ : (c.slots i).Holds dev block := by simpa using List.find?_some hfind
      split
      · obtain ⟨hw, hfl, hview⟩ := flush_flat hD hdev hv (c.slots i).array c
        rw [hfl]
        have hR : Rep view valid { c with hw := hw } F :=
          H.flushed (i := i) rfl H.inv.curr (hm ▸ hb) (by rw [hm, hd]; exact hview)
        refine hR.release ?_
        show view hw (c.slots i).dev (c.slots i).map = F (c.slots i).dev (c.slots i).map
        rw [hview, hm, hd, Disk.set_self, H.cached i (hm ▸ hb), hm, hd]
      · rename_i hclean
        exact H.release (H.backed_clean (hm ▸ hb) (by simpa using hclean))

/-- The common part of the write-through functions. -/
theorem writeThrough_flat (hD : FlatDev D view valid) (H : Rep view valid c F)
    (hb : block ≠ blockFreeMark) (hdev : 0 ≤ dev) (hv : valid block) (data : Sector) :
    ∃ found c', writeThrough D dev block data c = (found, .ok, c') ∧
      Rep view valid c' (F.set dev block data) ∧ view c'.hw dev block = data ∧
      (found = false → c.Misses dev block ∧ ∃ hw, c' = { c with hw := hw }) ∧
      (∀ j, (c'.slots j).map = (c.slots j).map ∧ (c'.slots j).dev = (c.slots j).dev) := by
  simp only [writeThrough, H.inv.wrapCurr_eq]
  cases hs : search c.slots c.curr dev block with
  | some i =>
      obtain ⟨hm, hd⟩ := search_some hs
      obtain ⟨hw, hfl, hview⟩ := flush_flat hD hdev hv data
        (c.setSlot i { c.slots i with array := data })
      refine ⟨true, _, by simp only [hfl]; rfl, ?_, ?_, by simp, ?_⟩
      · have hR : Rep view valid
            { c.setSlot i { c.slots i with array := data } with hw := hw } _ :=
          H.overwrite (i := i) rfl H.inv.curr rfl rfl (hm ▸ hb)
          (fun d b hdb => by
            rw [hview, Disk.set_of_ne (by rw [← hm, ← hd]; exact hdb)]; rfl)
          (fun _ => by simp only [hm, hd, hview, Disk.set_self])
        simpa only [hm, hd] using hR
      · rw [hview, Disk.set_self]
      · intro j
        by_cases hj : j = i
        · subst hj; simp [Cache.setSlot]
        · simp [Cache.setSlot, Function.update_of_ne hj]
  | none =>
      obtain ⟨hw, hfl, hview⟩ := flush_flat hD hdev hv data c
      refine ⟨false, { c with hw := hw }, by simp only [hfl], ?_, ?_, ?_, fun j => ⟨rfl, rfl⟩⟩
      · exact H.through rfl H.inv.curr (search_none hs) hview
      · rw [hview, Disk.set_self]
      · exact fun _ => ⟨search_none hs, hw, rfl⟩

/-- `block_disk_write` changes one block of the flat disk. -/
theorem blockDiskWrite_flat (hD : FlatDev D view valid) (H : Rep view valid c F)
    (hb : block ≠ blockFreeMark) (hdev : 0 ≤ dev) (hv : valid block) (data : Sector) :
    ∃ c', blockDiskWrite D dev block data c = (.ok, c') ∧
      Rep view valid c' (F.set dev block data) := by
  obtain ⟨found, c', heq, hR, -⟩ := writeThrough_flat hD H hb hdev hv data
  exact ⟨c', by rw [blockDiskWrite, heq], hR⟩

/-- One step of the loop of `block_sync`. -/
theorem syncSlot_flat (hD : FlatDev D view valid) {a : BlockRtvl × Cache σ}
    (H : Rep view valid a.2 F) : Rep view valid (syncSlot D dev i a).2 F := by
  simp only [syncSlot]
  split
  · rename_i hdirty
    have hm : (a.2.slots i).map ≠ blockFreeMark := by
      intro he
      have := H.inv.slots.freeClean i he
      simp [hdirty.1] at this
    obtain ⟨hdev, hv⟩ := H.owner i hm
    rw [hdirty.2] at hdev
    obtain ⟨found, c', heq, hR, hon, -, hsame⟩ := writeThrough_flat hD H hm hdev hv (a.2.slots i).array
    have hF : F dev (a.2.slots i).map = (a.2.slots i).array := by
      rw [H.cached i hm, hdirty.2]
    rw [Disk.set_eq_self hF] at hR
    have hm' : (c'.slots i).map ≠ blockFreeMark := by rw [(hsame i).1]; exact hm
    have hbd : blockDiskWrite D dev (a.2.slots i).map (a.2.slots i).array a.2 = (.ok, c') := by
      rw [blockDiskWrite, heq]
    rw [hbd]
    refine hR.clean (i := i) rfl rfl hR.inv.curr rfl rfl rfl hm' ?_
    rw [(hsame i).1, (hsame i).2, hdirty.2, hon, hF]
  · exact H

theorem blockSync_flat (hD : FlatDev D view valid) (H : Rep view valid c F) :
    Rep view valid (blockSync D dev c).2 F := by
  have hfold : ∀ (is : List (Fin blockArraySize)) (a : BlockRtvl × Cache σ), Rep view valid a.2 F →
      Rep view valid (is.foldl (fun a i => syncSlot D dev i a) a).2 F := by
    intro is
    induction is with
    | nil => intro a ha; exact ha
    | cons i is ih => intro a ha; exact ih _ (syncSlot_flat hD ha)
  exact hfold _ _ H

/-- `block_disk_write_sync_cache` changes one block of the flat disk if its read finds
a slot. -/
theorem blockDiskWriteSyncCache_flat (hD : FlatDev D view valid) (H : Rep view valid c F)
    (hE : Evicts D view valid c dev block) (hV : c.place dev block ≠ .full)
    (hb : block ≠ blockFreeMark) (hdev : 0 ≤ dev) (hv : valid block) (data : Sector) :
    ∃ x c', blockDiskWriteSyncCache D dev block data c = (.ok, x, c') ∧
      Rep view valid c' (F.set dev block data) := by
  obtain ⟨found, c₁, heq, hR, -, hmiss, -⟩ := writeThrough_flat hD H hb hdev hv data
  rw [blockDiskWriteSyncCache, heq]
  cases found with
  | true => exact ⟨data, c₁, rfl, hR⟩
  | false =>
      obtain ⟨-, hw, rfl⟩ := hmiss rfl
      -- The place of a request does not depend on the hardware below.
      rcases blockRead_flat hD hR hE hb hdev hv data with ⟨c', hr, hR'⟩ | ⟨hfull, -⟩
      · exact ⟨_, c', hr, hR'⟩
      · exact absurd hfull hV

end Rep

/-! ## Runs -/

section Runs
variable {σ : Type} {D : DevLayer σ} {view : σ → Disk} {valid : BlockNo → Prop}

/-- The block numbers of a call are ones the device can address. -/
def Op.Addresses (valid : BlockNo → Prop) : Op → Prop
  | .read _ block _ => valid block
  | .write _ block _ => valid block
  | .free _ block => valid block
  | .sync _ => True
  | .diskWrite _ block _ => valid block
  | .diskWriteSyncCache _ block _ => valid block

theorem flatUpdate_ok {op : Op} {dev : DevNo} {block : BlockNo} {data : Sector} {r : Reply}
    {F : Disk} (hop : op = .write dev block data ∨ op = .diskWrite dev block data ∨
      op = .diskWriteSyncCache dev block data) (hr : r.rtvl = .ok) :
    flatUpdate op r F = F.set dev block data := by
  funext d b
  rcases hop with rfl | rfl | rfl <;>
    (simp only [flatUpdate, writtenBy, Disk.set, hr, and_true]
     by_cases h : dev = d ∧ block = b
     · rw [if_pos h, if_pos ⟨h.1.symm, h.2.symm⟩]; rfl
     · rw [if_neg h, if_neg fun h' => h ⟨h'.1.symm, h'.2.symm⟩]; rfl)

theorem flatUpdate_fail {op : Op} {r : Reply} {F : Disk} (hr : r.rtvl ≠ .ok) :
    flatUpdate op r F = F := by
  funext d b
  cases op <;> simp [flatUpdate, writtenBy, hr]

/-- **One call refines the flat disk**: its reply is one the flat disk gives, and the
new state represents the updated disk. -/
theorem Op.step_flat (hD : FlatDev D view valid) {c : Cache σ} {F : Disk} {op : Op}
    (H : Rep view valid c F) (hop : op.Valid) (ha : op.Addresses valid)
    (hE : ScanAddressed D view valid ∨ op.KeepsDirty c) (hV : op.HasVictim c) :
    FlatReply F op (op.step D c).1 ∧
      Rep view valid (op.step D c).2 (flatUpdate op (op.step D c).1 F) := by
  cases op with
  | read dev block data =>
      have hupd : ∀ r, flatUpdate (.read dev block data) r F = F := fun r => rfl
      rw [hupd]
      rcases blockRead_flat hD H hE hop.2 hop.1 ha data with ⟨c', hr, hR⟩ | ⟨-, c', hr, hR⟩
      · simp only [Op.step, hr, FlatReply, forall_const, true_and]
        exact hR
      · simp only [Op.step, hr, FlatReply, reduceCtorEq, false_implies, true_and]
        exact hR
  | write dev block data =>
      refine ⟨trivial, ?_⟩
      rcases blockWrite_flat hD H hE hop.2 hop.1 ha data with ⟨c', hr, hR⟩ | ⟨c', hr, hR⟩
      · simp only [Op.step, hr]
        rwa [flatUpdate_ok (Or.inl rfl) rfl]
      · simp only [Op.step, hr]
        rwa [flatUpdate_fail (by simp)]
  | free dev block => exact ⟨trivial, blockFree_flat hD H hop.2 hop.1 ha⟩
  | sync dev =>
      refine ⟨trivial, ?_⟩
      simp only [Op.step]
      exact blockSync_flat hD H
  | diskWrite dev block data =>
      refine ⟨trivial, ?_⟩
      obtain ⟨c', hr, hR⟩ := blockDiskWrite_flat hD H hop.2 hop.1 ha data
      simp only [Op.step, hr]
      rwa [flatUpdate_ok (Or.inr (Or.inl rfl)) rfl]
  | diskWriteSyncCache dev block data =>
      refine ⟨trivial, ?_⟩
      obtain ⟨x, c', hr, hR⟩ := blockDiskWriteSyncCache_flat hD H hE hV hop.2 hop.1 ha data
      simp only [Op.step, hr]
      rwa [flatUpdate_ok (Or.inr (Or.inr rfl)) rfl]

/-- A freshly opened cache represents the contents of the devices. -/
theorem Opened.rep {c : Cache σ} (h : Opened D c) : Rep view valid c (view c.hw) where
  inv := h.inv
  owner i hne := absurd (by rw [h.slots_curr.1 i]; rfl) hne
  cached i hne := absurd (by rw [h.slots_curr.1 i]; rfl) hne
  backed _ _ _ _ := rfl

/-- The condition on a call: proper arguments, a dirty victim the device can write
back, and a slot for the read of a write-through. -/
def Op.Served (op : Op) (D : DevLayer σ) (view : σ → Disk) (valid : BlockNo → Prop) (c : Cache σ) :
    Prop :=
  op.Valid ∧ op.Addresses valid ∧ (ScanAddressed D view valid ∨ op.KeepsDirty c) ∧ op.HasVictim c

/-- **The cache refines a flat disk** in every run all of whose calls are served. -/
theorem trace_readsLatest (hD : FlatDev D view valid) {c : Cache σ} (h : Opened D c) {ops : List Op}
    (hops : (cacheMachine D).Admits (fun c op => op.Served D view valid c) ops c) :
    ReadsLatest (view c.hw) ((cacheMachine D).trace ops c) := by
  intro pre dev block data r post heq hr
  have hstep : ∀ s F op, Rep view valid s F → op.Served D view valid s →
      FlatReply F op ((cacheMachine D).step op s).1 ∧
        Rep view valid ((cacheMachine D).step op s).2
          (flatUpdate op ((cacheMachine D).step op s).1 F) :=
    fun s F op hR hg => Op.step_flat hD hR hg.1 hg.2.1 hg.2.2.1 hg.2.2.2
  have hread := Lib.Machine.trace_simulates hstep ops c (view c.hw) h.rep hops pre _ post heq hr
  rwa [replay_flatUpdate] at hread

end Runs

end OxKernel.Fs
