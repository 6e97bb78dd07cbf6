import OxKernel.Fs.Allocator

/-!
# What the allocators do on a flat store

The numbers of a volume that never change are its `Shape`; `MapsOk` says that a device
is mounted with a given shape and that both cursors are inside their maps. Over the
flat store every state a get or a free passes through differs from the state at entry
by the cursor and the window of one map: it is `scanned` at some position. The two
results, `getBlock_flat` and `freeBlock_flat`, describe a call completely in these
terms, and nothing later unfolds the scan.

## Main definitions

* `Shape`, `Shape.Sound`, `Shape.blockAt` — the geometry of a volume.
* `MapsOk` — a mounted device with its cursors in place.
* `scanned` — a state with another cursor and window.
* `Taken`, `Exhausted` — the two ways a get ends.
-/
namespace OxKernel.Fs

/-! ## Geometry -/

/-- The numbers of a master that are fixed when the file system is made. -/
structure Shape where
  blockStart : BlockNo
  mapStart : MapKind → BlockNo
  mapEnd : MapKind → BlockNo
  regionStart : MapKind → BlockNo
  regionEnd : MapKind → BlockNo
  count : MapKind → BlockNo
  dev : BlockNo

/-- The fixed numbers of a master. -/
def Master.shape (m : Master) : Shape where
  blockStart := m.blockStart
  mapStart := m.mapStart
  mapEnd := m.mapEnd
  regionStart := m.regionStart
  regionEnd := m.regionEnd
  count := m.count
  dev := m.dev

@[simp] theorem Master.setPtr_shape (m : Master) (p : BlockNo) (k : MapKind) :
    (m.setPtr p k).shape = m.shape := by
  cases k <;> simp only [shape, setPtr, Shape.mk.injEq, true_and, and_true] <;>
    refine ⟨?_, ?_, ?_, ?_, ?_⟩ <;> funext k <;> cases k <;> rfl

@[simp] theorem Master.setBit_shape (m : Master) (b : BlockNo) (k : MapKind) :
    (m.setBit b k).shape = m.shape := by
  cases k <;> simp only [shape, setBit, Shape.mk.injEq, true_and, and_true] <;>
    refine ⟨?_, ?_, ?_, ?_, ?_⟩ <;> funext k <;> cases k <;> rfl

namespace Shape
variable (g : Shape)

/-- A block of a map. -/
def InMap (k : MapKind) (p : BlockNo) : Prop :=
  (g.mapStart k).toNat ≤ p.toNat ∧ p.toNat < (g.mapEnd k).toNat

instance (k : MapKind) (p : BlockNo) : Decidable (g.InMap k p) := inferInstanceAs (Decidable (_ ∧ _))

/-- The number of blocks of a map. -/
def mapLen (k : MapKind) : ℕ := (g.mapEnd k).toNat - (g.mapStart k).toNat

/-- The layout of the maps is sound: neither is empty, they overlap neither each other
nor the master, and the blocks they number are block numbers. -/
structure Sound : Prop where
  start : ∀ k, 0 < (g.mapStart k).toNat
  nonempty : ∀ k, (g.mapStart k).toNat < (g.mapEnd k).toNat
  fits : ∀ k, (g.regionStart k).toNat + 512 * g.mapLen k ≤ 2 ^ 32
  apart : ∀ p, g.InMap .imap p → ¬ g.InMap .bmap p
  master : ∀ k, ¬ g.InMap k g.blockStart

/-- The block that bit `i` of map block `p` stands for, as a get computes it. -/
def blockAt (k : MapKind) (p i : BlockNo) : BlockNo :=
  g.regionStart k + (p - g.mapStart k) * 512 + i

/-- The map block of a block, as a free computes it. -/
def ptrOf (k : MapKind) (b : BlockNo) : BlockNo := (b - g.regionStart k) / 512 + g.mapStart k

/-- The bit of a block, as a free computes it. -/
def bitOf (k : MapKind) (b : BlockNo) : BlockNo := (b - g.regionStart k) % 512

/-- A map has a bit for this block. -/
def Covers (k : MapKind) (b : BlockNo) : Prop :=
  (g.regionStart k).toNat ≤ b.toNat ∧ b.toNat < (g.regionStart k).toNat + 512 * g.mapLen k

instance (k : MapKind) (b : BlockNo) : Decidable (g.Covers k b) := inferInstanceAs (Decidable (_ ∧ _))

variable {g}

theorem blockAt_toNat (hg : g.Sound) {k : MapKind} {p i : BlockNo} (hp : g.InMap k p)
    (hi : i.toNat < 512) :
    (g.blockAt k p i).toNat =
      (g.regionStart k).toNat + 512 * (p.toNat - (g.mapStart k).toNat) + i.toNat := by
  obtain ⟨h1, h2⟩ := hp
  have hfits := hg.fits k
  have hpm := p.toNat_lt
  simp only [mapLen, Nat.reducePow] at hfits hpm
  have hle : g.mapStart k ≤ p := UInt32.le_iff_toNat_le.mpr h1
  simp only [blockAt, UInt32.toNat_add, UInt32.toNat_mul, UInt32.toNat_sub_of_le _ _ hle,
    UInt32.toNat_ofNat, Nat.reducePow, Nat.reduceMod]
  omega

theorem covers_blockAt (hg : g.Sound) {k : MapKind} {p i : BlockNo} (hp : g.InMap k p)
    (hi : i.toNat < 512) : g.Covers k (g.blockAt k p i) := by
  have h := blockAt_toNat hg hp hi
  obtain ⟨h1, h2⟩ := hp
  simp only [Covers, mapLen]
  omega

theorem sub_regionStart_toNat {k : MapKind} {b : BlockNo} (hb : g.Covers k b) :
    (b - g.regionStart k).toNat = b.toNat - (g.regionStart k).toNat :=
  UInt32.toNat_sub_of_le _ _ (UInt32.le_iff_toNat_le.mpr hb.1)

theorem ptrOf_toNat (hg : g.Sound) {k : MapKind} {b : BlockNo} (hb : g.Covers k b) :
    (g.ptrOf k b).toNat =
      (g.mapStart k).toNat + (b.toNat - (g.regionStart k).toNat) / 512 := by
  have hsub := sub_regionStart_toNat hb
  have hend := (g.mapEnd k).toNat_lt
  have hne := hg.nonempty k
  obtain ⟨h1, h2⟩ := hb
  simp only [mapLen, Nat.reducePow] at h2 hend
  simp only [ptrOf, UInt32.toNat_add, UInt32.toNat_div, hsub, UInt32.toNat_ofNat, Nat.reducePow,
    Nat.reduceMod]
  omega

theorem bitOf_toNat {k : MapKind} {b : BlockNo} (hb : g.Covers k b) :
    (g.bitOf k b).toNat = (b.toNat - (g.regionStart k).toNat) % 512 := by
  simp only [bitOf, UInt32.toNat_mod, sub_regionStart_toNat hb, UInt32.toNat_ofNat, Nat.reducePow,
    Nat.reduceMod]

theorem bitOf_lt {k : MapKind} {b : BlockNo} (hb : g.Covers k b) : (g.bitOf k b).toNat < 512 := by
  rw [bitOf_toNat hb]
  exact Nat.mod_lt _ (by decide)

theorem inMap_ptrOf (hg : g.Sound) {k : MapKind} {b : BlockNo} (hb : g.Covers k b) :
    g.InMap k (g.ptrOf k b) := by
  have h := ptrOf_toNat hg hb
  have hne := hg.nonempty k
  obtain ⟨h1, h2⟩ := hb
  simp only [mapLen] at h2
  simp only [InMap, h]
  omega

/-- A covered block is the block of its own bit. -/
theorem blockAt_ptrOf_bitOf (hg : g.Sound) {k : MapKind} {b : BlockNo} (hb : g.Covers k b) :
    g.blockAt k (g.ptrOf k b) (g.bitOf k b) = b := by
  apply UInt32.toNat_inj.mp
  rw [blockAt_toNat hg (inMap_ptrOf hg hb) (bitOf_lt hb), ptrOf_toNat hg hb, bitOf_toNat hb]
  have := hb.1
  omega

theorem ptrOf_blockAt (hg : g.Sound) {k : MapKind} {p i : BlockNo} (hp : g.InMap k p)
    (hi : i.toNat < 512) : g.ptrOf k (g.blockAt k p i) = p := by
  apply UInt32.toNat_inj.mp
  rw [ptrOf_toNat hg (covers_blockAt hg hp hi), blockAt_toNat hg hp hi]
  have := hp.1
  omega

theorem bitOf_blockAt (hg : g.Sound) {k : MapKind} {p i : BlockNo} (hp : g.InMap k p)
    (hi : i.toNat < 512) : g.bitOf k (g.blockAt k p i) = i := by
  apply UInt32.toNat_inj.mp
  rw [bitOf_toNat (covers_blockAt hg hp hi), blockAt_toNat hg hp hi]
  omega

end Shape

/-! ## Mounted devices -/

/-- Device `dev` is mounted in `row` with shape `g`, and both cursors are in place. -/
structure MapsOk {σ : Type} (g : Shape) (dev : DevNo) (row : Fin inodeNrDev) (s : FsState σ) :
    Prop where
  sound : g.Sound
  mounted : masterGet dev s = some row
  shape : (s.masterTab row).shape = g
  ptr : ∀ k, g.InMap k ((s.masterTab row).ptr k)
  bit : ∀ k, ((s.masterTab row).bit k).toNat < 512

/-- The state `s` with another cursor and window for one map. -/
def scanned {σ : Type} (s : FsState σ) (k : MapKind) (row : Fin inodeNrDev) (p b : BlockNo)
    (w : Sector) : FsState σ :=
  (s.setMaster row (((s.masterTab row).setPtr p k).setBit b k)).setWindow k row w

section Scanned
variable {σ : Type} {s : FsState σ} {k : MapKind} {row : Fin inodeNrDev} {p p' b b' : BlockNo}
  {w w' : Sector}

theorem scanned_masterTab :
    (scanned s k row p b w).masterTab row = ((s.masterTab row).setPtr p k).setBit b k := by
  simp [scanned]

@[simp] theorem scanned_window : (scanned s k row p b w).window k row = w := by simp [scanned]

@[simp] theorem scanned_store : (scanned s k row p b w).store = s.store := rfl

theorem scanned_window_other {k' : MapKind} (h : k' ≠ k) :
    (scanned s k row p b w).window k' = s.window k' := by
  simp [scanned, FsState.setWindow_other _ h]

@[simp] theorem scanned_ptr : ((scanned s k row p b w).masterTab row).ptr k = p := by
  rw [scanned_masterTab]; cases k <;> rfl

@[simp] theorem scanned_bit : ((scanned s k row p b w).masterTab row).bit k = b := by
  rw [scanned_masterTab]; cases k <;> rfl

theorem scanned_ptr_other {k' : MapKind} (h : k' ≠ k) :
    ((scanned s k row p b w).masterTab row).ptr k' = (s.masterTab row).ptr k' := by
  rw [scanned_masterTab]; cases k <;> cases k' <;> first | rfl | exact absurd rfl h

theorem scanned_bit_other {k' : MapKind} (h : k' ≠ k) :
    ((scanned s k row p b w).masterTab row).bit k' = (s.masterTab row).bit k' := by
  rw [scanned_masterTab]; cases k <;> cases k' <;> first | rfl | exact absurd rfl h

@[simp] theorem scanned_shape :
    ((scanned s k row p b w).masterTab row).shape = (s.masterTab row).shape := by
  rw [scanned_masterTab, Master.setBit_shape, Master.setPtr_shape]

/-- A scan starts from the state at entry. -/
theorem scanned_self :
    scanned s k row ((s.masterTab row).ptr k) ((s.masterTab row).bit k) (s.window k row) = s := by
  have hm : ((s.masterTab row).setPtr ((s.masterTab row).ptr k) k).setBit
      ((s.masterTab row).bit k) k = s.masterTab row := by cases k <;> rfl
  simp only [scanned, FsState.setMaster, FsState.setWindow, hm, Function.update_eq_self]

/-- Moving on in a scan. -/
theorem scanned_setBit :
    (scanned s k row p b w).setMaster row (((scanned s k row p b w).masterTab row).setBit b' k) =
      scanned s k row p b' w := by
  have hm : (((s.masterTab row).setPtr p k).setBit b k).setBit b' k =
      ((s.masterTab row).setPtr p k).setBit b' k := by cases k <;> rfl
  rw [scanned_masterTab, hm]
  simp [scanned, FsState.setMaster, FsState.setWindow]

theorem scanned_setWindow :
    (scanned s k row p b w).setWindow k row w' = scanned s k row p b w' := by
  simp [scanned, FsState.setMaster, FsState.setWindow]

theorem masterGet_scanned (dev : DevNo) :
    masterGet dev (scanned s k row p b w) = masterGet dev s := by
  have hdev : ∀ i, ((scanned s k row p b w).masterTab i).dev = (s.masterTab i).dev := by
    intro i
    by_cases hi : i = row
    · subst hi
      exact congrArg Shape.dev (@scanned_shape _ s k i p b w)
    · simp [scanned, FsState.setMaster, Function.update_of_ne hi]
  simp only [masterGet, hdev]

theorem MapsOk.scanned {g : Shape} {dev : DevNo} (h : MapsOk g dev row s) (hp : g.InMap k p)
    (hb : b.toNat < 512) : MapsOk g dev row (scanned s k row p b w) where
  sound := h.sound
  mounted := by rw [masterGet_scanned, h.mounted]
  shape := by rw [scanned_shape, h.shape]
  ptr k' := by
    by_cases hk : k' = k
    · rw [hk, scanned_ptr]; exact hp
    · rw [scanned_ptr_other hk]; exact h.ptr k'
  bit k' := by
    by_cases hk : k' = k
    · rw [hk, scanned_bit]; exact hb
    · rw [scanned_bit_other hk]; exact h.bit k'

/-- Loading a window from a flat store. -/
theorem loadWindow_scanned {s : FsState Disk} (dev : DevNo) :
    loadWindow flatStore k dev row p' (scanned s k row p b w) =
      (.ok, scanned s k row p' b (s.store dev p')) := by
  have hm : (((s.masterTab row).setPtr p k).setBit b k).setPtr p' k =
      ((s.masterTab row).setPtr p' k).setBit b k := by cases k <;> rfl
  simp only [loadWindow, flatStore, scanned_masterTab, hm, FsState.setMaster_store, scanned_store]
  simp [OxKernel.Fs.scanned, FsState.setMaster, FsState.setWindow]

end Scanned

/-! ## Calls on a mounted device -/

section Mounted
variable {σ : Type} {L : BlockLayer σ} {g : Shape} {k : MapKind} {dev : DevNo}
  {row : Fin inodeNrDev} {s : FsState σ}

theorem MapsOk.ptr_ne_zero (hs : MapsOk g dev row s) : (s.masterTab row).ptr k ≠ 0 := by
  intro h0
  have hp := (hs.ptr k).1
  have hpos := hs.sound.start k
  rw [h0] at hp
  simp only [UInt32.toNat_ofNat, Nat.reducePow, Nat.reduceMod] at hp
  omega

theorem MapsOk.regionStart (hs : MapsOk g dev row s) :
    (s.masterTab row).regionStart k = g.regionStart k :=
  congrFun (congrArg Shape.regionStart hs.shape) k

theorem MapsOk.mapStart (hs : MapsOk g dev row s) :
    (s.masterTab row).mapStart k = g.mapStart k :=
  congrFun (congrArg Shape.mapStart hs.shape) k

/-- A mounted map needs no loading. -/
theorem initMap_mounted (hs : MapsOk g dev row s) (checked : Bool) :
    initMap L k checked dev row s = (none, s) := by
  rw [initMap, if_neg hs.ptr_ne_zero]

/-- A get goes right to its scan. -/
theorem getBlock_mounted (hs : MapsOk g dev row s) (block : BlockNo) :
    getBlock L k dev block s =
      (scanLoop L k dev row).run ⟨(s.masterTab row).ptr k, (s.masterTab row).bit k, 0, s⟩ := by
  simp only [getBlock, hs.mounted, initMap_mounted hs, if_neg hs.ptr_ne_zero]

/-- A get whose cursor is at a clear bit goes no further. -/
theorem getBlock_of_clear (hs : MapsOk g dev row s) (block : BlockNo)
    (h0 : bitGet (s.window k row) ((s.masterTab row).bit k).toNat = 0) :
    getBlock L k dev block s =
      takeBit L k dev row ⟨(s.masterTab row).ptr k, (s.masterTab row).bit k, 0, s⟩ := by
  have hbody : (scanLoop L k dev row).body
      ⟨(s.masterTab row).ptr k, (s.masterTab row).bit k, 0, s⟩ =
      .inr (takeBit L k dev row ⟨(s.masterTab row).ptr k, (s.masterTab row).bit k, 0, s⟩) := by
    simp only [scanLoop, scanBody, if_pos h0]
  rw [getBlock_mounted hs, Lib.Loop.run_of_inr hbody]

/-- A free goes right to the map block of its block. -/
theorem freeBlock_mounted (hs : MapsOk g dev row s) (b : BlockNo) :
    freeBlock L k dev b s =
      match (if g.ptrOf k b ≠ (s.masterTab row).ptr k then
          loadWindow L k dev row (g.ptrOf k b)
            (s.setMaster row ((s.masterTab row).setBit (g.bitOf k b) k))
        else (.ok, s.setMaster row ((s.masterTab row).setBit (g.bitOf k b) k))) with
      | (.ok, s) =>
        if bitGet (s.window k row) (g.bitOf k b).toNat = 0 then (.ok, s)
        else (.ok, s.setWindow k row (bitSet (s.window k row) (g.bitOf k b).toNat 0))
      | (_, s) => (.fail, s) := by
  simp only [freeBlock, hs.mounted, initMap_mounted hs, hs.regionStart, hs.mapStart]
  rfl

end Mounted

/-! ## A get -/

section Get
variable (g : Shape) (k : MapKind) (dev : DevNo) (row : Fin inodeNrDev) (s : FsState Disk)

/-- The bit at the cursor is set in the window. -/
def CursorSet : Prop := bitGet (s.window k row) ((s.masterTab row).bit k).toNat = 1

/-- The contents a scan finds for map block `p`: the window it starts with, or, once
the scan has left that window, the block on disk. -/
def Seen (p : BlockNo) (w : Sector) : Prop :=
  p = (s.masterTab row).ptr k ∧ w = s.window k row ∨ CursorSet k row s ∧ w = s.store dev p

/-- The state after a get that has set bit `i` of map block `p`, with contents `w`. -/
def afterTake (p i : BlockNo) (w : Sector) : FsState Disk :=
  { scanned s k row p i (bitSet w i.toNat 1) with
    store := (s.store.set dev g.blockStart
      (Master.layout (((s.masterTab row).setPtr p k).setBit i k))).set dev p (bitSet w i.toNat 1) }

/-- A get that found a clear bit. -/
def Taken (r : GetResult Disk) : Prop :=
  ∃ p i w, g.InMap k p ∧ i.toNat < 512 ∧ Seen k dev row s p w ∧ bitGet w i.toNat = 0 ∧
    (i = (s.masterTab row).bit k ∨ CursorSet k row s) ∧
    r = (.ok, g.blockAt k p i, afterTake g k dev row s p i w)

/-- A get that found every bit of the map set. -/
def Exhausted (r : GetResult Disk) : Prop :=
  CursorSet k row s ∧ (∀ p i, g.InMap k p → i < 512 → bitGet (s.store dev p) i = 1) ∧
    r = (.fail, inodeNull, scanned s k row (g.mapStart k) 0 (s.store dev (g.mapStart k)))

/-- The invariant of the scan: where it is, what it sees, and, in the second pass, that
everything up to here is set on disk. -/
structure ScanInv (a : MapScan Disk) : Prop where
  fs : a.fs = scanned s k row a.ptr a.bit (a.fs.window k row)
  inMap : g.InMap k a.ptr
  bit : a.bit.toNat < 512
  pass : a.pass < inodeNrPass
  seen : Seen k dev row s a.ptr (a.fs.window k row)
  moved : a.bit = (s.masterTab row).bit k ∧ a.fs.window k row = s.window k row ∨ CursorSet k row s
  complete : a.pass = 1 → a.fs.window k row = s.store dev a.ptr ∧
    ∀ p i, g.InMap k p → i < 512 → p.toNat < a.ptr.toNat ∨ p = a.ptr ∧ i < a.bit.toNat →
      bitGet (s.store dev p) i = 1

variable {g k dev row s}

section AfterTake
variable {p i : BlockNo} {w : Sector}

@[simp] theorem afterTake_ptr : ((afterTake g k dev row s p i w).masterTab row).ptr k = p :=
  @scanned_ptr _ s k row p i (bitSet w i.toNat 1)

@[simp] theorem afterTake_bit : ((afterTake g k dev row s p i w).masterTab row).bit k = i :=
  @scanned_bit _ s k row p i (bitSet w i.toNat 1)

@[simp] theorem afterTake_window :
    (afterTake g k dev row s p i w).window k row = bitSet w i.toNat 1 :=
  @scanned_window _ s k row p i (bitSet w i.toNat 1)

theorem afterTake_ptr_other {k' : MapKind} (h : k' ≠ k) :
    ((afterTake g k dev row s p i w).masterTab row).ptr k' = (s.masterTab row).ptr k' :=
  @scanned_ptr_other _ s k row p i (bitSet w i.toNat 1) k' h

theorem afterTake_bit_other {k' : MapKind} (h : k' ≠ k) :
    ((afterTake g k dev row s p i w).masterTab row).bit k' = (s.masterTab row).bit k' :=
  @scanned_bit_other _ s k row p i (bitSet w i.toNat 1) k' h

theorem afterTake_window_other {k' : MapKind} (h : k' ≠ k) :
    (afterTake g k dev row s p i w).window k' = s.window k' :=
  @scanned_window_other _ s k row p i (bitSet w i.toNat 1) k' h

end AfterTake

theorem bitGet_ne_zero {n : ℕ} {data : Fin n → UInt8} {bit : ℕ} (h : ¬ bitGet data bit = 0) :
    bitGet data bit = 1 := by
  by_contra h1
  exact h (bitGet_eq_zero.mpr h1)

theorem ScanInv.start (h : MapsOk g dev row s) :
    ScanInv g k dev row s ⟨(s.masterTab row).ptr k, (s.masterTab row).bit k, 0, s⟩ where
  fs := scanned_self.symm
  inMap := h.ptr k
  bit := h.bit k
  pass := Nat.succ_pos _
  seen := Or.inl ⟨rfl, rfl⟩
  moved := Or.inl ⟨rfl, rfl⟩
  complete h1 := absurd h1 (by simp)

/-- The scan has seen a set bit: the cursor bit was set. -/
theorem ScanInv.cursorSet {a : MapScan Disk} (h : ScanInv g k dev row s a)
    (hbit : bitGet (a.fs.window k row) a.bit.toNat = 1) : CursorSet k row s := by
  rcases h.moved with ⟨hb, hw⟩ | hc
  · rw [hb, hw] at hbit
    exact hbit
  · exact hc

/-- In the second pass a set bit is set on disk. -/
theorem ScanInv.complete_bit {a : MapScan Disk} (h : ScanInv g k dev row s a)
    (hbit : bitGet (a.fs.window k row) a.bit.toNat = 1) (hp : a.pass = 1) :
    ∀ p i, g.InMap k p → i < 512 → p.toNat < a.ptr.toNat ∨ p = a.ptr ∧ i ≤ a.bit.toNat →
      bitGet (s.store dev p) i = 1 := by
  intro p i hpm hi hle
  obtain ⟨hw, hall⟩ := h.complete hp
  rcases hle with hlt | ⟨rfl, hle⟩
  · exact hall p i hpm hi (Or.inl hlt)
  · rcases Nat.lt_or_eq_of_le hle with hlt | rfl
    · exact hall _ i hpm hi (Or.inr ⟨rfl, hlt⟩)
    · rw [← hw]
      exact hbit

/-- The two ways a round goes on. -/
theorem scanBody_set {a : MapScan Disk} (h : ScanInv g k dev row s a) (hs : MapsOk g dev row s)
    (hbit : bitGet (a.fs.window k row) a.bit.toNat = 1) :
    scanBody flatStore k dev row a =
      if (a.bit + 1) % 512 = 0 then
        if a.ptr + 1 < g.mapEnd k then
          MapScan.next ⟨a.ptr + 1, 0, a.pass, scanned s k row (a.ptr + 1) 0 (s.store dev (a.ptr + 1))⟩
        else
          MapScan.next ⟨g.mapStart k, 0, a.pass + 1,
            scanned s k row (g.mapStart k) 0 (s.store dev (g.mapStart k))⟩
      else
        MapScan.next ⟨a.ptr, (a.bit + 1) % 512, a.pass,
          scanned s k row a.ptr ((a.bit + 1) % 512) (a.fs.window k row)⟩ := by
  have hset : a.fs.setMaster row ((a.fs.masterTab row).setBit ((a.bit + 1) % 512) k) =
      scanned s k row a.ptr ((a.bit + 1) % 512) (a.fs.window k row) := by
    rw [h.fs, scanned_setBit, scanned_window]
  have hshape : (a.fs.masterTab row).shape = g := by rw [h.fs, scanned_shape, hs.shape]
  have hend : ((a.fs.masterTab row).setBit ((a.bit + 1) % 512) k).mapEnd k = g.mapEnd k := by
    rw [Master.setBit_mapEnd]
    exact congrFun (congrArg Shape.mapEnd hshape) k
  have hstart : ((a.fs.masterTab row).setBit ((a.bit + 1) % 512) k).mapStart k = g.mapStart k := by
    rw [← hshape]
    cases k <;> rfl
  have hne : ¬ bitGet (a.fs.window k row) a.bit.toNat = 0 := by rw [hbit]; decide
  simp only [scanBody, if_neg hne, hset, hend, hstart, scanBlock]
  split
  · rename_i h0
    rw [h0]
    simp only [loadWindow_scanned]
  · rfl

theorem succ_toNat_of_inMap {p : BlockNo} (hp : g.InMap k p) : (p + 1).toNat = p.toNat + 1 :=
  Lib.toNat_succ_of_lt (UInt32.lt_iff_toNat_lt.mpr hp.2)

/-- A state of the second pass sees the disk. -/
theorem ScanInv.next {p b : BlockNo} {pass : ℕ} {w : Sector} {a : MapScan Disk}
    (hp : g.InMap k p) (hb : b.toNat < 512) (hseen : Seen k dev row s p w)
    (hc : CursorSet k row s)
    (hcomplete : pass = 1 → w = s.store dev p ∧
      ∀ q i, g.InMap k q → i < 512 → q.toNat < p.toNat ∨ q = p ∧ i < b.toNat →
        bitGet (s.store dev q) i = 1)
    (hnext : MapScan.next ⟨p, b, pass, scanned s k row p b w⟩ = .inl a) :
    ScanInv g k dev row s a := by
  obtain ⟨rfl, hpass⟩ := next_inl hnext
  exact ⟨by rw [scanned_window], hp, hb, hpass, by simpa using hseen, Or.inr hc,
    by simpa using hcomplete⟩

/-- **A round of the scan keeps the invariant.** -/
theorem ScanInv.step (hs : MapsOk g dev row s) {a b : MapScan Disk} (h : ScanInv g k dev row s a)
    (hbody : scanBody flatStore k dev row a = .inl b) : ScanInv g k dev row s b := by
  by_cases hbit : bitGet (a.fs.window k row) a.bit.toNat = 1
  · have hc := h.cursorSet hbit
    have hall := h.complete_bit hbit
    rw [scanBody_set h hs hbit] at hbody
    have hmod := Lib.toNat_succ_mod a.bit
    have hlt := h.bit
    split at hbody
    · rename_i h0
      have h511 : a.bit.toNat = 511 := by
        rw [h0] at hmod
        simp only [UInt32.toNat_ofNat, Nat.reducePow, Nat.reduceMod] at hmod
        omega
      split at hbody
      · -- On to the next map block.
        rename_i hend
        have hsucc := succ_toNat_of_inMap h.inMap
        have hin : g.InMap k (a.ptr + 1) :=
          ⟨by have := h.inMap.1; omega, UInt32.lt_iff_toNat_lt.mp hend⟩
        refine ScanInv.next hin (by decide) (Or.inr ⟨hc, rfl⟩) hc (fun hp => ⟨rfl, ?_⟩) hbody
        intro q i hq hi hle
        refine hall hp q i hq hi ?_
        rcases hle with hlt | ⟨-, hi0⟩
        · by_cases hqa : q = a.ptr
          · exact Or.inr ⟨hqa, by omega⟩
          · have hne : q.toNat ≠ a.ptr.toNat := fun he => hqa (UInt32.toNat_inj.mp he)
            exact Or.inl (by omega)
        · simp at hi0
      · -- Around to the first one.
        have hin : g.InMap k (g.mapStart k) := ⟨le_rfl, hs.sound.nonempty k⟩
        refine ScanInv.next hin (by decide) (Or.inr ⟨hc, rfl⟩) hc (fun hp => ⟨rfl, ?_⟩) hbody
        intro q i hq hi hle
        have := hq.1
        rcases hle with hlt | ⟨-, hi0⟩
        · omega
        · simp at hi0
    · rename_i h0
      have hne : ((a.bit + 1) % 512).toNat ≠ 0 := fun he => h0 (UInt32.toNat_inj.mp he)
      refine ScanInv.next h.inMap (by omega) h.seen hc (fun hp => ⟨(h.complete hp).1, ?_⟩) hbody
      intro q i hq hi hle
      refine hall hp q i hq hi ?_
      rcases hle with hlt | ⟨hqa, hi'⟩
      · exact Or.inl hlt
      · exact Or.inr ⟨hqa, by omega⟩
  · simp only [scanBody, if_pos (bitGet_eq_zero.mpr hbit)] at hbody
    cases hbody

/-- Setting the bit that the scan has found. -/
theorem takeBit_scanned (hs : MapsOk g dev row s) (p i : BlockNo) (w : Sector) (pass : ℕ) :
    takeBit flatStore k dev row ⟨p, i, pass, scanned s k row p i w⟩ =
      (.ok, g.blockAt k p i, afterTake g k dev row s p i w) := by
  have hm : (((s.masterTab row).setPtr p k).setBit i k).setBit i k =
      ((s.masterTab row).setPtr p k).setBit i k := by cases k <;> rfl
  have hshape : (((s.masterTab row).setPtr p k).setBit i k).shape = g := by
    rw [Master.setBit_shape, Master.setPtr_shape, hs.shape]
  have hb : (((s.masterTab row).setPtr p k).setBit i k).blockStart = g.blockStart :=
    congrArg Shape.blockStart hshape
  have hr : (((s.masterTab row).setPtr p k).setBit i k).regionStart k = g.regionStart k :=
    congrFun (congrArg Shape.regionStart hshape) k
  have hst : (((s.masterTab row).setPtr p k).setBit i k).mapStart k = g.mapStart k :=
    congrFun (congrArg Shape.mapStart hshape) k
  have hset : (scanned s k row p i (bitSet w i.toNat 1)).setMaster row
      (((s.masterTab row).setPtr p k).setBit i k) = scanned s k row p i (bitSet w i.toNat 1) := by
    have h := @scanned_setBit _ s k row p i i (bitSet w i.toNat 1)
    rwa [scanned_masterTab, hm] at h
  simp only [takeBit, scanned_window, scanned_setWindow, scanned_masterTab, hm, hb, hr, hst, hset,
    flatStore, scanned_store]
  rfl

/-- **The result of a scan** that keeps its invariant. -/
theorem scanBody_leave (hs : MapsOk g dev row s) {a : MapScan Disk} {r : GetResult Disk}
    (h : ScanInv g k dev row s a) (hbody : scanBody flatStore k dev row a = .inr r) :
    Taken g k dev row s r ∨ Exhausted g k dev row s r := by
  by_cases hbit : bitGet (a.fs.window k row) a.bit.toNat = 1
  · right
    have hc := h.cursorSet hbit
    have hpass := h.pass
    have hlt := h.bit
    have hmod := Lib.toNat_succ_mod a.bit
    have hstay : ∀ (p b : BlockNo) (fs : FsState Disk),
        MapScan.next ⟨p, b, a.pass, fs⟩ ≠ .inr r := by
      intro p b fs hn
      simp only [MapScan.next, if_pos hpass] at hn
      cases hn
    rw [scanBody_set h hs hbit] at hbody
    split at hbody
    · rename_i h0
      have h511 : a.bit.toNat = 511 := by
        rw [h0] at hmod
        simp only [UInt32.toNat_ofNat, Nat.reducePow, Nat.reduceMod] at hmod
        omega
      split at hbody
      · exact absurd hbody (hstay _ _ _)
      · -- The end of the second pass.
        rename_i hend
        have hlast : (g.mapEnd k).toNat ≤ a.ptr.toNat + 1 := by
          rw [← succ_toNat_of_inMap h.inMap]
          exact UInt32.le_iff_toNat_le.mp (UInt32.not_lt.mp hend)
        simp only [MapScan.next] at hbody
        split at hbody
        · cases hbody
        · rename_i hp
          have hp1 : a.pass = 1 := by
            simp only [inodeNrPass] at hp hpass
            omega
          refine ⟨hc, ?_, (Sum.inr.inj hbody).symm⟩
          intro q i hq hi
          refine h.complete_bit hbit hp1 q i hq hi ?_
          by_cases hqa : q = a.ptr
          · exact Or.inr ⟨hqa, by omega⟩
          · have hne : q.toNat ≠ a.ptr.toNat := fun he => hqa (UInt32.toNat_inj.mp he)
            have := hq.2
            exact Or.inl (by omega)
    · exact absurd hbody (hstay _ _ _)
  · left
    have h0 := bitGet_eq_zero.mpr hbit
    simp only [scanBody, if_pos h0] at hbody
    refine ⟨a.ptr, a.bit, a.fs.window k row, h.inMap, h.bit, h.seen, h0, ?_, ?_⟩
    · exact h.moved.imp And.left id
    · rw [← Sum.inr.inj hbody, ← takeBit_scanned hs a.ptr a.bit (a.fs.window k row) a.pass, ← h.fs]

/-- **A get on a mounted device**: it takes a clear bit, or finds every bit set. -/
theorem getBlock_flat (hs : MapsOk g dev row s) (block : BlockNo) :
    Taken g k dev row s (getBlock flatStore k dev block s) ∨
      Exhausted g k dev row s (getBlock flatStore k dev block s) := by
  rw [getBlock_mounted hs]
  exact Lib.Loop.run_rule (L := scanLoop flatStore k dev row) (P := ScanInv g k dev row s)
    (fun a b ha hb => ha.step hs hb) (fun a r ha hb => scanBody_leave hs ha hb) _ (.start hs)

/-- A get whose cursor is at a clear bit takes that bit. -/
theorem getBlock_cursor_clear (hs : MapsOk g dev row s) (block : BlockNo)
    (h0 : bitGet (s.window k row) ((s.masterTab row).bit k).toNat = 0) :
    getBlock flatStore k dev block s =
      (.ok, g.blockAt k ((s.masterTab row).ptr k) ((s.masterTab row).bit k),
        afterTake g k dev row s ((s.masterTab row).ptr k) ((s.masterTab row).bit k)
          (s.window k row)) := by
  rw [getBlock_of_clear hs block h0, ← takeBit_scanned hs _ _ (s.window k row) 0, scanned_self]

/-! ## A free -/

/-- The state after a free of a covered block: the cursor and the window have moved to
the bit of the block, the bit is clear and the other bits of the window are those of
the contents it was loaded with. -/
theorem freeBlock_flat (hs : MapsOk g dev row s) {b : BlockNo} (hb : g.Covers k b) :
    ∃ w, freeBlock flatStore k dev b s = (.ok, scanned s k row (g.ptrOf k b) (g.bitOf k b) w) ∧
      bitGet w (g.bitOf k b).toNat = 0 ∧
      ∀ i, i ≠ (g.bitOf k b).toNat →
        bitGet w i = bitGet (if g.ptrOf k b = (s.masterTab row).ptr k then s.window k row
          else s.store dev (g.ptrOf k b)) i := by
  have hload : (if g.ptrOf k b ≠ (s.masterTab row).ptr k then
        loadWindow flatStore k dev row (g.ptrOf k b)
          (s.setMaster row ((s.masterTab row).setBit (g.bitOf k b) k))
      else (.ok, s.setMaster row ((s.masterTab row).setBit (g.bitOf k b) k))) =
      (.ok, scanned s k row (g.ptrOf k b) (g.bitOf k b)
        (if g.ptrOf k b = (s.masterTab row).ptr k then s.window k row
          else s.store dev (g.ptrOf k b))) := by
    have hself := @scanned_setBit _ s k row ((s.masterTab row).ptr k) ((s.masterTab row).bit k)
      (g.bitOf k b) (s.window k row)
    rw [scanned_self] at hself
    rw [hself]
    by_cases hp : g.ptrOf k b = (s.masterTab row).ptr k
    · rw [if_neg (not_not.mpr hp), if_pos hp, hp]
    · rw [if_pos hp, if_neg hp, loadWindow_scanned]
  generalize hw : (if g.ptrOf k b = (s.masterTab row).ptr k then s.window k row
    else s.store dev (g.ptrOf k b)) = w at hload
  rw [freeBlock_mounted hs, hload]
  simp only [scanned_window]
  have hlt : (g.bitOf k b).toNat / 8 < devBlockSize := by
    have := Shape.bitOf_lt hb
    simp only [devBlockSize]
    omega
  split
  · rename_i h0
    exact ⟨w, rfl, h0, fun i _ => rfl⟩
  · refine ⟨bitSet w (g.bitOf k b).toNat 0, ?_, ?_, ?_⟩
    · rw [scanned_setWindow]
    · exact bitGet_bitSet_self hlt (Or.inl rfl)
    · intro i hi
      exact bitGet_bitSet_of_ne hi

/-- A get right after a free returns the freed block: the free has left the cursor there. -/
theorem getBlock_freeBlock (hs : MapsOk g dev row s) {b : BlockNo} (hb : g.Covers k b)
    (block : BlockNo) :
    (getBlock flatStore k dev block (freeBlock flatStore k dev b s).2).1 = .ok ∧
      (getBlock flatStore k dev block (freeBlock flatStore k dev b s).2).2.1 = b := by
  obtain ⟨w, hr, h0, -⟩ := freeBlock_flat hs hb
  have hs' := hs.scanned (w := w) (Shape.inMap_ptrOf hs.sound hb) (Shape.bitOf_lt hb)
  rw [hr, getBlock_cursor_clear hs' block (by rw [scanned_window, scanned_bit]; exact h0)]
  refine ⟨rfl, ?_⟩
  rw [scanned_ptr, scanned_bit]
  exact Shape.blockAt_ptrOf_bitOf hs.sound hb

end Get

end OxKernel.Fs
