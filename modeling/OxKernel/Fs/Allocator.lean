import OxKernel.Fs.Bitmap
import OxKernel.Fs.Volume
import OxKernel.Lib.Loop
import OxKernel.Lib.Words

/-!
# The block allocators

`inode_get_data_block` and `inode_get_inode_block` are one algorithm over the two maps
of a volume, and so are the two functions that free a block; each is the common
definition at its own map. A get scans the map from the saved cursor, one window of a
map block at a time, and gives up when it has passed the end of the map twice. Only
512 bits of a map block are ever looked at: the bit index is taken modulo
`DEV_BLOCK_SIZE`, the size of the block in bytes.

A get writes the master and the window; a free changes the window only.

## Main definitions

* `MapScan`, `scanBody`, `scanLoop` — the scan of a get, with its variant.
* `inodeGetDataBlock`, `inodeGetInodeBlock`, `inodeFreeDataBlock`,
  `inodeFreeInodeBlock` — the functions of `inode.h`.
-/
namespace OxKernel.Fs

variable {σ : Type}

/-- The locals of a get, and the state. -/
structure MapScan (σ : Type) where
  ptr : BlockNo
  bit : BlockNo
  pass : ℕ
  fs : FsState σ

/-- What a get returns: the result, the contents of `*block`, and the state. -/
abbrev GetResult (σ : Type) := InodeRtvl × BlockNo × FsState σ

/-- The test at the end of the scan's loop. -/
def MapScan.next (a : MapScan σ) : MapScan σ ⊕ GetResult σ :=
  if a.pass < inodeNrPass then .inl a else .inr (.fail, inodeNull, a.fs)

section Get
variable (L : BlockLayer σ) (k : MapKind) (dev : DevNo) (row : Fin inodeNrDev)

/-- The scan has found a clear bit: set it, and write the master and the window. -/
def takeBit (a : MapScan σ) : GetResult σ :=
  let fs := a.fs.setWindow k row (bitSet (a.fs.window k row) a.bit.toNat 1)
  let m := (fs.masterTab row).setBit a.bit k
  let fs := fs.setMaster row m
  match L.blockWrite dev m.blockStart (Master.layout m) fs.store with
  | (.ok, st) =>
    match L.blockWrite dev a.ptr (fs.window k row) st with
    | (.ok, st) =>
      (.ok, m.regionStart k + (a.ptr - m.mapStart k) * 512 + a.bit, { fs with store := st })
    | (_, st) => (.fail, inodeNopos, { fs with store := st })
  | (_, st) => (.fail, inodeNopos, { fs with store := st })

/-- The scan goes on in map block `p`. -/
def scanBlock (p : BlockNo) (pass : ℕ) (fs : FsState σ) : MapScan σ ⊕ GetResult σ :=
  match loadWindow L k dev row p fs with
  | (.ok, fs) => MapScan.next ⟨p, 0, pass, fs⟩
  | (_, fs) => .inr (.fail, inodeNopos, fs)

/-- The body of the scan's loop. -/
def scanBody (a : MapScan σ) : MapScan σ ⊕ GetResult σ :=
  if bitGet (a.fs.window k row) a.bit.toNat = 0 then .inr (takeBit L k dev row a)
  else
    let bit := (a.bit + 1) % 512
    let m := (a.fs.masterTab row).setBit bit k
    let fs := a.fs.setMaster row m
    if bit = 0 then
      if a.ptr + 1 < m.mapEnd k then scanBlock L k dev row (a.ptr + 1) a.pass fs
      else scanBlock L k dev row (m.mapStart k) (a.pass + 1) fs
    else MapScan.next ⟨a.ptr, bit, a.pass, fs⟩

end Get

/-! ## The frame of the mount table -/

@[simp] theorem Master.setPtr_mapEnd (m : Master) (p : BlockNo) (k k' : MapKind) :
    (m.setPtr p k).mapEnd k' = m.mapEnd k' := by cases k <;> cases k' <;> rfl
@[simp] theorem Master.setBit_mapEnd (m : Master) (b : BlockNo) (k k' : MapKind) :
    (m.setBit b k).mapEnd k' = m.mapEnd k' := by cases k <;> cases k' <;> rfl

@[simp] theorem FsState.setMaster_masterTab (s : FsState σ) (row : Fin inodeNrDev) (m : Master) :
    (s.setMaster row m).masterTab row = m := by simp [FsState.setMaster]
@[simp] theorem FsState.setMaster_window (s : FsState σ) (row : Fin inodeNrDev) (m : Master) :
    (s.setMaster row m).window = s.window := rfl
@[simp] theorem FsState.setMaster_store (s : FsState σ) (row : Fin inodeNrDev) (m : Master) :
    (s.setMaster row m).store = s.store := rfl
@[simp] theorem FsState.setWindow_masterTab (s : FsState σ) (k : MapKind) (row : Fin inodeNrDev)
    (data : Sector) : (s.setWindow k row data).masterTab = s.masterTab := rfl
@[simp] theorem FsState.setWindow_store (s : FsState σ) (k : MapKind) (row : Fin inodeNrDev)
    (data : Sector) : (s.setWindow k row data).store = s.store := rfl
@[simp] theorem FsState.setWindow_self (s : FsState σ) (k : MapKind) (row : Fin inodeNrDev)
    (data : Sector) : (s.setWindow k row data).window k row = data := by
  simp [FsState.setWindow]
@[simp] theorem FsState.setWindow_other (s : FsState σ) {k k' : MapKind} (h : k' ≠ k)
    (row : Fin inodeNrDev) (data : Sector) :
    (s.setWindow k row data).window k' = s.window k' := by
  simp [FsState.setWindow, Function.update_of_ne h]

theorem loadWindow_masterTab (L : BlockLayer σ) (k : MapKind) (dev : DevNo) (row : Fin inodeNrDev)
    (p : BlockNo) (s : FsState σ) :
    (loadWindow L k dev row p s).2.masterTab row = (s.masterTab row).setPtr p k := by
  simp [loadWindow]

/-! ## Termination of the scan -/

section Loop
variable (L : BlockLayer σ) (k : MapKind) (dev : DevNo) (row : Fin inodeNrDev)

/-- The passes left, the map blocks left in this pass, the bits left in this block. -/
def scanVariant (a : MapScan σ) : ℕ × ℕ × ℕ :=
  (inodeNrPass - a.pass, ((a.fs.masterTab row).mapEnd k).toNat - (a.ptr + 1).toNat,
    511 - a.bit.toNat % 512)

theorem next_inl {a b : MapScan σ} (h : a.next = .inl b) : a = b ∧ a.pass < inodeNrPass := by
  simp only [MapScan.next] at h
  split at h
  · rename_i hp
    exact ⟨Sum.inl.inj h, hp⟩
  · cases h

theorem scanBlock_inl {p : BlockNo} {pass : ℕ} {fs : FsState σ} {b : MapScan σ}
    (h : scanBlock L k dev row p pass fs = .inl b) :
    b.ptr = p ∧ b.pass = pass ∧ pass < inodeNrPass ∧
      (b.fs.masterTab row).mapEnd k = (fs.masterTab row).mapEnd k := by
  have hload := loadWindow_masterTab L k dev row p fs
  simp only [scanBlock] at h
  split at h
  · rename_i fs' heq
    rw [heq] at hload
    obtain ⟨rfl, hpass⟩ := next_inl h
    refine ⟨rfl, rfl, hpass, ?_⟩
    rw [hload, Master.setPtr_mapEnd]
  · cases h

/-- Every round of the scan that goes on decreases the variant, from every cursor. -/
theorem scanBody_decreases (a b : MapScan σ) (h : scanBody L k dev row a = .inl b) :
    WellFoundedRelation.rel (scanVariant k row b) (scanVariant k row a) := by
  have hbit : ((a.bit + 1) % 512).toNat = (a.bit.toNat + 1) % 512 := Lib.toNat_succ_mod a.bit
  simp only [scanBody] at h
  split at h
  · cases h
  · split at h
    · split at h
      · -- The next map block of the same pass.
        rename_i hlt
        obtain ⟨hptr, hpass, -, hend⟩ := scanBlock_inl L k dev row h
        rw [FsState.setMaster_masterTab, Master.setBit_mapEnd] at hend
        rw [Master.setBit_mapEnd] at hlt
        have hlt' : (a.ptr + 1).toNat < ((a.fs.masterTab row).mapEnd k).toNat :=
          UInt32.lt_iff_toNat_lt.mp hlt
        have hsucc : (a.ptr + 1 + 1).toNat = (a.ptr + 1).toNat + 1 := Lib.toNat_succ_of_lt hlt
        simp only [scanVariant, hend, hptr, hpass, hsucc]
        rw [Lib.rel_triple]
        exact Or.inr ⟨rfl, Or.inl (by simp only; omega)⟩
      · -- The first map block of the next pass.
        obtain ⟨-, hpass, hlt, -⟩ := scanBlock_inl L k dev row h
        rw [Lib.rel_triple]
        exact Or.inl (by simp only [scanVariant, hpass, inodeNrPass] at hlt ⊢; omega)
    · -- The next bit of the same map block.
      rename_i hne
      obtain ⟨rfl, -⟩ := next_inl h
      have hne' : ((a.bit + 1) % 512).toNat ≠ 0 := fun h0 => hne (UInt32.toNat_inj.mp h0)
      simp only [scanVariant, FsState.setMaster_masterTab, Master.setBit_mapEnd]
      rw [Lib.rel_triple]
      exact Or.inr ⟨rfl, Or.inr ⟨rfl, by simp only; omega⟩⟩

/-- The loop of a get. -/
def scanLoop : Lib.Loop (MapScan σ) (GetResult σ) (ℕ × ℕ × ℕ) where
  body := scanBody L k dev row
  variant := scanVariant k row
  decreases := scanBody_decreases L k dev row

end Loop

/-! ## The functions -/

section Functions
variable (L : BlockLayer σ)

/-- The common start of a get and a free: a map that was never used is loaded from its
first block. The result is `none` when the call goes on. -/
def initMap (k : MapKind) (checked : Bool) (dev : DevNo) (row : Fin inodeNrDev) (s : FsState σ) :
    Option InodeRtvl × FsState σ :=
  if (s.masterTab row).ptr k = 0 then
    if checked ∧ (s.masterTab row).initFs = 0 then (some .fail, s) else
    let m := (s.masterTab row).setPtr ((s.masterTab row).mapStart k) k
    match masterGetMemPtr dev (s.setMaster row m) with
    | none => (some .fail, s.setMaster row m)
    | some i =>
      match loadWindow L k dev row (m.ptr k)
          (s.setMaster row (m.setWindow (s.windowAddr k i) k)) with
      | (.ok, s) => (none, s)
      | (_, s) => (some .fail, s)
  else (none, s)

/-- A get over one of the maps, given the old contents of `*block`. -/
def getBlock (k : MapKind) (dev : DevNo) (block : BlockNo) (s : FsState σ) : GetResult σ :=
  match masterGet dev s with
  | none => (.fail, block, s)
  | some row =>
    -- A map that is loaded here is scanned from its first bit.
    let bit := if (s.masterTab row).ptr k = 0 then 0 else (s.masterTab row).bit k
    match initMap L k true dev row s with
    | (some r, s) => (r, inodeNopos, s)
    | (none, s) => (scanLoop L k dev row).run ⟨(s.masterTab row).ptr k, bit, 0, s⟩

/-- A free over one of the maps. -/
def freeBlock (k : MapKind) (dev : DevNo) (block : BlockNo) (s : FsState σ) :
    InodeRtvl × FsState σ :=
  match masterGet dev s with
  | none => (.fail, s)
  | some row =>
    match initMap L k false dev row s with
    | (some r, s) => (r, s)
    | (none, s) =>
      let m := s.masterTab row
      let block := block - m.regionStart k
      let ptr := block / 512 + m.mapStart k
      let bit := block % 512
      match (if ptr ≠ m.ptr k then loadWindow L k dev row ptr (s.setMaster row (m.setBit bit k))
        else (.ok, s.setMaster row (m.setBit bit k))) with
      | (.ok, s) =>
        if bitGet (s.window k row) bit.toNat = 0 then (.ok, s)
        else (.ok, s.setWindow k row (bitSet (s.window k row) bit.toNat 0))
      | (_, s) => (.fail, s)

/-- `inode_get_data_block`. -/
def inodeGetDataBlock : DevNo → BlockNo → FsState σ → GetResult σ := getBlock L .bmap

/-- `inode_get_inode_block`. -/
def inodeGetInodeBlock : DevNo → BlockNo → FsState σ → GetResult σ := getBlock L .imap

/-- `inode_free_data_block`. -/
def inodeFreeDataBlock : DevNo → BlockNo → FsState σ → InodeRtvl × FsState σ := freeBlock L .bmap

/-- `inode_free_inode_block`. -/
def inodeFreeInodeBlock : DevNo → BlockNo → FsState σ → InodeRtvl × FsState σ := freeBlock L .imap

end Functions

end OxKernel.Fs
