import OxKernel.Fs.Cache
import OxKernel.Lib.Layout
import Mathlib.Tactic.FinCases

/-!
# Volumes: the master inode and the mount table

The first part of `inode.c`: the master record of a file system, the table of mounted
devices with one bitmap window for each map, `inode_create_fs` and `inode_dev_open`.
The code is written over a `BlockLayer`, the functions of `block.h` and `dev.h` it
calls; the flat store is one instance and the buffer cache another.

A `char *` into one of the static window arrays is kept as the address it holds, for
the image of the master on disk. Once a map pointer is set, `master->imap` and
`master->bmap` point to the windows of the master's own row, so accesses through them
are accesses to `window` at that row. `errno` and the messages are left out.

## Main definitions

* `BlockLayer`, `flatStore`, `cacheStore` — the storage below.
* `Master`, `Master.layout` — `master_inode_t` and its image in a sector.
* `FsState` — the static variables of `inode.c` and the storage.
* `inodeCreateFs`, `inodeDevOpen` — making and mounting a file system.
-/
namespace OxKernel.Fs

/-! ## Storage -/

/-- The functions of `block.h` and `dev.h` used by the file system. -/
structure BlockLayer (σ : Type) extends DevLayer σ where
  /-- `block_open(path, dev)`, given the old contents of `*dev`. -/
  blockOpen : String → DevNo → σ → BlockRtvl × DevNo × σ
  /-- `block_read(dev, block, data)`, given the old contents of the buffer. -/
  blockRead : DevNo → BlockNo → Sector → σ → BlockRtvl × Sector × σ
  /-- `block_write(dev, block, data)`. -/
  blockWrite : DevNo → BlockNo → Sector → σ → BlockRtvl × σ
  /-- `block_sync(dev)`. -/
  blockSync : DevNo → σ → BlockRtvl × σ
  /-- `block_reinit()`. -/
  blockReinit : σ → σ

/-- A flat store that never fails, over the kernel's device numbers. -/
def flatStore : BlockLayer Disk where
  toDevLayer := kernelDev
  blockOpen _ _ d := (.ok, 0, d)
  blockRead dev block _ d := (.ok, d dev block, d)
  blockWrite dev block data d := (.ok, d.set dev block data)
  blockSync _ d := (.ok, d)
  blockReinit d := d

/-- Apply a function of the device layer below a cache. -/
def Cache.below {σ α : Type} (f : σ → α × σ) (c : Cache σ) : α × Cache σ :=
  ((f c.hw).1, { c with hw := (f c.hw).2 })

/-- The buffer cache over a device layer; the calls of `dev.h` go past the cache. -/
def cacheStore {σ : Type} (D : DevLayer σ) : BlockLayer (Cache σ) where
  devOpen path dev c :=
    let a := c.below fun hw => (((D.devOpen path dev hw).1, (D.devOpen path dev hw).2.1),
      (D.devOpen path dev hw).2.2)
    (a.1.1, a.1.2, a.2)
  devClose dev c := c.below (D.devClose dev)
  devScan dev block c := c.below (D.devScan dev block)
  devRead dev block data c :=
    let a := c.below fun hw => (((D.devRead dev block data hw).1, (D.devRead dev block data hw).2.1),
      (D.devRead dev block data hw).2.2)
    (a.1.1, a.1.2, a.2)
  devWrite dev block data c := c.below (D.devWrite dev block data)
  blockOpen := OxKernel.Fs.blockOpen D
  blockRead := OxKernel.Fs.blockRead D
  blockWrite := OxKernel.Fs.blockWrite D
  blockSync := OxKernel.Fs.blockSync D
  blockReinit c := { c with init := false }

/-! ## The master record -/

/-- `INODE_MAGIC`. -/
def inodeMagic : Int16 := 1925

/-- `INODE_NR_PASS`. -/
def inodeNrPass : ℕ := 2

/-- `INODE_NR_DEV`. -/
abbrev inodeNrDev : ℕ := 16

/-- `INODE_NULL`. -/
def inodeNull : BlockNo := 0

/-- `INODE_NOPOS`, the constant `-1` as a `block_t`. -/
def inodeNopos : BlockNo := 4294967295

/-- `BLOCK_START`. -/
def blockStart : BlockNo := 4096

/-- `MNODE_PAD`. -/
abbrev mnodePad : ℕ := 436

/-- `inode_rtvl_t`. -/
inductive InodeRtvl
  | ok
  | fail
  | param
  | fileNotFound
  | invalidPath
  | exists
  | inconsistent
  | init
  deriving DecidableEq, Repr

/-- `master_inode_t`. -/
structure Master where
  magic : Int16
  initFs : Int16
  blockStart : BlockNo
  inodeMapStart : BlockNo
  inodeMapEnd : BlockNo
  bmapMapStart : BlockNo
  bmapMapEnd : BlockNo
  inodeStart : BlockNo
  inodeEnd : BlockNo
  dataStart : BlockNo
  dataEnd : BlockNo
  imapPtr : BlockNo
  imapBit : BlockNo
  bmapPtr : BlockNo
  bmapBit : BlockNo
  inodes : BlockNo
  blocks : BlockNo
  imap : UInt32
  bmap : UInt32
  dev : BlockNo
  pad : Fin mnodePad → UInt8

/-- The fields of a master in the order of the declaration. -/
def Master.fields :
    Master ≃ Int16 × Int16 × (Fin 17 → UInt32) × BlockNo × (Fin mnodePad → UInt8) where
  toFun m :=
    (m.magic, m.initFs,
      ![m.blockStart, m.inodeMapStart, m.inodeMapEnd, m.bmapMapStart, m.bmapMapEnd, m.inodeStart,
        m.inodeEnd, m.dataStart, m.dataEnd, m.imapPtr, m.imapBit, m.bmapPtr, m.bmapBit, m.inodes,
        m.blocks, m.imap, m.bmap], m.dev, m.pad)
  invFun f :=
    ⟨f.1, f.2.1, f.2.2.1 0, f.2.2.1 1, f.2.2.1 2, f.2.2.1 3, f.2.2.1 4, f.2.2.1 5, f.2.2.1 6,
      f.2.2.1 7, f.2.2.1 8, f.2.2.1 9, f.2.2.1 10, f.2.2.1 11, f.2.2.1 12, f.2.2.1 13, f.2.2.1 14,
      f.2.2.1 15, f.2.2.1 16, f.2.2.2.1, f.2.2.2.2⟩
  left_inv _ := rfl
  right_inv f := by
    obtain ⟨a, b, w, c, d⟩ := f
    simp only [Prod.mk.injEq, true_and, and_true]
    funext i
    fin_cases i <;> rfl

/-- The image of a master in a sector. -/
def Master.layout : Lib.Layout devBlockSize Master :=
  Master.fields.trans (Lib.Layout.i16.prod (Lib.Layout.i16.prod ((Lib.Layout.u32.array 17).prod
    (Lib.Layout.u32.prod (Lib.Layout.bytes mnodePad)))))

/-- The zeroed record of `memset(m, 0x0, DEV_BLOCK_SIZE)`. -/
def Master.zero : Master := Master.layout.symm Sector.zero

/-! ## The two maps -/

/-- The inode map and the data block map, which the code treats alike. -/
inductive MapKind
  | imap
  | bmap
  deriving DecidableEq, Repr

namespace Master

/-- The first block of a map. -/
def mapStart (m : Master) : MapKind → BlockNo
  | .imap => m.inodeMapStart
  | .bmap => m.bmapMapStart

/-- The block after a map. -/
def mapEnd (m : Master) : MapKind → BlockNo
  | .imap => m.inodeMapEnd
  | .bmap => m.bmapMapEnd

/-- The first block of the region a map describes. -/
def regionStart (m : Master) : MapKind → BlockNo
  | .imap => m.inodeStart
  | .bmap => m.dataStart

/-- The block after the region a map describes. -/
def regionEnd (m : Master) : MapKind → BlockNo
  | .imap => m.inodeEnd
  | .bmap => m.dataEnd

/-- The number of blocks the master promises for a map. -/
def count (m : Master) : MapKind → BlockNo
  | .imap => m.inodes
  | .bmap => m.blocks

/-- The map block in the window. -/
def ptr (m : Master) : MapKind → BlockNo
  | .imap => m.imapPtr
  | .bmap => m.bmapPtr

/-- The bit the next scan starts at. -/
def bit (m : Master) : MapKind → BlockNo
  | .imap => m.imapBit
  | .bmap => m.bmapBit

/-- Set the number of the map block in the window. -/
def setPtr (m : Master) (p : BlockNo) : MapKind → Master
  | .imap => { m with imapPtr := p }
  | .bmap => { m with bmapPtr := p }

/-- Set the bit the next scan starts at. -/
def setBit (m : Master) (b : BlockNo) : MapKind → Master
  | .imap => { m with imapBit := b }
  | .bmap => { m with bmapBit := b }

/-- Set the pointer to the window. -/
def setWindow (m : Master) (a : UInt32) : MapKind → Master
  | .imap => { m with imap := a }
  | .bmap => { m with bmap := a }

end Master

/-! ## The mount table -/

/-- The static variables of `inode.c`, and the storage. -/
structure FsState (σ : Type) where
  store : σ
  /-- `master_tab` -/
  masterTab : Fin inodeNrDev → Master
  /-- `master_imap_memory` and `master_bmap_memory` -/
  window : MapKind → Fin inodeNrDev → Sector
  /-- `init_master` -/
  initMaster : Bool
  /-- Where the linker put the windows. -/
  windowAddr : MapKind → Fin inodeNrDev → UInt32

section Tables
variable {σ : Type}

namespace FsState

/-- Replace a row of the mount table. -/
def setMaster (s : FsState σ) (row : Fin inodeNrDev) (m : Master) : FsState σ :=
  { s with masterTab := Function.update s.masterTab row m }

/-- Replace the contents of a window. -/
def setWindow (s : FsState σ) (k : MapKind) (row : Fin inodeNrDev) (data : Sector) : FsState σ :=
  { s with window := Function.update s.window k (Function.update (s.window k) row data) }

end FsState

/-- Write one block of a flat store. -/
def FsState.write (fs : FsState Disk) (dev : DevNo) (b : BlockNo) (data : Sector) : FsState Disk :=
  { fs with store := fs.store.set dev b data }

@[simp] theorem FsState.write_self (fs : FsState Disk) (dev : DevNo) (b : BlockNo)
    (data : Sector) : (fs.write dev b data).store dev b = data := Disk.set_self _ _ _ _

theorem FsState.write_of_ne {fs : FsState Disk} {dev : DevNo} {b b' : BlockNo} {data : Sector}
    (h : b' ≠ b) : (fs.write dev b data).store dev b' = fs.store dev b' :=
  Disk.set_of_ne fun he => h he.2

/-- `master_init`. -/
def masterInit (s : FsState σ) : FsState σ :=
  if s.initMaster then s
  else
    { s with
      masterTab := fun _ => { Master.zero with dev := inodeNopos }
      window := fun _ _ => Sector.zero
      initMaster := true }

/-- `master_get`, as the row of the table it points to. -/
def masterGet (dev : DevNo) (s : FsState σ) : Option (Fin inodeNrDev) :=
  (List.finRange inodeNrDev).find? fun i => (s.masterTab i).dev = dev.toUInt32

/-- `master_get_mem_ptr`: the same search, for the index of the windows. -/
def masterGetMemPtr (dev : DevNo) (s : FsState σ) : Option (Fin inodeNrDev) :=
  (List.finRange inodeNrDev).find? fun i => (s.masterTab i).dev = dev.toUInt32

/-- `master_alloc`. -/
def masterAlloc (dev : DevNo) (s : FsState σ) : Option (Fin inodeNrDev) × FsState σ :=
  match masterGet dev s with
  | some i => (some i, s)
  | none =>
    match (List.finRange inodeNrDev).find? fun i => (s.masterTab i).dev = inodeNopos with
    | some i => (some i, s.setMaster i { s.masterTab i with dev := dev.toUInt32 })
    | none => (none, s)

/-- `master_free`. -/
def masterFree (dev : DevNo) (s : FsState σ) : FsState σ :=
  match masterGet dev s with
  | some i => s.setMaster i { Master.zero with dev := inodeNopos }
  | none => s

end Tables

/-! ## Making a file system -/

section Create
variable {σ : Type} (L : BlockLayer σ)

/-- The record `inode_create_fs` computes for `n` blocks of space: 20% inodes and 80%
data blocks, with at least one map block each. -/
def Master.format (m : Master) (start n : BlockNo) : Master :=
  let inodes := n * 20 / 100
  let imap := inodes / 8 / 512
  let imap := if imap = 0 then imap + 1 else imap
  let blocks := n * 80 / 100
  let bmap := blocks / 8 / 512
  let bmap := if bmap = 0 then bmap + 1 else bmap
  { m with
    initFs := 1
    magic := inodeMagic
    blockStart := start
    inodeMapStart := start + 1
    inodeMapEnd := start + 1 + imap
    bmapMapStart := start + 1 + imap
    bmapMapEnd := start + 1 + imap + bmap
    inodeStart := start + 1 + imap + bmap
    inodeEnd := start + 1 + imap + bmap + inodes
    dataStart := start + 1 + imap + bmap + inodes
    dataEnd := start + 1 + imap + bmap + inodes + blocks
    imapPtr := 0
    bmapPtr := 0
    imapBit := 0
    bmapBit := 0
    imap := 0
    bmap := 0
    inodes := inodes
    blocks := blocks
    pad := fun _ => 0 }

/-- `dev_scan` and `dev_write` of one block, the results ignored. -/
def devPut (dev : DevNo) (block : BlockNo) (data : Sector) (st : σ) : σ :=
  (L.devWrite dev block data (L.devScan dev block st).2).2

/-- The loops that zero the blocks from `lo` up to `hi`. -/
def zeroBlocks (dev : DevNo) (lo hi : BlockNo) (st : σ) : σ :=
  (List.range (hi.toNat - lo.toNat)).foldl
    (fun st j => devPut L dev (lo + UInt32.ofNat j) Sector.zero st) st

/-- `inode_create_fs`. Without a free row the source goes on with a null pointer; here
the call fails. -/
def inodeCreateFs (path : String) (start size : BlockNo) (s : FsState σ) : InodeRtvl × FsState σ :=
  let s := masterInit s
  if size % 512 ≠ 0 then (.fail, s) else
  let a := L.devOpen path 0 s.store
  let dev := a.2.1
  let s := (masterAlloc dev { s with store := a.2.2 }).2
  match masterGet dev s with
  | none => (.fail, s)
  | some row =>
    let m := (s.masterTab row).format start (size / 512)
    let st := devPut L dev start (Master.layout m) s.store
    let st := zeroBlocks L dev m.inodeMapStart m.inodeMapEnd st
    let st := zeroBlocks L dev m.bmapMapStart m.bmapMapEnd st
    let st := zeroBlocks L dev m.inodeStart m.inodeEnd st
    let st := L.blockReinit st
    let st := (L.devScan dev 0 st).2
    let st := (L.devClose dev st).2
    (.ok, masterFree dev { s.setMaster row m with store := st })

/-- `inode_mkfs`. -/
def inodeMkfs (path : String) (size : BlockNo) (s : FsState σ) : InodeRtvl × FsState σ :=
  inodeCreateFs L path blockStart (size - 2097152) s

end Create

/-! ## Mounting -/

section Mount
variable {σ : Type} (L : BlockLayer σ)

/-- Point a map at block `p` and read that block into the window. -/
def loadWindow (k : MapKind) (dev : DevNo) (row : Fin inodeNrDev) (p : BlockNo) (s : FsState σ) :
    BlockRtvl × FsState σ :=
  let s := s.setMaster row ((s.masterTab row).setPtr p k)
  match L.blockRead dev p (s.window k row) s.store with
  | (r, data, st) => (r, { s.setWindow k row data with store := st })

/-- Close the device after a failed mount, with or without giving the row back. -/
def mountFail (r : InodeRtvl) (dev : DevNo) (free : Bool) (s : FsState σ) :
    InodeRtvl × DevNo × FsState σ :=
  let s := if free then masterFree dev s else s
  (r, dev, { s with store := (L.devClose dev s.store).2 })

/-- Load a map after the master has been read: the window of row `i` becomes the
window of the master, and a master that was never used starts at its first map block. -/
def mountMap (k : MapKind) (dev : DevNo) (row i : Fin inodeNrDev) (s : FsState σ) :
    BlockRtvl × FsState σ :=
  let m := (s.masterTab row).setWindow (s.windowAddr k i) k
  if m.ptr k = 0 then
    loadWindow L k dev row (m.mapStart k) (s.setMaster row (m.setBit 0 k))
  else loadWindow L k dev row (m.ptr k) (s.setMaster row m)

/-- The end of `inode_dev_open`, once a master with the right magic is in the table. -/
def mountMaps (dev : DevNo) (row : Fin inodeNrDev) (s : FsState σ) :
    InodeRtvl × DevNo × FsState σ :=
  if (s.masterTab row).initFs ≠ 1 then mountFail L .init dev true s else
  match masterGetMemPtr dev s with
  | none => mountFail L .fail dev true s
  | some i =>
    match mountMap L .bmap dev row i s with
    | (.ok, s) =>
      match mountMap L .imap dev row i s with
      | (.ok, s) => (.ok, dev, s)
      | (_, s) => mountFail L .fail dev true s
    | (_, s) => mountFail L .fail dev true s

/-- `inode_dev_open`, given the old contents of `*dev`. -/
def inodeDevOpen (path : String) (dev : DevNo) (s : FsState σ) : InodeRtvl × DevNo × FsState σ :=
  match L.blockOpen path dev s.store with
  | (.ok, dev, st) =>
    match masterAlloc dev (masterInit { s with store := st }) with
    | (none, s) => mountFail L .fail dev false s
    | (some row, s) =>
      match L.blockRead dev blockStart (Master.layout (s.masterTab row)) s.store with
      | (.ok, data, st) =>
        let s := { s.setMaster row (Master.layout.symm data) with store := st }
        if (s.masterTab row).magic = inodeMagic then mountMaps L dev row s
        else
          -- The magic number was not there: try again without the cache.
          match L.devRead dev blockStart (Master.layout (s.masterTab row)) s.store with
          | (.ok, data, st) =>
            let s := { s.setMaster row (Master.layout.symm data) with store := st }
            if (s.masterTab row).magic = inodeMagic then mountMaps L dev row s
            else mountFail L .init dev true s
          | (_, data, st) =>
            mountFail L .init dev false { s.setMaster row (Master.layout.symm data) with store := st }
      | (_, data, st) =>
        mountFail L .fail dev false { s.setMaster row (Master.layout.symm data) with store := st }
  | (_, dev, st) => (.fail, dev, { s with store := st })

end Mount

end OxKernel.Fs
