import OxKernel.Fs.Allocator
import OxKernel.Lib.Attempt

/-!
# Inodes and block maps

`inode_t` and `block_map_t` with their images in a sector, as `gcc -m32` lays them out:
a `long long` is aligned to four bytes, so the padding is two bytes after the fourteen
flags and two bytes before `next`. The padding is part of the record, because a structure
assignment and a write to disk carry it along.

A file function works on an inode in memory, on a buffer of its caller and on the file
system, and leaves with an error from anywhere; it is an `Attempt` over these three.

## Main definitions

* `Inode`, `Inode.layout` — `inode_t`.
* `BlockMap`, `BlockMap.layout` — `block_map_t`.
* `FileIo`, `FileM` — what a file function works on.
* `readBlock`, `writeBlock`, `getDataBlock` — the checked calls.
-/
namespace OxKernel.Fs

/-- `MAX_PATH`. -/
abbrev maxPath : ℕ := 256

instance : NeZero maxPath := ⟨by decide⟩

/-- `INODE_PAD`. -/
abbrev inodePad : ℕ := 166

/-- `BMAP_BLOCKS`. -/
abbrev bmapBlocks : ℕ := 127

/-- `inode_t`. -/
structure Inode where
  userRead : UInt8
  userWrite : UInt8
  userExecute : UInt8
  groupRead : UInt8
  groupWrite : UInt8
  groupExecute : UInt8
  worldRead : UInt8
  worldWrite : UInt8
  worldExecute : UInt8
  isDirectory : UInt8
  isDevice : UInt8
  isFile : UInt8
  isSymlink : UInt8
  isHardlink : UInt8
  padFlags : Fin 2 → UInt8
  createTime : BlockNo
  modifiedTime : BlockNo
  accessedTime : BlockNo
  self : BlockNo
  parent : BlockNo
  size : UInt64
  pos : UInt64
  current : BlockNo
  currentParent : BlockNo
  iblock : Int32
  dev : DevNo
  oMode : UInt32
  group : UInt32
  owner : UInt32
  refcount : BlockNo
  path : Fin maxPath → UInt8
  pad : Fin inodePad → UInt8
  padNext : Fin 2 → UInt8
  next : BlockNo

/-- The fields of an inode in the order of the declaration. -/
def Inode.fields :
    Inode ≃ (Fin 14 → UInt8) × (Fin 2 → UInt8) × (Fin 5 → UInt32) × UInt64 × UInt64 ×
      (Fin 2 → UInt32) × Int32 × Int32 × (Fin 4 → UInt32) × (Fin maxPath → UInt8) ×
      (Fin inodePad → UInt8) × (Fin 2 → UInt8) × UInt32 where
  toFun n :=
    (![n.userRead, n.userWrite, n.userExecute, n.groupRead, n.groupWrite, n.groupExecute,
        n.worldRead, n.worldWrite, n.worldExecute, n.isDirectory, n.isDevice, n.isFile,
        n.isSymlink, n.isHardlink], n.padFlags,
      ![n.createTime, n.modifiedTime, n.accessedTime, n.self, n.parent], n.size, n.pos,
      ![n.current, n.currentParent], n.iblock, n.dev, ![n.oMode, n.group, n.owner, n.refcount],
      n.path, n.pad, n.padNext, n.next)
  invFun f :=
    match f with
    | (c, p, t, size, pos, cur, iblock, dev, w, path, pad, pn, next) =>
      ⟨c 0, c 1, c 2, c 3, c 4, c 5, c 6, c 7, c 8, c 9, c 10, c 11, c 12, c 13, p, t 0, t 1, t 2,
        t 3, t 4, size, pos, cur 0, cur 1, iblock, dev, w 0, w 1, w 2, w 3, path, pad, pn, next⟩
  left_inv _ := rfl
  right_inv f := by
    obtain ⟨c, p, t, size, pos, cur, iblock, dev, w, path, pad, pn, next⟩ := f
    simp only [Prod.mk.injEq, true_and, and_true]
    refine ⟨?_, ?_, ?_, ?_⟩ <;> (funext i; fin_cases i <;> rfl)

open Lib.Layout in
/-- The image of an inode in a sector. -/
def Inode.layout : Lib.Layout devBlockSize Inode :=
  Inode.fields.trans ((u8.array 14).prod ((bytes 2).prod ((u32.array 5).prod (u64.prod (u64.prod
    ((u32.array 2).prod (i32.prod (i32.prod ((u32.array 4).prod ((bytes maxPath).prod
      ((bytes inodePad).prod ((bytes 2).prod u32))))))))))))

/-- `inode_t zero_inode = {0}`. -/
def Inode.zero : Inode := Inode.layout.symm Sector.zero

/-- `block_map_t`. -/
structure BlockMap where
  next : BlockNo
  blocks : Fin bmapBlocks → BlockNo

/-- The fields of a block map in the order of the declaration. -/
def BlockMap.fields : BlockMap ≃ UInt32 × (Fin bmapBlocks → UInt32) where
  toFun m := (m.next, m.blocks)
  invFun f := ⟨f.1, f.2⟩
  left_inv _ := rfl
  right_inv _ := rfl

/-- The image of a block map in a sector. -/
def BlockMap.layout : Lib.Layout devBlockSize BlockMap :=
  BlockMap.fields.trans (Lib.Layout.u32.prod (Lib.Layout.u32.array bmapBlocks))

/-- `block_map_t zero_data = {0}`. -/
def BlockMap.zero : BlockMap := ⟨0, fun _ => 0⟩

/-- A block map of zeroes is a sector of zeroes. -/
theorem BlockMap.layout_zero : BlockMap.layout BlockMap.zero = Sector.zero :=
  Lib.Layout.zeroed_u32.prod (Lib.Layout.zeroed_u32.array bmapBlocks)

namespace BlockMap

/-- An index into `blocks`. The callers keep theirs below `BMAP_BLOCKS`. -/
def index (i : BlockNo) : Fin bmapBlocks := Fin.ofNat bmapBlocks i.toNat

/-- `bmap.blocks[i]`. -/
def entry (m : BlockMap) (i : BlockNo) : BlockNo := m.blocks (index i)

/-- `bmap.blocks[i] = b`. -/
def setEntry (m : BlockMap) (i b : BlockNo) : BlockMap :=
  { m with blocks := Function.update m.blocks (index i) b }

end BlockMap

/-! ## The world of a file function -/

/-- A buffer of the caller: the memory from a pointer on. -/
abbrev Buffer := ℕ → UInt8

/-- What a file function works on: the file system, the inode and the buffer. -/
structure FileIo (σ : Type) where
  fs : FsState σ
  inode : Inode
  data : Buffer

/-- Computations of the file functions. -/
abbrev FileM (σ : Type) := Lib.Attempt (FileIo σ)

section Calls
variable {σ : Type} (L : BlockLayer σ)

/-- Replace the storage. -/
def FileIo.setStore (s : FileIo σ) (st : σ) : FileIo σ := { s with fs := { s.fs with store := st } }

/-- The inode in memory. -/
def getInode : FileM σ Inode := do
  let s ← Lib.Attempt.get
  pure s.inode

/-- Change the inode in memory. -/
def modifyInode (f : Inode → Inode) : FileM σ Unit :=
  Lib.Attempt.modify fun s => { s with inode := f s.inode }

/-- `block_read` into a local buffer, checked. The old contents of the buffer play no part:
a function whose read has failed leaves, and its buffers with it. -/
def readBlock (dev : DevNo) (block : BlockNo) : FileM σ Sector := fun s =>
  match L.blockRead dev block Sector.zero s.fs.store with
  | (.ok, data, st) => (some data, s.setStore st)
  | (_, _, st) => (none, s.setStore st)

/-- `block_write`, checked. -/
def writeBlock (dev : DevNo) (block : BlockNo) (data : Sector) : FileM σ Unit := fun s =>
  match L.blockWrite dev block data s.fs.store with
  | (.ok, st) => (some (), s.setStore st)
  | (_, st) => (none, s.setStore st)

/-- `inode_get_data_block`, checked, into a variable that holds 0. -/
def getDataBlock (dev : DevNo) : FileM σ BlockNo := fun s =>
  match inodeGetDataBlock L dev 0 s.fs with
  | (.ok, block, fs) => (some block, { s with fs := fs })
  | (_, _, fs) => (none, { s with fs := fs })

/-- `block_read` of a block map, checked. -/
def readMap (dev : DevNo) (block : BlockNo) : FileM σ BlockMap := do
  let data ← readBlock L dev block
  pure (BlockMap.layout.symm data)

/-- Run a computation on a local buffer of zeroes. -/
def withZeroBuffer {α : Type} (x : FileM σ α) : FileM σ α := fun s =>
  match x { s with data := fun _ => 0 } with
  | (r, s') => (r, { s' with data := s.data })

end Calls

end OxKernel.Fs
