import OxKernel.Fs.Process

/-!
# Files

`file.c`: the transfer engine `file_read_write` and the calls `kread`, `kwrite` and `klseek`
above it. A file is a chain of block maps from `inode->next` on, each with 127 data blocks.
`file_read_write` has four ways of finding the block to start with, and then goes byte by
byte; at the end of a block it moves on to the next one and adds what the chain lacks, also
when it reads.

The clock is an argument. `errno` and the messages are left out.

## Main definitions

* `fileReadWrite` — the transfer engine, with `locate`, `nextBlock` and `transferByte`.
* `kread`, `kwrite`, `klseek` — the calls.
-/
namespace OxKernel.Fs

open Lib (Attempt)

/-! ## The transfer engine -/

/-- Where a transfer is: the data block, its index in the block map, the number of the
block map and its contents. -/
structure Spot where
  start : BlockNo
  iblock : BlockNo
  current : BlockNo
  bmap : BlockMap

/-- The block map index of a position. -/
def mapIndex (pos : UInt64) : BlockNo := (pos / 512).toUInt32 % 127

/-- The number of block maps to read to get to a position, as the source computes it. -/
def mapSteps (pos : UInt64) : BlockNo :=
  let block := (pos / 512).toUInt32 + (if pos % 512 ≠ 0 then 1 else 0) + (if pos = 0 then 1 else 0)
  block / 127 + if block % 127 ≠ 0 then 1 else 0

section Engine
variable {σ : Type} (L : BlockLayer σ) (dev : DevNo)

/-- `file_add_one_bmap_block`. -/
def fileAddOneBmapBlock (current : BlockNo) (bmap : BlockMap) : FileM σ BlockMap := do
  let block ← getDataBlock L dev
  let bmap := { bmap with next := block }
  writeBlock L dev block (BlockMap.layout BlockMap.zero)
  writeBlock L dev current (BlockMap.layout bmap)
  pure bmap

/-- `file_add_one_data_block`. -/
def fileAddOneDataBlock (current : BlockNo) (bmap : BlockMap) (iblock : BlockNo) :
    FileM σ BlockMap := do
  let block ← getDataBlock L dev
  let bmap := bmap.setEntry iblock block
  writeBlock L dev block Sector.zero
  writeBlock L dev current (BlockMap.layout bmap)
  pure bmap

/-- The start of a transfer on a file without a chain: the first block map and the first
data block are made. The data block is not cleared. -/
def locateFresh : FileM σ Spot := do
  let block ← getDataBlock L dev
  modifyInode fun n => { n with next := block }
  let n ← getInode
  writeBlock L dev n.self (Inode.layout n)
  writeBlock L dev n.next Sector.zero
  let bmap ← readMap L dev n.next
  let block ← getDataBlock L dev
  let bmap := bmap.setEntry 0 block
  writeBlock L dev n.next (BlockMap.layout bmap)
  pure ⟨block, 0, n.next, bmap⟩

/-- The start of the first transfer after the file was opened. -/
def locateFirst (n : Inode) : FileM σ Spot := do
  let bmap ← readMap L dev n.next
  pure ⟨bmap.entry 0, 0, n.next, bmap⟩

/-- The start of a transfer where the last one ended. -/
def locateResume (n : Inode) : FileM σ Spot := do
  let bmap ← readMap L dev n.currentParent
  pure ⟨n.current, n.iblock.toUInt32, n.currentParent, bmap⟩

/-- One step along the chain: the block map read last, and its number. -/
def chainStep (a : BlockNo × BlockMap) : FileM σ (BlockNo × BlockMap) := do
  let bmap ← readMap L dev a.2.next
  pure (a.2.next, bmap)

/-- The start of a transfer at a position that has to be looked for. -/
def locateScan (n : Inode) (pos : UInt64) : FileM σ Spot := do
  let a ← Attempt.iterate (chainStep L dev) (mapSteps pos).toNat
    (0, { BlockMap.zero with next := n.next })
  pure ⟨a.2.entry (mapIndex pos), mapIndex pos, a.1, a.2⟩

/-- `INODE_NOPOS` as an `int`. -/
def iblockNopos : Int32 := -1

/-- The four ways of finding the block to start with. -/
def locate (pos : UInt64) : FileM σ Spot := do
  let n ← getInode
  if n.next = inodeNull then locateFresh L dev
  else if n.pos = 0 ∧ n.current = inodeNull then locateFirst L dev n
  else if n.pos = pos ∧ n.current ≠ inodeNull ∧ n.iblock ≠ iblockNopos then locateResume L dev n
  else locateScan L dev n pos

/-- The block map of the next data block, which is the same one unless its index has
wrapped; at the end of the chain another block map is added. -/
def nextMap (t : Spot) (iblock : BlockNo) : FileM σ (BlockNo × BlockMap) :=
  if iblock = 0 then do
    let bmap ← if t.bmap.next = inodeNull then fileAddOneBmapBlock L dev t.current t.bmap
      else pure t.bmap
    let tmp ← readMap L dev bmap.next
    pure (bmap.next, tmp)
  else pure (t.current, t.bmap)

/-- Add the data block if the block map has none. -/
def ensureBlock (current : BlockNo) (bmap : BlockMap) (iblock : BlockNo) : FileM σ BlockMap :=
  if bmap.entry iblock = inodeNull then fileAddOneDataBlock L dev current bmap iblock else pure bmap

/-- Move on to the next data block and read it. -/
def nextBlock (t : Spot) : FileM σ (Spot × Sector) := do
  let iblock := (t.iblock + 1) % 127
  let a ← nextMap L dev t iblock
  let bmap ← ensureBlock L dev a.1 a.2 iblock
  let dptr ← readBlock L dev (bmap.entry iblock)
  pure (⟨bmap.entry iblock, iblock, a.1, bmap⟩, dptr)

/-- The locals of the transfer loop. `*bytes_processed` is `i` at the start of every round. -/
structure Transfer where
  spot : Spot
  byte : BlockNo
  dptr : Sector
  i : BlockNo
  writeFlag : Bool

/-- An index into `dptr`. -/
def sectorIndex (byte : BlockNo) : Fin devBlockSize := Fin.ofNat devBlockSize byte.toNat

/-- Copy one byte between the buffer and the block. -/
def copyByte (reading : Bool) (t : Transfer) : FileM σ Transfer := do
  let s ← Attempt.get
  if reading then
    if s.inode.size ≤ t.i.toUInt64 then
      Attempt.modify fun s => { s with data := Function.update s.data t.i.toNat 0 }
      pure { t with dptr := Function.update t.dptr (sectorIndex t.byte) 0 }
    else
      Attempt.modify fun s =>
        { s with data := Function.update s.data t.i.toNat (t.dptr (sectorIndex t.byte)) }
      pure t
  else
    pure { t with
      writeFlag := true
      dptr := Function.update t.dptr (sectorIndex t.byte) (s.data t.i.toNat) }

/-- The end of a block: write it back, and read the next one. -/
def endBlock (reading : Bool) (t : Transfer) : FileM σ Transfer := do
  let n ← getInode
  let flag ←
    if reading = false ∨ n.size ≤ t.i.toUInt64 then do
      writeBlock L dev t.spot.start t.dptr
      pure false
    else pure t.writeFlag
  let a ← nextBlock L dev t.spot
  pure { t with spot := a.1, dptr := a.2, writeFlag := flag }

/-- One round of the transfer loop. -/
def transferByte (reading : Bool) (t : Transfer) : FileM σ Transfer := do
  let t ← copyByte reading t
  let t := { t with i := t.i + 1, byte := (t.byte + 1) % 512 }
  if t.byte = 0 then endBlock L dev reading t else pure t

/-- What the transfer leaves in the inode. -/
def Inode.afterTransfer (n : Inode) (pos : UInt64) (t : Transfer) : Inode :=
  { n with
    pos := pos + t.i.toUInt64
    size := if n.size < pos + t.i.toUInt64 then pos + t.i.toUInt64 else n.size
    current := t.spot.start
    currentParent := t.spot.current
    iblock := t.spot.iblock.toInt32 }

/-- Write the last block back. -/
def flushBlock (t : Transfer) : FileM σ Unit :=
  if t.writeFlag then writeBlock L dev t.spot.start t.dptr else pure ()

/-- The end of a transfer: the last block and the inode are written back. -/
def endTransfer (pos : UInt64) (t : Transfer) : FileM σ UInt64 := do
  flushBlock L dev t
  modifyInode fun n => n.afterTransfer pos t
  let n ← getInode
  writeBlock L dev n.self (Inode.layout n)
  pure t.i.toUInt64

end Engine

section Calls
variable {σ : Type} (L : BlockLayer σ)

/-- `file_read_write`, with the bytes processed as its result. -/
def fileReadWrite (pos length : UInt64) (reading : Bool) : FileM σ UInt64 := do
  if length = 0 then pure 0 else
  let n ← getInode
  let dev := n.dev
  let spot ← locate L dev pos
  let dptr ← readBlock L dev spot.start
  let t ← Attempt.iterate (transferByte L dev reading) length.toNat
    ⟨spot, pos.toUInt32 % 512, dptr, 0, false⟩
  endTransfer L dev pos t

/-- Transfer to or from a local buffer of zeroes at the end of the file. -/
def fillStep (length : UInt64) (reading : Bool) (bytes : UInt64) : FileM σ UInt64 := do
  let n ← getInode
  let tmp ← fileReadWrite L n.size length reading
  pure (bytes + tmp)

/-- The gap between the end of the file and a position behind it. -/
def fillGap (reading : Bool) : FileM σ UInt64 := do
  let n ← getInode
  let gap := n.pos - n.size
  let bytes ← Attempt.iterate (fillStep L 512 reading) (gap / 512).toUInt32.toNat 0
  if (gap % 512).toUInt32 = 0 then pure bytes
  else fillStep L (gap % 512).toUInt32.toUInt64 reading bytes

/-- The common part of `kread` and `kwrite`. -/
def transferCall (count : UInt32) (reading : Bool) : FileM σ UInt64 := do
  let n ← getInode
  let gap ← if n.size < n.pos then withZeroBuffer (fillGap L reading) else pure 0
  let n ← getInode
  let bytes ← fileReadWrite L n.pos count.toUInt64 reading
  pure (bytes + gap)

end Calls

/-! ## Calls on descriptors -/

section System
variable {σ : Type} (L : BlockLayer σ)

/-- Put the inode and the file system back after a call. -/
def Sys.put (s : Sys σ) (t : Fin maxFiles) (io : FileIo σ) : Sys σ :=
  { s with proc := s.proc.setInode t io.inode, fs := io.fs }

/-- The value a call that transfers bytes returns, an `ssize_t`. -/
def ssize : Option UInt64 → Int32
  | some n => n.toUInt32.toInt32
  | none => -1

/-- `kread`: the result and the buffer. -/
def kread (now : BlockNo) (fd : Int32) (buf : Buffer) (count : UInt32) (s : Sys σ) :
    (Int32 × Buffer) × Sys σ :=
  match s.proc.descriptor fd with
  | none => ((-1, buf), s)
  | some t =>
    match transferCall L count true ⟨s.fs, { s.proc.fileTab t with accessedTime := now }, buf⟩ with
    | (r, io) => ((ssize r, io.data), s.put t io)

/-- `kwrite`. -/
def kwrite (now : BlockNo) (fd : Int32) (buf : Buffer) (count : UInt32) (s : Sys σ) :
    Int32 × Sys σ :=
  match s.proc.descriptor fd with
  | none => (-1, s)
  | some t =>
    match transferCall L count false ⟨s.fs, { s.proc.fileTab t with modifiedTime := now }, buf⟩ with
    | (r, io) => (ssize r, s.put t io)

/-- The `whence` of `klseek`. -/
inductive Whence
  | set
  | cur
  | fin
  | other
  deriving DecidableEq, Repr

/-- `SSIZE_MAX`. -/
def ssizeMax : UInt64 := 2147483647

/-- The position `klseek` moves to. -/
def Inode.seek (n : Inode) (offset : UInt32) : Whence → Option UInt64
  | .set => some offset.toUInt64
  | .cur =>
    some (if ssizeMax < n.pos + offset.toUInt64 then ssizeMax else n.pos + offset.toUInt64)
  | .fin => some (n.size + offset.toUInt64)
  | .other => none

/-- `(off_t)-1`. -/
def offMinusOne : UInt32 := 4294967295

/-- `klseek`. -/
def klseek (fd : Int32) (offset : UInt32) (whence : Whence) (s : Sys σ) : UInt32 × Sys σ :=
  match s.proc.descriptor fd with
  | none => (offMinusOne, s)
  | some t =>
    match (s.proc.fileTab t).seek offset whence with
    | none => (offMinusOne, s)
    | some pos =>
      let n := { s.proc.fileTab t with pos := pos, iblock := iblockNopos }
      match L.blockWrite n.dev n.self (Inode.layout n) s.fs.store with
      | (.ok, st) =>
        (pos.toUInt32, { s with proc := s.proc.setInode t n, fs := { s.fs with store := st } })
      | (_, st) =>
        (offMinusOne, { s with proc := s.proc.setInode t n, fs := { s.fs with store := st } })

end System

end OxKernel.Fs
