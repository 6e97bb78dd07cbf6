import OxKernel.Fs.Device

/-!
# The buffer cache

A model of `block.c`. The cache is a table of 128 slots over a `DevLayer`; the
static arrays `dirty`, `block_lru`, `block_map`, `block_array` and `block_dev` are
the fields of one `Slot`. Where a request lands is computed by `place`, which is the
search and the replacement scan that `block_read` and `block_write` both spell out:
the slot that holds the block, else the first free slot, else the clean slot with the
lowest use counter, else the dirty one.

Pointers into the table that may be `BLOCK_NOPOS` are optional indices.

## Main definitions

* `Cache`, `Slot` — the static variables of `block.c` and the hardware below.
* `search`, `scanSlots`, `place` — the wrap-around search and the replacement scan.
* `blockOpen`, `blockRead`, `blockWrite`, `blockFree`, `blockSync`, `blockDiskWrite`,
  `blockDiskWriteSyncCache` — the functions of `block.h`.
* `Op`, `cacheMachine` — calls as inputs of a machine, for statements about runs.
-/
namespace OxKernel.Fs

/-- `BLOCK_ARRAY_SIZE`. -/
abbrev blockArraySize : ℕ := 128

/-- `BLOCK_FREE`, the constant `-1` as a `block_t`. -/
def blockFreeMark : BlockNo := 4294967295

/-- `BLOCK_MAX_LRU`. -/
def blockMaxLru : BlockNo := 4294967295

/-- `block_rtvl_t`. -/
inductive BlockRtvl
  | ok
  | fail
  | param
  deriving DecidableEq, Repr

/-- One row of the static arrays of the cache. -/
structure Slot where
  /-- `dirty[i]` -/
  dirty : Bool
  /-- `block_lru[i]` -/
  lru : BlockNo
  /-- `block_map[i]` -/
  map : BlockNo
  /-- `block_array[i]` -/
  array : Sector
  /-- `block_dev[i]` -/
  dev : DevNo

/-- A slot as `block_open` initializes it. -/
def Slot.fresh : Slot where
  dirty := false
  lru := 0
  map := blockFreeMark
  array := Sector.zero
  dev := devNodev

/-- The slot holds `block` of `dev`: the test of every search loop. -/
def Slot.Holds (s : Slot) (dev : DevNo) (block : BlockNo) : Prop := s.map = block ∧ s.dev = dev

instance (s : Slot) (dev : DevNo) (block : BlockNo) : Decidable (s.Holds dev block) :=
  inferInstanceAs (Decidable (_ ∧ _))

/-- Count one more use, up to `BLOCK_MAX_LRU`. -/
def Slot.bumpLru (s : Slot) : Slot :=
  { s with lru := if s.lru < blockMaxLru then s.lru + 1 else s.lru }

/-- The table of slots. -/
abbrev Slots := Fin blockArraySize → Slot

/-- The static variables of `block.c`, and the hardware below the device layer. -/
structure Cache (σ : Type) where
  init : Bool
  curr : ℕ
  highest : BlockNo
  slots : Slots
  hw : σ

namespace Cache
variable {σ : Type}

/-- Replace one slot. -/
def setSlot (c : Cache σ) (i : Fin blockArraySize) (s : Slot) : Cache σ :=
  { c with slots := Function.update c.slots i s }

/-- The guard `if(curr >= BLOCK_ARRAY_SIZE) curr = 0`. -/
def wrapCurr (c : Cache σ) : Cache σ :=
  { c with curr := if blockArraySize ≤ c.curr then 0 else c.curr }

end Cache

/-! ## Searching and replacing -/

/-- The slots of the first search loop, from `curr` to the end. -/
def upperSlots (curr : ℕ) : List (Fin blockArraySize) := (List.finRange blockArraySize).drop curr

/-- The slots of the second search loop, from the start up to `curr`. -/
def lowerSlots (curr : ℕ) : List (Fin blockArraySize) := (List.finRange blockArraySize).take curr

/-- The two search loops: from `curr` to the end and, if that finds nothing, around
again from the start. -/
def search (slots : Slots) (curr : ℕ) (dev : DevNo) (block : BlockNo) :
    Option (Fin blockArraySize) :=
  ((upperSlots curr).find? fun i => (slots i).Holds dev block).or
    ((lowerSlots curr).find? fun i => (slots i).Holds dev block)

/-- The locals of the replacement scan and the static `highest`. -/
structure Scan where
  free : Option (Fin blockArraySize)
  lowestClean : BlockNo
  lowestCleanPtr : Option (Fin blockArraySize)
  lowestDirty : BlockNo
  lowestDirtyPtr : Option (Fin blockArraySize)
  highest : BlockNo

/-- The locals as they are declared. -/
def Scan.start (highest : BlockNo) : Scan where
  free := none
  lowestClean := blockMaxLru
  lowestCleanPtr := none
  lowestDirty := blockMaxLru
  lowestDirtyPtr := none
  highest := highest

/-- The body of the scan at an occupied slot. -/
def Scan.visit (a : Scan) (i : Fin blockArraySize) (s : Slot) : Scan where
  free := a.free
  lowestClean := if s.dirty = false ∧ s.lru < a.lowestClean then s.lru else a.lowestClean
  lowestCleanPtr := if s.dirty = false ∧ s.lru < a.lowestClean then some i else a.lowestCleanPtr
  lowestDirty := if s.dirty = true ∧ s.lru < a.lowestDirty then s.lru else a.lowestDirty
  lowestDirtyPtr := if s.dirty = true ∧ s.lru < a.lowestDirty then some i else a.lowestDirtyPtr
  highest := if a.highest < s.lru then s.lru else a.highest

/-- The replacement scan, which stops at the first free slot. -/
def scanSlots (slots : Slots) : List (Fin blockArraySize) → Scan → Scan
  | [], a => a
  | i :: is, a =>
    if (slots i).map = blockFreeMark then { a with free := some i }
    else scanSlots slots is (a.visit i (slots i))

/-- The replacement scan over the whole table. -/
def Cache.scan {σ : Type} (c : Cache σ) : Scan :=
  scanSlots c.slots (List.finRange blockArraySize) (Scan.start c.highest)

/-- Where a request for a block is served. -/
inductive Place
  /-- The block is cached in this slot. -/
  | hit (i : Fin blockArraySize)
  /-- It is not cached and this slot is free. -/
  | free (i : Fin blockArraySize)
  /-- No slot is free and this clean slot is replaced. -/
  | clean (i : Fin blockArraySize)
  /-- Every clean slot is out of reach and this dirty slot is replaced. -/
  | dirty (i : Fin blockArraySize)
  /-- There is no victim. -/
  | full
  deriving DecidableEq, Repr

/-- The slot that serves a request: the search, then the tests on the results of the
replacement scan in the order of the source. -/
def Cache.place {σ : Type} (c : Cache σ) (dev : DevNo) (block : BlockNo) : Place :=
  match search c.slots c.wrapCurr.curr dev block with
  | some i => .hit i
  | none =>
    match c.scan.free, c.scan.lowestCleanPtr, c.scan.lowestDirtyPtr with
    | some i, _, _ => .free i
    | none, some i, _ => .clean i
    | none, none, some i => .dirty i
    | none, none, none => .full

/-! ## The operations -/

section Operations
variable {σ : Type} (D : DevLayer σ)

/-- `block_open`. The first call initializes the table; later ones leave it alone. -/
def blockOpen (path : String) (dev : DevNo) (c : Cache σ) : BlockRtvl × DevNo × Cache σ :=
  let c := if c.init then c else { c with slots := fun _ => Slot.fresh, init := true }
  match D.devOpen path dev c.hw with
  | (.ok, dev, hw) => (.ok, dev, { c with hw := (D.devScan dev 0 hw).2 })
  | (_, dev, hw) => (.fail, dev, { c with hw := hw })

/-- Scan to `block` of `dev` and read it into the buffer of slot `i`. The buffer
takes whatever the read left in it, also when it failed. -/
def fill (dev : DevNo) (block : BlockNo) (i : Fin blockArraySize) (c : Cache σ) :
    DevRtvl × Cache σ :=
  match D.devScan dev block c.hw with
  | (.ok, hw) =>
    match D.devRead dev block (c.slots i).array hw with
    | (r, data, hw) => (r, { c.setSlot i { c.slots i with array := data } with hw := hw })
  | (r, hw) => (r, { c with hw := hw })

/-- Scan to `sector` of `dev`, then write `data` with `block` as the number passed
to the driver. -/
def flush (dev : DevNo) (sector block : BlockNo) (data : Sector) (c : Cache σ) :
    DevRtvl × Cache σ :=
  match D.devScan dev sector c.hw with
  | (.ok, hw) =>
    match D.devWrite dev block data hw with
    | (r, hw) => (r, { c with hw := hw })
  | (r, hw) => (r, { c with hw := hw })

/-- Give slot `i` to `block` of `dev`, moving its use counter past every other one
unless it is saturated. -/
def install (dev : DevNo) (block : BlockNo) (dirty : Bool) (i : Fin blockArraySize)
    (c : Cache σ) : Cache σ :=
  let next := if (c.slots i).lru < blockMaxLru then c.highest + 1 else c.highest
  { c.setSlot i
      { c.slots i with
        map := block, dev := dev, dirty := dirty
        lru := if (c.slots i).lru < blockMaxLru then next else (c.slots i).lru } with
    highest := next, curr := i }

/-- Fill slot `i` with `block` of `dev` and hand out a copy, as the three miss paths
of `block_read` end. (On a failed read the free path also stores `BLOCK_FREE` in
`block_map[i]`, which holds it already.) -/
def readInto (dev : DevNo) (block : BlockNo) (data : Sector) (i : Fin blockArraySize)
    (c : Cache σ) : BlockRtvl × Sector × Cache σ :=
  match fill D dev block i c with
  | (.ok, c) => (.ok, (c.slots i).array, install dev block false i c)
  | (_, c) => (.fail, data, c)

/-- `block_read`. The buffer comes back unchanged unless the result is `BLOCK_OK`.
In the dirty case the victim is scanned to by its own number but the write is given
the number of the requested block. -/
def blockRead (dev : DevNo) (block : BlockNo) (data : Sector) (c : Cache σ) :
    BlockRtvl × Sector × Cache σ :=
  if dev < 0 then (.param, data, c) else
  match c.place dev block with
  | .hit i => (.ok, (c.slots i).array, { c.setSlot i (c.slots i).bumpLru with curr := i })
  | .free i => readInto D dev block data i { c.wrapCurr with highest := c.scan.highest }
  | .clean i => readInto D dev block data i { c.wrapCurr with highest := c.scan.highest }
  | .dirty i =>
    match flush D (c.slots i).dev (c.slots i).map block (c.slots i).array
        { c.wrapCurr with highest := c.scan.highest } with
    | (.ok, c) => readInto D dev block data i c
    | (_, c) => (.fail, data, c)
  | .full => (.fail, data, { c.wrapCurr with highest := c.scan.highest })

/-- Overwrite slot `i` with new data for `block` of `dev`. -/
def writeInto (dev : DevNo) (block : BlockNo) (data : Sector) (i : Fin blockArraySize)
    (c : Cache σ) : Cache σ :=
  install dev block true i (c.setSlot i { c.slots i with array := data })

/-- `block_write`. -/
def blockWrite (dev : DevNo) (block : BlockNo) (data : Sector) (c : Cache σ) :
    BlockRtvl × Cache σ :=
  match c.place dev block with
  | .hit i =>
    (.ok, { c.setSlot i { (c.slots i).bumpLru with dirty := true, array := data } with curr := i })
  | .free i => (.ok, writeInto dev block data i { c.wrapCurr with highest := c.scan.highest })
  | .clean i => (.ok, writeInto dev block data i { c.wrapCurr with highest := c.scan.highest })
  | .dirty i =>
    match flush D (c.slots i).dev (c.slots i).map block (c.slots i).array
        { c.wrapCurr with highest := c.scan.highest } with
    | (.ok, c) => (.ok, writeInto dev block data i c)
    | (_, c) => (.fail, c)
  | .full => (.fail, { c.wrapCurr with highest := c.scan.highest })

/-- Reset slot `i` at the end of `block_free`. -/
def release (i : Fin blockArraySize) (c : Cache σ) : Cache σ :=
  { c.setSlot i { c.slots i with lru := 0, map := blockFreeMark, dev := devNodev, dirty := false }
    with curr := i }

/-- `block_free`, which searches from slot 0 and writes a dirty block out. -/
def blockFree (dev : DevNo) (block : BlockNo) (c : Cache σ) : BlockRtvl × Cache σ :=
  if dev < 0 then (.param, c) else
  match (List.finRange blockArraySize).find? fun i => (c.slots i).Holds dev block with
  | none => (.ok, c)
  | some i =>
    if (c.slots i).dirty then
      match flush D dev block block (c.slots i).array c with
      | (.ok, c) => (.ok, release i c)
      | (_, c) => (.fail, c)
    else (.ok, release i c)

/-- The common part of the two write-through functions: a cached copy takes the new
data before the device does. The flag says whether there was one. -/
def writeThrough (dev : DevNo) (block : BlockNo) (data : Sector) (c : Cache σ) :
    Bool × BlockRtvl × Cache σ :=
  let c := c.wrapCurr
  match search c.slots c.curr dev block with
  | some i =>
    match flush D dev block block data (c.setSlot i { c.slots i with array := data }) with
    | (.ok, c) => (true, .ok, c)
    | (_, c) => (true, .fail, c)
  | none =>
    match flush D dev block block data c with
    | (.ok, c) => (false, .ok, c)
    | (_, c) => (false, .fail, c)

/-- `block_disk_write`. -/
def blockDiskWrite (dev : DevNo) (block : BlockNo) (data : Sector) (c : Cache σ) :
    BlockRtvl × Cache σ :=
  (writeThrough D dev block data c).2

/-- `block_disk_write_sync_cache`, which reads a block back that was not cached. -/
def blockDiskWriteSyncCache (dev : DevNo) (block : BlockNo) (data : Sector) (c : Cache σ) :
    BlockRtvl × Sector × Cache σ :=
  match writeThrough D dev block data c with
  | (false, .ok, c) => blockRead D dev block data c
  | (_, r, c) => (r, data, c)

/-- The body of the loop of `block_sync` at slot `i`. -/
def syncSlot (dev : DevNo) (i : Fin blockArraySize) (a : BlockRtvl × Cache σ) :
    BlockRtvl × Cache σ :=
  let c := a.2
  if (c.slots i).dirty ∧ (c.slots i).dev = dev then
    match blockDiskWrite D dev (c.slots i).map (c.slots i).array c with
    | (.fail, c) => (.fail, c)
    | (_, c) => (a.1, c.setSlot i { (c.slots i).bumpLru with dirty := false })
  else a

/-- `block_sync`. -/
def blockSync (dev : DevNo) (c : Cache σ) : BlockRtvl × Cache σ :=
  (List.finRange blockArraySize).foldl (fun a i => syncSlot D dev i a) (.ok, c)

end Operations

/-! ## Runs -/

/-- The calls a run is made of. The buffer a read is given is part of the call. -/
inductive Op
  | read (dev : DevNo) (block : BlockNo) (data : Sector)
  | write (dev : DevNo) (block : BlockNo) (data : Sector)
  | free (dev : DevNo) (block : BlockNo)
  | sync (dev : DevNo)
  | diskWrite (dev : DevNo) (block : BlockNo) (data : Sector)
  | diskWriteSyncCache (dev : DevNo) (block : BlockNo) (data : Sector)

/-- The answer to a call: the return value, and the buffer for the calls that fill one. -/
structure Reply where
  rtvl : BlockRtvl
  data : Option Sector

/-- Perform one call. -/
def Op.step {σ : Type} (D : DevLayer σ) (op : Op) (c : Cache σ) : Reply × Cache σ :=
  match op with
  | .read dev block data =>
    let a := blockRead D dev block data c
    (⟨a.1, some a.2.1⟩, a.2.2)
  | .write dev block data =>
    let a := blockWrite D dev block data c
    (⟨a.1, none⟩, a.2)
  | .free dev block =>
    let a := blockFree D dev block c
    (⟨a.1, none⟩, a.2)
  | .sync dev =>
    let a := blockSync D dev c
    (⟨a.1, none⟩, a.2)
  | .diskWrite dev block data =>
    let a := blockDiskWrite D dev block data c
    (⟨a.1, none⟩, a.2)
  | .diskWriteSyncCache dev block data =>
    let a := blockDiskWriteSyncCache D dev block data c
    (⟨a.1, some a.2.1⟩, a.2.2)

end OxKernel.Fs
