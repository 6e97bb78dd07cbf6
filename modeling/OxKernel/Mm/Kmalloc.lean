import OxKernel.Mm.Page
import Mathlib

/-!
# The kernel heap

A model of `mm/kmalloc.c`: a list of tables of sixteen pools each, the newest table first. A
pool is a run of pages cut into blocks of one size, and a block starts with a header of two
words. The headers are in a memory of 32-bit words; a table is kept as a record, with the
address of its page, by which the cached pointer to a pool names it.

`block` and `block_free` are the kernel's page allocator. A call of `kmalloc` gets the
addresses that `kpage_alloc` answers in it, and the calls of the page allocator are
recorded, the latest first.

## Main definitions

* `Mem`, `Table`, `Heap` — `mem_t`, `table_t` and the static variables.
* `kmalloc`, `kfree` — the calls.
-/
namespace OxKernel.Mm

/-- `NR_SIZES`. -/
abbrev nrSizes : ℕ := 16

theorem nrSizes_ne_zero : nrSizes ≠ 0 := Nat.succ_ne_zero 15

instance : NeZero nrSizes := ⟨nrSizes_ne_zero⟩

/-- `FREE_MEM`. -/
def freeMem : UInt32 := 123456

/-- `USED_MEM`. -/
def usedMem : UInt32 := 654321

/-- `sizeof(header_t)`. -/
def headerSize : UInt32 := 8

/-- `sizeof(table_t)`. -/
def tableSize : UInt32 := 392

/-- `mem_t`, a pool. -/
structure Mem where
  /-- User requested size. -/
  size : UInt32
  /-- Real block size. -/
  rsize : UInt32
  nrBlocks : UInt32
  nrAlloc : UInt32
  nrPages : UInt32
  memory : UInt32
  deriving DecidableEq

/-- `zero_mem`. -/
def zeroMem : Mem := ⟨0, 0, 0, 0, 0, 0⟩

/-- `table_t`, and the address it is at. -/
structure Table where
  addr : UInt32
  nrSlots : UInt32
  sizes : Fin nrSizes → Mem

/-- A call of the kernel's page allocator. -/
inductive PageEvent
  | alloc (addr n : UInt32)
  | free (addr n : UInt32)
  deriving DecidableEq

/-- The words of the memory, by their addresses. -/
abbrev Words := UInt32 → UInt32

/-- The static variables of `kmalloc.c`, and the memory. -/
structure Heap where
  /-- The tables from `root` on. -/
  root : List Table
  words : Words
  /-- The pool of the last call, by its table and its place there. -/
  ptr : Option (UInt32 × Fin nrSizes)
  nrSlot : UInt32
  pageLog : List PageEvent

/-! ### Headers -/

/-- `hdr->slot = slot; hdr->is_free = flag;` -/
def setHeader (w : Words) (hdr slot flag : UInt32) : Words :=
  Function.update (Function.update w hdr slot) (hdr + 4) flag

/-- `hdr->is_free = flag;` -/
def setFlag (w : Words) (hdr flag : UInt32) : Words := Function.update w (hdr + 4) flag

/-- Initialize the blocks of a pool. -/
def clearBlocks (rsize : UInt32) : ℕ → UInt32 → Words → Words
  | 0, _, w => w
  | k + 1, mptr, w => clearBlocks rsize k (mptr + rsize) (setHeader w mptr 0 freeMem)

/-- The first free block of a pool. -/
def findFree (w : Words) (rsize : UInt32) : ℕ → UInt32 → Option UInt32
  | 0, _ => none
  | k + 1, mptr => if w (mptr + 4) = freeMem then some mptr else findFree w rsize k (mptr + rsize)

/-! ### Sizes -/

/-- `NR_BLOCKS`. -/
def nrBlocks (size : UInt32) : UInt32 :=
  size / pageSize + (if size % pageSize ≠ 0 then 1 else 0)

/-- `rsize`: the size with the header, on a pointer boundary. -/
def blockSize (size : UInt32) : UInt32 :=
  let tmp := size + headerSize
  (tmp / 4 + (if tmp % 4 ≠ 0 then 1 else 0)) * 4

/-- A new pool for blocks of the requested size, with its first block in use. -/
def newMem (size memory : UInt32) : Mem where
  size := size
  rsize := blockSize size
  nrBlocks := nrBlocks (blockSize size) * pageSize / blockSize size
  nrAlloc := 1
  nrPages := nrBlocks (blockSize size)
  memory := memory

namespace Heap

/-- The table at an address. -/
def table (h : Heap) (a : UInt32) : Option Table := h.root.find? (·.addr = a)

/-- `tptr->sizes[i]`. -/
def pool (h : Heap) (a : UInt32) (i : Fin nrSizes) : Option Mem := (h.table a).map (·.sizes i)

/-- Change the table at an address. -/
def modify (h : Heap) (a : UInt32) (f : Table → Table) : Heap :=
  { h with root := h.root.map fun t => if t.addr = a then f t else t }

/-- The pools in the order of the scans, with the slot number `NR_SIZES * j + i`. -/
def slots (h : Heap) : List (UInt32 × UInt32 × Fin nrSizes) :=
  h.root.zipIdx.flatMap fun (t, j) =>
    (List.finRange nrSizes).map fun i => (UInt32.ofNat (nrSizes * j + i.val), t.addr, i)

/-- Allocate from a pool, if it can accommodate the request and has a block available. -/
def tryPool (h : Heap) (size a : UInt32) (i : Fin nrSizes) (slot : UInt32) :
    Option (UInt32 × Heap) := do
  let m ← h.pool a i
  if size ≤ m.rsize - headerSize ∧ m.nrBlocks > m.nrAlloc then
    let hdr ← findFree h.words m.rsize m.nrBlocks.toNat m.memory
    let h := h.modify a fun t =>
      { t with sizes := Function.update t.sizes i { m with nrAlloc := m.nrAlloc + 1 } }
    return (hdr + headerSize,
      { h with words := setHeader h.words hdr slot usedMem, ptr := some (a, i), nrSlot := slot })
  else none

/-- The pool is free for another size, and its table is not full. -/
def isFree (h : Heap) (a : UInt32) (i : Fin nrSizes) : Bool :=
  match h.table a with
  | some t => t.nrSlots ≠ 16 ∧ (t.sizes i).nrBlocks = 0
  | none => false

/-- The memory of a new pool once its blocks are initialized. -/
def poolWords (h : Heap) (size poolAt : UInt32) : Words :=
  clearBlocks (blockSize size) (newMem size poolAt).nrBlocks.toNat poolAt h.words

/-- Use a free pool for a new size. -/
def openPool (h : Heap) (poolAt size a : UInt32) (i : Fin nrSizes) (slot : UInt32) :
    UInt32 × Heap :=
  let h' := h.modify a fun t =>
    { t with nrSlots := t.nrSlots + 1, sizes := Function.update t.sizes i (newMem size poolAt) }
  (poolAt + headerSize,
    { h' with
      words := setHeader (h.poolWords size poolAt) poolAt slot usedMem
      ptr := some (a, i)
      nrSlot := slot
      pageLog := .alloc poolAt (nrBlocks (blockSize size)) :: h.pageLog })

/-- Put a new table in front of the list and use its first pool. `w` is the memory with the
header of the first block written. -/
def pushTable (h : Heap) (tableAt poolAt size slot : UInt32) (w : Words) : UInt32 × Heap :=
  (poolAt + headerSize,
    { root := ⟨tableAt, 1, Function.update (fun _ => zeroMem) 0 (newMem size poolAt)⟩ :: h.root
      words := w
      ptr := some (tableAt, 0)
      nrSlot := slot
      pageLog := .alloc poolAt (nrBlocks (blockSize size)) ::
        .alloc tableAt (nrBlocks tableSize) :: h.pageLog })

end Heap

/-- `kmalloc`, where `kpage_alloc` answers `tableAt` for the page of a table and `poolAt` for
the pages of a pool. -/
def kmalloc (tableAt poolAt size : UInt32) (h : Heap) : UInt32 × Heap :=
  -- Try to allocate from slot we last allocated.
  match h.ptr.bind fun (a, i) => h.tryPool size a i h.nrSlot with
  | some r => r
  | none =>
    if h.root = [] then
      h.pushTable tableAt poolAt size 0 (setFlag (h.poolWords size poolAt) poolAt usedMem)
    else
      -- Scan the table.
      match h.slots.findSome? fun (slot, a, i) => h.tryPool size a i slot with
      | some r => r
      | none =>
        -- We need a new block to handle the request.
        match h.slots.find? fun (_, a, i) => h.isFree a i with
        | some (slot, a, i) => h.openPool poolAt size a i slot
        | none =>
          -- Allocate a new table as we are full.
          let slot := UInt32.ofNat (nrSizes * h.root.length)
          h.pushTable tableAt poolAt size slot
            (setHeader (h.poolWords size poolAt) poolAt slot usedMem)

/-- A pool with a block less in use, and the run of pages given back with its last one. -/
def Mem.release (m : Mem) : Mem × Option PageEvent :=
  let m := { m with nrAlloc := m.nrAlloc - 1 }
  if m.nrAlloc = 0 then
    ({ m with memory := 0, nrBlocks := 0, size := 0, rsize := 0 }, some (.free m.memory m.nrPages))
  else (m, none)

/-- The loop of `kfree` over the tables, with `j` counting down from `nr_table`. -/
def kfreeLoop (nrTable : UInt32) (nrSlot : Fin nrSizes) :
    UInt32 → List Table → List Table → List PageEvent → List Table × List PageEvent
  | _, [], done, log => (done.reverse, log)
  | j, t :: ts, done, log =>
    if nrTable = 16 * j then
      let (m, freed) := (t.sizes nrSlot).release
      let t := { t with nrSlots := t.nrSlots - 1, sizes := Function.update t.sizes nrSlot m }
      kfreeLoop nrTable nrSlot (j - 1) ts (t :: done) (freed.toList ++ log)
    else kfreeLoop nrTable nrSlot (j - 1) ts (t :: done) log

/-- `kfree`. -/
def kfree (addr : UInt32) (h : Heap) : Heap :=
  let hdr := addr - headerSize
  let slot := h.words hdr
  let nrTable := slot / 16
  let nrSlot : Fin nrSizes := Fin.ofNat 16 (slot % 16).toNat
  let (root, log) := kfreeLoop nrTable nrSlot nrTable h.root [] h.pageLog
  { h with root := root, words := setFlag h.words hdr freeMem, pageLog := log }

/-- The heap before its first use. -/
def emptyHeap (w : Words) : Heap := ⟨[], w, none, 0, []⟩

end OxKernel.Mm
