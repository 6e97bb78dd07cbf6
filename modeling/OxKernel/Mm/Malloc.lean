import OxKernel.Mm.KmallocRuns

/-!
# The user heap

A model of `mm/malloc.c`, which is `mm/kmalloc.c` with tables of 2¹⁶ pools and with the pages
of the user page allocator. The pools, their headers and the sizes are those of the kernel
heap; what depends on the size of a table is here.

## Main definitions

* `Malloc.Table`, `Malloc.Heap` — `table_t` and the static variables.
* `balloc`, `bfree` — the calls.
-/
namespace OxKernel.Mm
namespace Malloc

/-- `NR_SIZES`. -/
abbrev nrSizes : ℕ := 65536

theorem nrSizes_ne_zero : nrSizes ≠ 0 := Nat.succ_ne_zero 65535

instance : NeZero nrSizes := ⟨nrSizes_ne_zero⟩

/-- `sizeof(table_t)`. -/
def tableSize : UInt32 := 1572872

/-- `table_t`, and the address it is at. -/
structure Table where
  addr : UInt32
  nrSlots : UInt32
  sizes : Fin nrSizes → Mem

/-- The static variables of `malloc.c`, and the memory. -/
structure Heap where
  /-- The tables from `root` on. -/
  root : List Table
  words : Words
  /-- The pool of the last call, by its table and its place there. -/
  ptr : Option (UInt32 × Fin nrSizes)
  nrSlot : UInt32
  pageLog : List PageEvent

namespace Heap

/-- The table at an address. -/
def table (h : Heap) (a : UInt32) : Option Table := h.root.find? (·.addr = a)

/-- `tptr->sizes[i]`. -/
def pool (h : Heap) (a : UInt32) (i : Fin nrSizes) : Option Mem := (h.table a).map (·.sizes i)

/-- Change the table at an address. -/
def modify (h : Heap) (a : UInt32) (f : Table → Table) : Heap :=
  { h with root := h.root.map fun t => if t.addr = a then f t else t }

/-- The pools in the order of the scans, with the slot number `NR_SIZES * j + i`. -/
def slots (h : Heap) : List (UInt32 × UInt32 × Fin nrSizes) :=
  h.root.zipIdx.flatMap fun tj =>
    (List.finRange nrSizes).map fun i => (UInt32.ofNat (nrSizes * tj.2 + i.val), tj.1.addr, i)

/-- Allocate from a pool, if it can accommodate the request and has a block available. -/
def tryPool (h : Heap) (size a : UInt32) (i : Fin nrSizes) (slot : UInt32) :
    Option (UInt32 × Heap) := do
  let m ← h.pool a i
  if size ≤ m.rsize - headerSize ∧ m.nrBlocks > m.nrAlloc then
    let hdr ← findFree h.words m.rsize m.nrBlocks.toNat m.memory
    let h := h.modify a fun t =>
      { t with sizes := Function.update t.sizes i { m with nrAlloc := m.nrAlloc + 1 } }
    return (hdr + headerSize,
      { h with words := setHeader h.words hdr slot usedMem, ptr := some (a, i), nrSlot := slot })
  else none

/-- The pool is free for another size, and its table is not full. -/
def isFree (h : Heap) (a : UInt32) (i : Fin nrSizes) : Bool :=
  (h.table a).any fun t => t.nrSlots ≠ 65536 ∧ (t.sizes i).nrBlocks = 0

/-- The memory of a new pool once its blocks are initialized. -/
def poolWords (h : Heap) (size poolAt : UInt32) : Words :=
  clearBlocks (blockSize size) (newMem size poolAt).nrBlocks.toNat poolAt h.words

/-- Use a free pool for a new size. -/
def openPool (h : Heap) (poolAt size a : UInt32) (i : Fin nrSizes) (slot : UInt32) :
    UInt32 × Heap :=
  let h' := h.modify a fun t =>
    { t with nrSlots := t.nrSlots + 1, sizes := Function.update t.sizes i (newMem size poolAt) }
  (poolAt + headerSize,
    { h' with
      words := setHeader (h.poolWords size poolAt) poolAt slot usedMem
      ptr := some (a, i)
      nrSlot := slot
      pageLog := .alloc poolAt (nrBlocks (blockSize size)) :: h.pageLog })

/-- Put a new table in front of the list and use its first pool. `w` is the memory with the
header of the first block written. -/
def pushTable (h : Heap) (tableAt poolAt size slot : UInt32) (w : Words) : UInt32 × Heap :=
  (poolAt + headerSize,
    { root := ⟨tableAt, 1, Function.update (fun _ => zeroMem) 0 (newMem size poolAt)⟩ :: h.root
      words := w
      ptr := some (tableAt, 0)
      nrSlot := slot
      pageLog := .alloc poolAt (nrBlocks (blockSize size)) ::
        .alloc tableAt (nrBlocks tableSize) :: h.pageLog })

end Heap

/-- `balloc`, where `page_alloc` answers `tableAt` for the pages of a table and `poolAt` for
the pages of a pool. -/
def balloc (tableAt poolAt size : UInt32) (h : Heap) : UInt32 × Heap :=
  -- Try to allocate from slot we last allocated.
  match h.ptr.bind fun ai => h.tryPool size ai.1 ai.2 h.nrSlot with
  | some r => r
  | none =>
    if h.root = [] then
      h.pushTable tableAt poolAt size 0 (setFlag (h.poolWords size poolAt) poolAt usedMem)
    else
      -- Scan the table.
      match h.slots.findSome? fun sai => h.tryPool size sai.2.1 sai.2.2 sai.1 with
      | some r => r
      | none =>
        -- We need a new block to handle the request.
        match h.slots.find? fun sai => h.isFree sai.2.1 sai.2.2 with
        | some sai => h.openPool poolAt size sai.2.1 sai.2.2 sai.1
        | none =>
          -- Allocate a new table as we are full.
          let slot := UInt32.ofNat (nrSizes * h.root.length)
          h.pushTable tableAt poolAt size slot
            (setHeader (h.poolWords size poolAt) poolAt slot usedMem)

/-- A table with a block less in use in one of its pools. -/
def Table.release (t : Table) (i : Fin nrSizes) : Table :=
  { t with nrSlots := t.nrSlots - 1, sizes := Function.update t.sizes i (t.sizes i).release.1 }

/-- The loop of `bfree` over the tables, with `j` counting down from `nr_table`: the tables,
and the page allocator's calls. -/
def bfreeLoop (nrTable : UInt32) (nrSlot : Fin nrSizes) :
    UInt32 → List Table → List PageEvent → List Table × List PageEvent
  | _, [], log => ([], log)
  | j, t :: ts, log =>
    let hit := nrTable = 65536 * j
    let freed := if hit then (t.sizes nrSlot).release.2.toList else []
    let r := bfreeLoop nrTable nrSlot (j - 1) ts (freed ++ log)
    ((if hit then t.release nrSlot else t) :: r.1, r.2)

/-- `bfree`. -/
def bfree (addr : UInt32) (h : Heap) : Heap :=
  let hdr := addr - headerSize
  let slot := h.words hdr
  let nrTable := slot / 65536
  let nrSlot : Fin nrSizes := Fin.ofNat nrSizes (slot % 65536).toNat
  let r := bfreeLoop nrTable nrSlot nrTable h.root h.pageLog
  { h with root := r.1, words := setFlag h.words hdr freeMem, pageLog := r.2 }

/-- The heap before its first use. -/
def emptyHeap (w : Words) : Heap := ⟨[], w, none, 0, []⟩

end Malloc
end OxKernel.Mm
