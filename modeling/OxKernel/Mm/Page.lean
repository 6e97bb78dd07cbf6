import OxKernel.Fs.Bitmap

/-!
# The page allocators

A model of `mm/page.c`: the page bitmap, `mem_init`, and the allocators of user and of
kernel pages. Both allocators work on one bitmap and are the same code on two sets of
static variables, here two values of `Region`. Addresses, page numbers and sizes are the
32-bit words of the source and wrap as they do there.

The bitmap is as large as any index used on it, and `mem_init` clears all of it. Beside
its bytes it carries the list of the indices on which a bit function was called, which
nothing reads.

A scan of the source need not end, since `page += run` may wrap, so it gets a bound on its
rounds and has no result when it runs out of them. A call has no result either when the
kernel panics.

## Main definitions

* `MemMap.memSetBit`, `MemMap.memClearBit`, `MemMap.memTestBit` — the bit functions.
* `memInit` — the static variables after `mem_init`, for a given `mem_size()`.
* `pageAlloc`, `pageFree`, `kpageAlloc`, `kpageFree` — the calls.
-/
namespace OxKernel.Mm

/-- `PAGE_SIZE`. -/
def pageSize : UInt32 := 4096

/-- `PAGE_BITS`. -/
def pageBits : UInt32 := 32768

/-- `BITS_PER_BYTE`. -/
def bitsPerByte : UInt32 := 8

/-- `ONE_MEG`. -/
def oneMeg : UInt32 := 1048576

/-- `PAGE_TABLE_SIZE`. -/
def pageTableSize : UInt32 := 1024

/-- `ONE_FULL_PAGE_TABLE_BYTES`. -/
def oneFullPageTableBytes : UInt32 := 4194304

/-- `KERNEL_END`. -/
def kernelEnd : UInt32 := 2 * oneMeg

/-- The page bitmap `mem_map`: the byte at a place of a map of `PAGE_SIZE` bytes. -/
structure MemMap where
  page : UInt32 → UInt32 → UInt8
  /-- The indices that a bit function was called on. -/
  touched : List UInt32

namespace MemMap

/-- `block`, the map that holds the bit of a page. -/
def block (page : UInt32) : UInt32 := page / pageBits

/-- `byte`, the byte of the map. -/
def byte (page : UInt32) : UInt32 := page % pageBits / bitsPerByte

/-- `bit`, the bit of the byte. -/
def bit (page : UInt32) : UInt32 := page % pageBits % bitsPerByte

/-- The byte with the bit of a page. -/
def byteOf (m : MemMap) (page : UInt32) : UInt8 := m.page (block page) (byte page)

/-- Change the byte with the bit of a page. -/
def update (m : MemMap) (page : UInt32) (x : UInt8) : MemMap where
  page := fun b y => if b = block page ∧ y = byte page then x else m.page b y
  touched := page :: m.touched

/-- `mem_set_bit`. -/
def memSetBit (m : MemMap) (page : UInt32) : MemMap :=
  m.update page (m.byteOf page ||| Fs.bitMask (bit page).toNat)

/-- `mem_clear_bit`. -/
def memClearBit (m : MemMap) (page : UInt32) : MemMap :=
  m.update page (m.byteOf page &&& ~~~Fs.bitMask (bit page).toNat)

/-- `mem_test_bit`. -/
def memTestBit (m : MemMap) (page : UInt32) : UInt32 × MemMap :=
  (((m.byteOf page &&& Fs.bitMask (bit page).toNat) >>> (bit page).toUInt8).toUInt32,
    { m with touched := page :: m.touched })

/-- `for(run = 0; run < nr_pages; ++run) if(mem_test_bit(page + run) == true) break;` with
the rounds that are left. -/
def freeRun (page : UInt32) : ℕ → UInt32 → MemMap → UInt32 × MemMap
  | 0, run, m => (run, m)
  | k + 1, run, m =>
    let (t, m) := m.memTestBit (page + run)
    if t = 1 then (run, m) else freeRun page k (run + 1) m

/-- `for(run = 0; run < nr_pages; ++run) mem_set_bit(page + run);` -/
def setRun (page : UInt32) : ℕ → UInt32 → MemMap → MemMap
  | 0, _, m => m
  | k + 1, run, m => setRun page k (run + 1) (m.memSetBit (page + run))

/-- `for(run = 0; run < nr_pages; ++run) mem_clear_bit(page + run);` -/
def clearRun (page : UInt32) : ℕ → UInt32 → MemMap → MemMap
  | 0, _, m => m
  | k + 1, run, m => clearRun page k (run + 1) (m.memClearBit (page + run))

/-- The scan for a run of `n` free pages whose first page is below `limit`. -/
def scan (n limit : UInt32) : ℕ → UInt32 → MemMap → Option (Option UInt32 × MemMap)
  | 0, _, _ => none
  | fuel + 1, page, m =>
    if page < limit then
      let (t, m) := m.memTestBit page
      if t = 0 then
        let (run, m) := freeRun page n.toNat 0 m
        if run = n then some (some page, m)
        else
          -- Skip past the ones we know don't fit.
          scan n limit fuel (page + run + 1) m
      else scan n limit fuel (page + 1) m
    else some (none, m)

end MemMap

/-- The static variables of one of the two allocators. -/
structure Region where
  /-- `ALLOC_PAGES` or `KALLOC_PAGES`. -/
  allocPages : Int32
  /-- `ULAST_PAGE` or `KLAST_PAGE`. -/
  lastPage : UInt32
  /-- `START_UMEM` or `START_KMEM`. -/
  start : UInt32
  /-- `END_UMEM` or `END_KMEM`. -/
  stop : UInt32
  /-- `UBYTES_FREE` or `KBYTES_FREE`. -/
  bytesFree : UInt32

/-- The static variables of `page.c`. -/
structure PageState where
  memMap : MemMap
  user : Region
  kernel : Region
  /-- `NR_PAGES`. -/
  nrPages : UInt32
  /-- `NR_KPAGES`. -/
  nrKpages : UInt32

/-- Round up to a multiple of `PAGE_SIZE`. -/
def pageAlign (x : UInt32) : UInt32 :=
  if x % pageSize ≠ 0 then (x / pageSize + 1) * pageSize else x

/-- `while(END_KMEM <= START_KMEM) END_KMEM += ONE_FULL_PAGE_TABLE_BYTES;` -/
def raiseEnd (startKmem : UInt32) : ℕ → UInt32 → UInt32
  | 0, endKmem => endKmem
  | k + 1, endKmem =>
    if endKmem ≤ startKmem then raiseEnd startKmem k (endKmem + oneFullPageTableBytes) else endKmem

/-- `NR_MEM_MAP`. -/
def nrMemMap (nrPages : UInt32) : UInt32 :=
  nrPages / bitsPerByte / pageSize + (if nrPages / bitsPerByte % pageSize ≠ 0 then 1 else 0)

/-- `REAL_KERNEL_END`. -/
def realKernelEnd (nrPages : UInt32) : UInt32 := pageAlign (kernelEnd + (nrPages * 4 + pageSize))

/-- `START_KMEM`. -/
def startKmem (nrPages : UInt32) : UInt32 :=
  pageAlign (nrPages / pageTableSize * pageSize + realKernelEnd nrPages
    + nrMemMap nrPages * pageSize)

/-- `END_KMEM`. -/
def endKmem (nrPages : UInt32) : UInt32 :=
  raiseEnd (startKmem nrPages) 1024 (4 * oneFullPageTableBytes)

/-- `mem_init`, where `mem_size()` answers `memSize`. -/
def memInit (memSize : UInt32) : PageState :=
  let nrPages := memSize / pageSize
  let startKmem := startKmem nrPages
  let endKmem := endKmem nrPages
  { -- Mark the kernel pages where the kernel has been loaded as being used.
    memMap := MemMap.setRun 0 (startKmem / pageSize).toNat 0 ⟨fun _ _ => 0, []⟩
    user := ⟨0, 0, endKmem, memSize, memSize - endKmem⟩
    kernel := ⟨0, 0, startKmem, endKmem, endKmem - startKmem⟩
    nrPages := nrPages
    nrKpages := endKmem / pageSize }

/-- The body of `page_alloc` and `kpage_alloc`, on the variables of one region. -/
def Region.alloc (fuel : ℕ) (n limit : UInt32) (r : Region) (m : MemMap) :
    Option (UInt32 × Region × MemMap) :=
  if (r.allocPages * 4096).toUInt32 ≥ r.bytesFree then some (0, r, m)
  else do
    let first := r.start / pageSize
    let last := if r.lastPage = 0 then first else r.lastPage
    let found (page : UInt32) (m : MemMap) : UInt32 × Region × MemMap :=
      (page * pageSize,
        { r with lastPage := page + n + 1, allocPages := r.allocPages + n.toInt32 },
        m.setRun page n.toNat 0)
    -- Scan from last page allocated/free'd.
    let (page, m) ← m.scan n limit fuel last
    match page with
    | some page => return found page m
    | none =>
      -- Didn't find any sufficient runs, scan up to it.
      let (page, m) ← m.scan n last fuel first
      match page with
      | some page => return found page m
      | none => return (0, { r with lastPage := last }, m)

/-- The body of `page_free` and `kpage_free` once the page is checked. -/
def Region.free (page n : UInt32) (r : Region) (m : MemMap) : Option (Region × MemMap) :=
  let r := { r with lastPage := page, allocPages := r.allocPages - n.toInt32 }
  if r.allocPages < 0 then none else some (r, m.clearRun page n.toNat 0)

/-- `page_alloc`. -/
def pageAlloc (fuel : ℕ) (n : UInt32) (s : PageState) : Option (UInt32 × PageState) := do
  let (addr, r, m) ← s.user.alloc fuel n s.nrPages s.memMap
  return (addr, { s with user := r, memMap := m })

/-- `kpage_alloc`. -/
def kpageAlloc (fuel : ℕ) (n : UInt32) (s : PageState) : Option (UInt32 × PageState) := do
  let (addr, r, m) ← s.kernel.alloc fuel n s.nrKpages s.memMap
  return (addr, { s with kernel := r, memMap := m })

/-- `page_free`. -/
def pageFree (addr n : UInt32) (s : PageState) : Option PageState := do
  let page := addr / pageSize
  if page < s.nrKpages ∨ page > s.nrPages then none
  else
    let (r, m) ← s.user.free page n s.memMap
    return { s with user := r, memMap := m }

/-- `kpage_free`. -/
def kpageFree (addr n : UInt32) (s : PageState) : Option PageState := do
  let page := addr / pageSize
  if page > s.nrKpages then none
  else
    let (r, m) ← s.kernel.free page n s.memMap
    return { s with kernel := r, memMap := m }

end OxKernel.Mm
