import OxKernel.Kernel.Process

/-!
# Loading of ELF files

`is_image_valid` and `image_load`, with a record of what they read and write. A field that the
source reads more than once without a write in between is read once.

## Main definitions

* `Access` — a read or a write of some bytes.
* `Memory` — the memory and the record of the accesses.
* `isImageValid`, `imageLoad` — the functions.
-/
namespace OxKernel.Kernel

open Lib (Call)

/-- An access to some bytes from an address on. -/
inductive Access
  | read (address length : UInt32)
  | write (address length : UInt32)
  deriving DecidableEq

/-- The memory, the record of the accesses, and that of the calls of `mem_set_read_only` with an
address and a number of pages, the last one first. -/
structure Memory where
  bytes : UInt32 → UInt8
  log : List Access
  readOnly : List (UInt32 × UInt32)

/-- A call that prints a message and returns 0, or returns. -/
abbrev LoadM (α : Type) := Call String Memory α

/-! ## Accesses -/

/-- The value of two bytes. -/
def halfAt (bytes : UInt32 → UInt8) (a : UInt32) : UInt16 :=
  (bytes a).toUInt16 + (bytes (a + 1)).toUInt16 * 256

/-- The value of four bytes. -/
def wordAt (bytes : UInt32 → UInt8) (a : UInt32) : UInt32 :=
  (bytes a).toUInt32 + (bytes (a + 1)).toUInt32 * 256 + (bytes (a + 2)).toUInt32 * 65536 +
    (bytes (a + 3)).toUInt32 * 16777216

/-- Record an access. -/
def Memory.record (m : Memory) (a : Access) : Memory := { m with log := a :: m.log }

/-- Read the value that `value` gives, of `n` bytes. -/
def fetch {α : Type} (value : (UInt32 → UInt8) → UInt32 → α) (n a : UInt32) : LoadM α := do
  Call.modify fun m => m.record (.read a n)
  let m ← Call.get
  pure (value m.bytes a)

def byte (a : UInt32) : LoadM UInt8 := fetch (fun bytes a => bytes a) 1 a
def half (a : UInt32) : LoadM UInt16 := fetch halfAt 2 a
def word (a : UInt32) : LoadM UInt32 := fetch wordAt 4 a

/-- `memset`. -/
def memset (a : UInt32) (c : UInt8) (n : UInt32) : LoadM Unit :=
  Call.modify fun m =>
    { m.record (.write a n) with
      bytes := fun x => if (x - a).toNat < n.toNat then c else m.bytes x }

/-- `memmove`. -/
def memmove (a src n : UInt32) : LoadM Unit :=
  Call.modify fun m =>
    { (m.record (.read src n)).record (.write a n) with
      bytes := fun x => if (x - a).toNat < n.toNat then m.bytes (src + (x - a)) else m.bytes x }

/-- `mem_set_read_only`, whose changes are in the page table. -/
def memSetReadOnly (a nrPages : UInt32) : LoadM Unit :=
  Call.modify fun m => { m with readOnly := (a, nrPages) :: m.readOnly }

/-! ## The format -/

/-- Offsets in `Elf32_Ehdr`. -/
def eType : UInt32 := 16
def eMachine : UInt32 := 18
def eEntry : UInt32 := 24
def ePhoff : UInt32 := 28
def ePhentsize : UInt32 := 42
def ePhnum : UInt32 := 44

/-- Offsets in `Elf32_Phdr`. -/
def pType : UInt32 := 0
def pOffset : UInt32 := 4
def pPaddr : UInt32 := 12
def pFilesz : UInt32 := 16
def pMemsz : UInt32 := 20
def pFlags : UInt32 := 24

/-- `sizeof(Elf32_Phdr)`. -/
def phdrSize : UInt32 := 32

def ptLoad : UInt32 := 1
def pfW : UInt32 := 2
def pageSize : UInt32 := 4096

/-- The address of a field of `phdr[i]`. -/
def phdrField (phdr : UInt32) (i : ℕ) (field : UInt32) : UInt32 :=
  phdr + phdrSize * UInt32.ofNat i + field

/-! ## The functions -/

/-- A byte of `e_ident`. -/
def checkMagic (hdr i : UInt32) (magic : UInt8) : LoadM Unit := do
  let b ← byte (hdr + i)
  Call.require (b = magic) "is_image_valid:: invalid ELF signature\n"

/-- `is_image_valid`. -/
def isImageValid (hdr : UInt32) : LoadM Unit := do
  Call.require (hdr ≠ 0) "is_image_valid:: null header\n"
  checkMagic hdr 0 0x7f
  checkMagic hdr 1 0x45
  checkMagic hdr 2 0x4c
  checkMagic hdr 3 0x46
  let phoff ← word (hdr + ePhoff)
  Call.require (phoff ≠ 0) "is_image_valid:: e_phoff == 0 || e_phnum == 0\n"
  let phnum ← half (hdr + ePhnum)
  Call.require (phnum ≠ 0) "is_image_valid:: e_phoff == 0 || e_phnum == 0\n"
  let phentsize ← half (hdr + ePhentsize)
  Call.require (phentsize = 32) "is_image_valid:: e_phentsize!=sizeof Elf32_Phdr\n"
  let type ← half (hdr + eType)
  Call.require (type = 2) "is_image_valid:: ELF not an executable\n"
  let machine ← half (hdr + eMachine)
  Call.require (machine = 3) "is_image_valid:: run architecture (not x86)\n"

section Load
variable (elfStart phdr exec : UInt32)

/-- `if(!estart) { estart = phdr[i].p_paddr; }`. -/
def startAt (i : ℕ) (estart : UInt32) : LoadM UInt32 :=
  if estart = 0 then word (phdrField phdr i pPaddr) else pure estart

/-- One program header in the first loop, with `estart` and `esize`. -/
def sizeStep (i : ℕ) (acc : UInt32 × UInt32) : LoadM (UInt32 × UInt32) := do
  let type ← word (phdrField phdr i pType)
  if type ≠ ptLoad then pure acc
  else do
    let estart ← startAt phdr i acc.1
    let paddr ← word (phdrField phdr i pPaddr)
    let memsz ← word (phdrField phdr i pMemsz)
    pure (estart, acc.2 + ((paddr - estart) + memsz))

/-- The rest of the second loop for a segment without bytes in the file. -/
def zeroSegment (i : ℕ) (acc : UInt32 × UInt32) (memsz : UInt32) : LoadM (UInt32 × UInt32) := do
  let paddr ← word (phdrField phdr i pPaddr)
  memset (exec + (paddr - acc.1)) 0 memsz
  pure acc

/-- The rest of the second loop for a segment with bytes in the file. -/
def copySegment (i : ℕ) (acc : UInt32 × UInt32) (filesz : UInt32) : LoadM (UInt32 × UInt32) := do
  let start ← word (phdrField phdr i pOffset)
  let estart ← startAt phdr i acc.1
  memmove (exec + acc.2) (elfStart + start) filesz
  let paddr ← word (phdrField phdr i pPaddr)
  let memsz ← word (phdrField phdr i pMemsz)
  pure (estart, acc.2 + ((paddr - estart) + memsz))

/-- One program header in the second loop, with `estart` and `offset`. For a bad one the memory
of the process is given back; `free` touches none of it. -/
def copyStep (i : ℕ) (acc : UInt32 × UInt32) : LoadM (UInt32 × UInt32) := do
  let type ← word (phdrField phdr i pType)
  if type ≠ ptLoad then pure acc
  else do
    let filesz ← word (phdrField phdr i pFilesz)
    let memsz ← word (phdrField phdr i pMemsz)
    Call.require (¬ filesz > memsz) "image_load:: p_filesz > p_memsz\n"
    if filesz = 0 then zeroSegment phdr exec i acc memsz
    else copySegment elfStart phdr exec i acc filesz

/-- `if(!(phdr[i].p_flags & PF_W)) { mem_set_read_only(…); }`. -/
def protectSegment (flags a nrPages : UInt32) : LoadM Unit :=
  if flags &&& pfW = 0 then memSetReadOnly a nrPages else pure ()

/-- The rest of the third loop for a segment with bytes in the file. -/
def keepSegment (i : ℕ) (acc : UInt32 × UInt32) (filesz : UInt32) : LoadM (UInt32 × UInt32) := do
  let _ ← word (phdrField phdr i pOffset)
  let estart ← startAt phdr i acc.1
  let paddr ← word (phdrField phdr i pPaddr)
  let memsz ← word (phdrField phdr i pMemsz)
  let flags ← word (phdrField phdr i pFlags)
  protectSegment flags (exec + acc.2) (filesz / pageSize)
  pure (estart, acc.2 + ((paddr - estart) + memsz))

/-- One program header in the third loop, with `estart` and `offset`: a segment that is not to be
written is made read-only. -/
def protectStep (i : ℕ) (acc : UInt32 × UInt32) : LoadM (UInt32 × UInt32) := do
  let type ← word (phdrField phdr i pType)
  if type ≠ ptLoad then pure acc
  else do
    let filesz ← word (phdrField phdr i pFilesz)
    let memsz ← word (phdrField phdr i pMemsz)
    Call.require (¬ filesz > memsz) "image_load:: p_filesz > p_memsz\n"
    if filesz = 0 then pure acc else keepSegment phdr exec i acc filesz

/-- More than `e_phnum` can be. -/
abbrev phdrFuel : ℕ := 65536

/-- `for(i=0; i < hdr->e_phnum; i++)`. -/
def forPhdrs {τ : Type} (body : ℕ → τ → LoadM τ) : ℕ → ℕ → τ → LoadM τ
  | 0, _, _ => Call.loop
  | fuel + 1, i, acc => do
    let phnum ← half (elfStart + ePhnum)
    if i < phnum.toNat then do
      let acc ← body i acc
      forPhdrs body fuel (i + 1) acc
    else pure acc

end Load

/-- What `image_load` returns: the start of the process, its memory and the size of that. -/
structure Loaded where
  entry : UInt32
  execMem : UInt32
  execSize : UInt32

/-- `image_load` from the test of the memory for the process on. The second loop starts with
`estart` and `offset` at 0, and the third one goes on with both. -/
def loadAt (elfStart exec esize : UInt32) : LoadM Loaded := do
  Call.require (exec ≠ 0) "image_load:: error allocating memory\n"
  memset exec 0 esize
  let phoff ← word (elfStart + ePhoff)
  let copied ← forPhdrs elfStart (copyStep elfStart (elfStart + phoff) exec) phdrFuel 0 (0, 0)
  let kept ← forPhdrs elfStart (protectStep (elfStart + phoff) exec) phdrFuel 0 copied
  let entry ← word (elfStart + eEntry)
  pure ⟨(entry - kept.1) + exec, exec, esize⟩

/-- `image_load` for the file at `elfStart`; its size is not looked at. -/
def imageLoad (malloc : UInt32 → UInt32) (elfStart _size : UInt32) : LoadM Loaded := do
  Call.orFail (isImageValid elfStart) "image_load:: invalid ELF image\n"
  let phoff ← word (elfStart + ePhoff)
  let sized ← forPhdrs elfStart (sizeStep (elfStart + phoff)) phdrFuel 0 (0, 0)
  loadAt elfStart (malloc sized.2) sized.2

end OxKernel.Kernel
