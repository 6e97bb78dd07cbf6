import OxKernel.Fs.Create
import OxKernel.Fs.File

/-!
# Opening, closing and changing files

The calls of `file.c` that take a path, and the calls that write an inode back: `kcreat`,
`kopen`, `kclose`, `kdup`, `kdup2`, `kunlink`, `kchmod`, `kfchmod` and `krename`. An open file is a copy of
its inode in the table of the process; the calls on a descriptor change the copy and write
it to the inode block as a whole.

## Main definitions

* `kcreat`, `kopen`, `kopen2`, `kclose`, `kdup`, `kdup2` — descriptors.
* `kchmod`, `kfchmod` — permissions.
* `kunlink`, `krename` — names.
-/
namespace OxKernel.Fs

open Lib (Call)

section System
variable {σ : Type} (L : BlockLayer σ)

/-! ## Opening -/

/-- The fields that opening a file sets, at a position. -/
def Inode.opened (n : Inode) (dev : DevNo) (pos : UInt64) : Inode :=
  { n with current := inodeNull, pos := pos, currentParent := inodeNull, iblock := 0, dev := dev }

/-- `inode_get` by the process. -/
def Sys.get (s : Sys σ) (fuel : ℕ) (now : BlockNo) (path : CStr) (doReadlink : Bool)
    (mode : InodeMode) : Option (Except InodeRtvl Inode × Sys σ) :=
  s.call (inodeGet L (masterGetDev s) s.proc.cred now fuel s.proc.cwd path doReadlink mode)

/-- `inode_create` of a file by the process. -/
def Sys.create (s : Sys σ) (fuel : ℕ) (now : BlockNo) (path : CStr) (perm : UInt32) :
    Option (Except InodeRtvl Unit × Sys σ) :=
  s.call (inodeCreate L (masterGetDev s) s.proc.cred now fuel s.proc.cwd path
    ⟨.createFile, perm, s.proc.umask, s.proc.group, s.proc.owner, none⟩)

/-- `kcreat`. A failing lookup of the new inode leaves the descriptor taken. -/
def kcreat (fuel : ℕ) (now : BlockNo) (path : CStr) (mode : UInt32) (s : Sys σ) :
    Option (Int32 × Sys σ) := do
  let (r, s) ← s.create L fuel now path mode
  match r with
  | .error _ => pure (-1, s)
  | .ok _ =>
    match s.proc.allocDescriptor with
    | none => pure (-1, s)
    | some (fd, t, p) => do
      let s := { s with proc := p }
      let (r, s) ← s.get L fuel now path true (inodeGetMode mode s.proc.umask)
      match r with
      | .error _ => pure (-1, s)
      | .ok n => pure (fd, { s with proc := s.proc.setInode t (n.opened (masterGetDev s) 0) })

/-- The flags of `open`. -/
def oRdonly : UInt32 := 1
def oWronly : UInt32 := 2
def oRdwr : UInt32 := 4
def oCreat : UInt32 := 64
def oTrunc : UInt32 := 512
def oAppend : UInt32 := 1024

/-- A flag is set. -/
def hasFlag (flags flag : UInt32) : Bool := flags &&& flag ≠ 0

/-- The access mode that an open asks for. -/
def openMode (flags : UInt32) : InodeMode :=
  if hasFlag flags oRdwr || hasFlag flags oTrunc then .rw
  else if hasFlag flags oWronly then .write
  else if hasFlag flags oRdonly then .read
  else .unset

/-- The flag that an open adds to the open mode of the inode. -/
def accessFlag (flags : UInt32) : UInt32 :=
  if hasFlag flags oRdonly then oRdonly else if hasFlag flags oWronly then oWronly
    else if hasFlag flags oRdwr then oRdwr else 0

/-- The permissions that `kopen` creates a file with. -/
def openPerm (flags : UInt32) : UInt32 :=
  (if hasFlag flags oRdonly then sIrusr else 0) ||| (if hasFlag flags oWronly then sIwusr else 0) |||
    (if hasFlag flags oRdwr || hasFlag flags oTrunc then sIrusr ||| sIwusr else 0)

/-- Free the data blocks of a block map. -/
def freeEntries (dev : DevNo) (bmap : BlockMap) (fs : FsState σ) : FsState σ :=
  (List.finRange bmapBlocks).foldl
    (fun fs i =>
      if bmap.blocks i = inodeNull then fs else (inodeFreeDataBlock L dev (bmap.blocks i) fs).2) fs

/-- The loop of a truncation, which reads one block too many: it ends after the block map
at block 0. `none` when it has not ended within the given number of rounds. -/
def truncateLoop (dev : DevNo) : ℕ → BlockNo → BlockMap → FsState σ → Option (FsState σ)
  | 0, _, _, _ => none
  | fuel + 1, current, bmap, fs =>
    if current = inodeNull then some fs
    else
      let current := bmap.next
      match L.blockRead dev bmap.next (BlockMap.layout bmap) fs.store with
      | (_, data, st) =>
        let bmap := BlockMap.layout.symm data
        let fs := freeEntries L dev bmap { fs with store := st }
        let fs := if current = inodeNull then fs else (inodeFreeDataBlock L dev current fs).2
        truncateLoop dev fuel current bmap fs

/-- What an open does to the inode it has found: the truncation, the open mode and the
position. -/
def openInode (fuel : ℕ) (now : BlockNo) (dev : DevNo) (flags : UInt32) (n : Inode)
    (fs : FsState σ) : Option (Inode × FsState σ) := do
  let n := { n with accessedTime := now }
  let (n, fs) ←
    if hasFlag flags oTrunc then do
      let n := { n with modifiedTime := now }
      let fs ← truncateLoop L dev fuel n.next { BlockMap.zero with next := n.next } fs
      let n := { n with pos := 0, size := 0, next := inodeNull }
      pure (n, { fs with store := (L.blockWrite dev n.self (Inode.layout n) fs.store).2 })
    else pure (n, fs)
  let n := { n with oMode := n.oMode ||| accessFlag flags }
  pure (n.opened dev (if hasFlag flags oAppend then n.size else 0), fs)

/-- The inode that an open works on: the one found, or the one of a new file. -/
def openFind (perm : UInt32) (fuel : ℕ) (now : BlockNo) (path : CStr) (flags : UInt32) (s : Sys σ) :
    Option (Except InodeRtvl Inode × Sys σ) := do
  let (r, s) ← s.get L fuel now path true (openMode flags)
  match r with
  | .ok n => pure (.ok n, s)
  | .error e =>
    if hasFlag flags oCreat then do
      let (r, s) ← s.create L fuel now path perm
      match r with
      | .error e => pure (.error e, s)
      | .ok _ => s.get L fuel now path true (openMode flags)
    else pure (.error e, s)

/-- The common part of `kopen` and `kopen2`, for a file that is created with permissions
`perm` if it does not exist. -/
def openWith (perm : UInt32) (fuel : ℕ) (now : BlockNo) (path : CStr) (flags : UInt32)
    (s : Sys σ) : Option (Int32 × Sys σ) := do
  let (r, s) ← openFind L perm fuel now path flags s
  match r with
  | .error _ => pure (-1, s)
  | .ok n => do
    let (n, fs) ← openInode L fuel now (masterGetDev s) flags n s.fs
    let s := { s with fs := fs }
    match s.proc.allocDescriptor with
    | none => pure (-1, s)
    | some (fd, t, p) => pure (fd, { s with proc := p.setInode t n })

/-- `kopen`. -/
def kopen (fuel : ℕ) (now : BlockNo) (path : CStr) (flags : UInt32) (s : Sys σ) :
    Option (Int32 × Sys σ) := openWith L (openPerm flags) fuel now path flags s

/-- `kopen2`. -/
def kopen2 (fuel : ℕ) (now : BlockNo) (path : CStr) (flags mode : UInt32) (s : Sys σ) :
    Option (Int32 × Sys σ) := openWith L mode fuel now path flags s

/-! ## Closing -/

/-- What `kclose` leaves in the inode. -/
def Inode.closed (n : Inode) (now : BlockNo) : Inode :=
  { n with
    oMode := 0
    current := inodeNull
    currentParent := inodeNull
    iblock := 0
    pos := 0
    accessedTime := now }

/-- `kclose`. A descriptor that has a duplicate is only taken out of the table. -/
def kclose (now : BlockNo) (fd : Int32) (s : Sys σ) : Int32 × Sys σ :=
  match s.proc.descriptor fd with
  | none => (-1, s)
  | some t =>
    if (List.finRange maxFiles).any fun i => s.proc.fileDesc i = some t ∧ (i : ℤ) ≠ fd.toInt then
      (0, { s with proc := s.proc.setDescriptor fd none })
    else
      match L.blockSync (s.proc.fileTab t).dev s.fs.store with
      | (.ok, st) =>
        let n := (s.proc.fileTab t).closed now
        match L.blockWrite n.dev n.self (Inode.layout n) st with
        | (.ok, st) =>
          (0, { s with
            proc := (s.proc.setInode t Inode.zero).setDescriptor fd none
            fs := { s.fs with store := st } })
        | (_, st) => (-1, { s with proc := s.proc.setInode t n, fs := { s.fs with store := st } })
      | (_, st) => (-1, { s with fs := { s.fs with store := st } })

/-! ## Duplicating -/

/-- `kdup`: the first free descriptor. -/
def kdup (fd : Int32) (s : Sys σ) : Int32 × Sys σ :=
  match s.proc.descriptor fd with
  | none => (-1, s)
  | some t =>
    match (List.finRange maxFiles).find? fun i => (s.proc.fileDesc i).isNone with
    | some i =>
      (Int32.ofNat i,
        { s with proc := { s.proc with fileDesc := Function.update s.proc.fileDesc i (some t) } })
    | none => (-1, s)

/-- `kdup2`. The result of the close is not looked at. -/
def kdup2 (now : BlockNo) (fd newfd : Int32) (s : Sys σ) : Int32 × Sys σ :=
  match s.proc.descriptor fd with
  | none => (-1, s)
  | some t =>
    if newfd < 0 ∨ (maxFiles : ℤ) < newfd.toInt then (-1, s)
    else if s.proc.descriptor newfd = some t then (newfd, s)
    else
      let s := if (s.proc.descriptor newfd).isSome then (kclose L now newfd s).2 else s
      (newfd, { s with proc := s.proc.setDescriptor newfd (some t) })

/-! ## Permissions -/

/-- `kchmod`. -/
def kchmod (fuel : ℕ) (now : BlockNo) (path : CStr) (mode : UInt32) (s : Sys σ) :
    Option (Int32 × Sys σ) := do
  let (r, s) ← s.get L fuel now path true .dontCheckPerms
  match r with
  | .error _ => pure (-1, s)
  | .ok n =>
    let n := { inodeSetPermissions n mode s.proc.umask with modifiedTime := now }
    match L.blockWrite (masterGetDev s) n.self (Inode.layout n) s.fs.store with
    | (.ok, st) => pure (0, { s with fs := { s.fs with store := st } })
    | (_, st) => pure (-1, { s with fs := { s.fs with store := st } })

/-- `kfchmod`. -/
def kfchmod (now : BlockNo) (fd : Int32) (mode : UInt32) (s : Sys σ) : Int32 × Sys σ :=
  match s.proc.descriptor fd with
  | none => (-1, s)
  | some t =>
    let n := inodeSetPermissions { s.proc.fileTab t with modifiedTime := now } mode s.proc.umask
    let p := s.proc.setInode t n
    match L.blockWrite n.dev n.self (Inode.layout n) s.fs.store with
    | (.ok, st) => (0, { s with proc := p, fs := { s.fs with store := st } })
    | (_, st) => (-1, { s with proc := p, fs := { s.fs with store := st } })

/-! ## Names -/

/-- `kunlink`. -/
def kunlink (fuel : ℕ) (now : BlockNo) (path : CStr) (s : Sys σ) : Option (Int32 × Sys σ) := do
  let (r, s) ← s.call (inodeFree L (masterGetDev s) s.proc.cred now fuel s.proc.cwd path none)
  match r with
  | .error _ => pure (-1, s)
  | .ok _ => pure (0, s)

/-- The path functions that `krename` calls, one after the other: the new name is made for
a file, and the inode that the removal of the old name leaves is written in its place. -/
def rename (dev : DevNo) (p : Cred) (umask : UInt32) (now : BlockNo) (fuel : ℕ) (cwd : BlockNo)
    (oldpath newpath : CStr) : NameM σ Unit := do
  let inode ← inodeGet L dev p now fuel cwd oldpath true .dontCheckPerms
  inodeCreate L dev p now fuel cwd newpath
    ⟨.createFile, inodeGetPermissions inode, umask, p.group, p.owner, none⟩
  let newnode ← inodeGet L dev p now fuel cwd newpath true .dontCheckPerms
  let r ← inodeFree L dev p now fuel cwd oldpath (some newnode)
  let newnode := r.getD newnode
  writeSector L dev newnode.self (Inode.layout newnode)

/-- `krename`. -/
def krename (fuel : ℕ) (now : BlockNo) (oldpath newpath : CStr) (s : Sys σ) :
    Option (Int32 × Sys σ) := do
  let (r, s) ← s.call (rename L (masterGetDev s) s.proc.cred s.proc.umask now fuel s.proc.cwd
    oldpath newpath)
  match r with
  | .error _ => pure (-1, s)
  | .ok _ => pure (0, s)

end System

end OxKernel.Fs
