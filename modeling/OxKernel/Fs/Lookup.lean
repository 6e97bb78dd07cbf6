import OxKernel.Fs.Paths
import OxKernel.Fs.Permission
import OxKernel.Lib.Call

/-!
# Looking paths up

`krealpath`, `kreadlink` and `inode_get`. A path is made absolute and cut into components;
`inode_get` then goes from the root inode through directories and symbolic links to
directories, and `kreadlink` calls it again for the path in a link. The counter that limits
this recursion is a static variable of `kreadlink`, and a failure inside leaves it raised.

The loops over a chain of block maps and over the parents of a directory do not end on a
cycle, so the functions take a number of rounds, and a call that has not ended within that
number does not return. A NULL of `krealpath` is the error its callers return. `errno` and
the messages are left out; the clock and the identity of the process are arguments.

## Main definitions

* `Names`, `NameM` — what a path function works on.
* `krealpath`, `kreadlink`, `inodeGet` — the functions.
* `enterDir`, `stepDir`, `walk` — the steps that a lookup and a creation share.
-/
namespace OxKernel.Fs

open Lib (Call)

/-- The file system and the static counter of `kreadlink`. -/
structure Names (σ : Type) where
  fs : FsState σ
  nrRecursion : Int32

/-- Computations of the path functions. -/
abbrev NameM (σ : Type) := Call InodeRtvl (Names σ)

/-- `MAX_RECURSION`. -/
def maxRecursion : Int32 := 1024

/-- `link_t`. -/
structure Link where
  path : Fin maxPath → UInt8
  pad : Fin maxPath → UInt8

/-- The fields of a link in the order of the declaration. -/
def Link.fields : Link ≃ (Fin maxPath → UInt8) × (Fin maxPath → UInt8) where
  toFun l := (l.path, l.pad)
  invFun f := ⟨f.1, f.2⟩
  left_inv _ := rfl
  right_inv _ := rfl

/-- The image of a link in a sector. -/
def Link.layout : Lib.Layout devBlockSize Link :=
  Link.fields.trans ((Lib.Layout.bytes maxPath).prod (Lib.Layout.bytes maxPath))

/-- The name of an inode in its directory. -/
def Inode.name (n : Inode) : CStr := cstr n.path

section Blocks
variable {σ : Type} (L : BlockLayer σ) (dev : DevNo)

/-- Replace the storage. -/
def Names.setStore (s : Names σ) (st : σ) : Names σ := { s with fs := { s.fs with store := st } }

/-- `block_read` into a local buffer, checked. -/
def readSector (block : BlockNo) : NameM σ Sector := fun s =>
  match L.blockRead dev block Sector.zero s.fs.store with
  | (.ok, data, st) => some (.ok data, s.setStore st)
  | (_, _, st) => some (.error .fail, s.setStore st)

/-- `block_write`, checked. -/
def writeSector (block : BlockNo) (data : Sector) : NameM σ Unit := fun s =>
  match L.blockWrite dev block data s.fs.store with
  | (.ok, st) => some (.ok (), s.setStore st)
  | (_, st) => some (.error .fail, s.setStore st)

/-- `block_read` of an inode. -/
def readInode (block : BlockNo) : NameM σ Inode := do
  let data ← readSector L dev block
  pure (Inode.layout.symm data)

/-- `block_read` of a block map. -/
def readBmap (block : BlockNo) : NameM σ BlockMap := do
  let data ← readSector L dev block
  pure (BlockMap.layout.symm data)

/-- `block_read` of a link. -/
def readLink (block : BlockNo) : NameM σ Link := do
  let data ← readSector L dev block
  pure (Link.layout.symm data)

/-- `inode_get_inode_block` and `inode_get_data_block`, checked, into a variable that
holds 0. -/
def takeBlock (k : MapKind) : NameM σ BlockNo := fun s =>
  match getBlock L k dev 0 s.fs with
  | (.ok, block, fs) => some (.ok block, { s with fs := fs })
  | (_, _, fs) => some (.error .fail, { s with fs := fs })

/-- `inode_free_inode_block` and `inode_free_data_block`, checked. -/
def giveBlock (k : MapKind) (block : BlockNo) : NameM σ Unit := fun s =>
  match freeBlock L k dev block s.fs with
  | (.ok, fs) => some (.ok (), { s with fs := fs })
  | (_, fs) => some (.error .fail, { s with fs := fs })

/-- A pointer that may be NULL. -/
def ofOption {α : Type} : Option α → NameM σ α
  | some a => pure a
  | none => Call.fail .fail

end Blocks

section Lookup
variable {σ : Type} (L : BlockLayer σ) (dev : DevNo)

/-! ## Absolute paths -/

/-- The path from the root to a directory, in front of `tmp`. -/
def cwdPath (root : BlockNo) : ℕ → BlockNo → CStr → NameM σ CStr
  | 0, _, _ => Call.loop
  | fuel + 1, dir, tmp =>
    if dir = root then pure tmp
    else do
      let inode ← readInode L dev dir
      let tmp ← ofOption (pushFront tmp inode.name)
      let tmp ← ofOption (pushFront tmp [slash])
      cwdPath root fuel inode.parent tmp

/-- `krealpath`. A path that does not start with a slash is relative to `current_dir`. -/
def krealpath (root : BlockNo) (fuel : ℕ) (currentDir : BlockNo) (path : CStr) : NameM σ CStr := do
  let front ←
    if path.head? = some slash then pure []
    else do
      let tmp ← cwdPath L dev root fuel currentDir []
      Call.require (tmp.length + 1 ≤ maxPath) .fail
      ofOption (pushFront [] (tmp ++ [slash]))
  Call.require (front.length + path.length ≤ maxPath) .fail
  pure (normalize (front ++ path))

/-! ## Directories -/

/-- The first entry of a block map with a given name, and its inode. -/
def scanEntries (name : CStr) (bmap : BlockMap) :
    List (Fin bmapBlocks) → NameM σ (Option (BlockNo × Inode))
  | [] => pure none
  | j :: js =>
    if bmap.blocks j = inodeNull then scanEntries name bmap js
    else do
      let tnode ← readInode L dev (bmap.blocks j)
      if tnode.name = name then pure (some (bmap.blocks j, tnode)) else scanEntries name bmap js

/-- The first entry of a chain of block maps with a given name. -/
def scanChain (name : CStr) : ℕ → BlockNo → NameM σ (Option (BlockNo × Inode))
  | 0, _ => Call.loop
  | fuel + 1, next => do
    let bmap ← readBmap L dev next
    match ← scanEntries L dev name bmap (List.finRange bmapBlocks) with
    | some a => pure (some a)
    | none => if bmap.next = inodeNull then pure none else scanChain name fuel bmap.next

/-- The directory that a component is looked up in: `parent`, or what it is a symbolic
link to. -/
def enterDir (readlink : BlockNo → NameM σ BlockNo) (parent : BlockNo) :
    NameM σ (BlockNo × Inode) := do
  let inode ← readInode L dev parent
  if inode.isDirectory ≠ 0 ∨ inode.isSymlink ≠ 0 then
    if inode.isSymlink ≠ 0 then do
      let block ← readlink inode.self
      Call.require (block ≠ inodeNull) .fail
      let inode ← readInode L dev block
      Call.require (inode.isDirectory ≠ 0) .fail
      pure (inode.self, inode)
    else pure (parent, inode)
  else Call.fail .fail

/-- Look one component up. -/
def stepDir (p : Cred) (readlink : BlockNo → NameM σ BlockNo) (fuel : ℕ) (name : CStr)
    (parent : BlockNo) : NameM σ (BlockNo × Inode) := do
  let a ← enterDir L dev readlink parent
  Call.require (inodeCheckPermissions a.2 p .rx) .fail
  Call.require (a.2.next ≠ inodeNull) .fileNotFound
  match ← scanChain L dev name fuel a.2.next with
  | some r => pure r
  | none => Call.fail .fileNotFound

/-- Look components up one after the other. -/
def walk (p : Cred) (readlink : BlockNo → NameM σ BlockNo) (fuel : ℕ) :
    List CStr → BlockNo → NameM σ BlockNo
  | [], parent => pure parent
  | name :: names, parent => do
    let a ← stepDir L dev p readlink fuel name parent
    walk p readlink fuel names a.1

/-! ## The root -/

/-- The inode of a root directory that is made on first use, in place of what its block
holds. -/
def Inode.asRoot (n : Inode) (now : BlockNo) (dev : DevNo) (root : BlockNo) : Inode :=
  { inodeSetPermissions { n with path := strcpy n.path [slash], next := inodeNull } 511 0 with
    createTime := now, modifiedTime := now, accessedTime := now, isDirectory := 1, dev := dev
    self := root, parent := root, group := 0, owner := 0 }

/-- Read the root inode, and make it if it is not there. -/
def rootInode (now : BlockNo) (root : BlockNo) : NameM σ Inode := do
  let inode ← readInode L dev root
  if inode.name = [slash] then pure inode
  else do
    let block ← takeBlock L dev .imap
    Call.require (block = root) .fail
    writeSector L dev root (Inode.layout (inode.asRoot now dev root))
    pure (inode.asRoot now dev root)

/-! ## `inode_get` -/

/-- The lookup that `kreadlink` makes for the path in a link, given `inode_get`. -/
def linkTarget (root : BlockNo) (fuel : ℕ) (get : BlockNo → CStr → NameM σ Inode)
    (currentDir : BlockNo) : NameM σ Inode := do
  let inode ← readInode L dev currentDir
  Call.require (inode.isSymlink ≠ 0 ∨ inode.isHardlink ≠ 0) .fail
  let link ← readLink L dev inode.next
  let _ ← krealpath L dev root fuel currentDir (cstr link.path)
  get currentDir (cstr link.path)

/-- `kreadlink`: the block of what a link leads to, or 0. -/
def kreadlink (root : BlockNo) (fuel : ℕ) (get : BlockNo → CStr → NameM σ Inode)
    (currentDir : BlockNo) : NameM σ BlockNo := do
  Call.modify fun s => { s with nrRecursion := s.nrRecursion + 1 }
  let s ← Call.get
  if maxRecursion < s.nrRecursion then do
    Call.modify fun s => { s with nrRecursion := s.nrRecursion - 1 }
    pure inodeNull
  else
    Call.recover (do
      let n ← linkTarget L dev root fuel get currentDir
      Call.modify fun s => { s with nrRecursion := s.nrRecursion - 1 }
      pure n.self) inodeNull

/-- The end of `inode_get`: the inode that was found, or the one it is a link to. -/
def finishGet (p : Cred) (readlink : BlockNo → NameM σ BlockNo) (doReadlink : Bool)
    (mode : InodeMode) (tnode : Inode) : NameM σ Inode := do
  let tnode ←
    if (tnode.isSymlink ≠ 0 ∨ tnode.isHardlink ≠ 0) ∧ doReadlink then do
      let block ← readlink tnode.self
      Call.require (block ≠ inodeNull) .fail
      readInode L dev block
    else pure tnode
  Call.require (inodeCheckPermissions tnode p mode) .fail
  pure tnode

/-- `INODE_ROOT_BLOCK`, if the device is mounted. -/
def rootBlock (fs : FsState σ) : Option BlockNo :=
  (masterGet dev fs).map fun row => (fs.masterTab row).inodeStart

/-- `inode_get` below a root, given `kreadlink`. -/
def getFrom (p : Cred) (now root : BlockNo) (readlink : BlockNo → NameM σ BlockNo) (fuel : ℕ)
    (currentDir : BlockNo) (path : CStr) (doReadlink : Bool) (mode : InodeMode) :
    NameM σ Inode := do
  Call.require (path.length ≤ maxPath) .fail
  let path ← krealpath L dev root fuel currentDir path
  let inode ← rootInode L dev now root
  match components path with
  | [] => Call.fail .fail
  | [c] => if c = [] then pure inode else Call.fail .fail
  | _ :: name :: names => do
    let parent ← walk L dev p readlink fuel (name :: names).dropLast inode.self
    let a ← stepDir L dev p readlink fuel ((name :: names).getLast (List.cons_ne_nil _ _)) parent
    finishGet L dev p readlink doReadlink mode a.2

/-- `inode_get`. -/
def inodeGet (p : Cred) (now : BlockNo) : ℕ → BlockNo → CStr → Bool → InodeMode → NameM σ Inode
  | 0, _, _, _, _ => Call.loop
  | fuel + 1, currentDir, path, doReadlink, mode => do
    let s ← Call.get
    let root ← ofOption (rootBlock dev s.fs)
    let readlink := kreadlink L dev root fuel fun currentDir path =>
      inodeGet p now fuel currentDir path true .dontCheckPerms
    getFrom L dev p now root readlink fuel currentDir path doReadlink mode

end Lookup

end OxKernel.Fs
