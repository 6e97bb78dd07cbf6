import OxKernel.Fs.Lookup

/-!
# Creating and freeing nodes

`inode_create` and `inode_free`. A creation looks for the name, takes the first empty slot
of the directory or adds a block map to it, and only then makes the inode; a link to a
file raises the reference count of the file. A removal clears the slot, gives the blocks of
the node back and takes one empty block map out of the directory.

`inode_free` with a new node is the second half of a rename: the old inode is copied over
the new one and its blocks are kept.

## Main definitions

* `placeEntry` — the slot of a new entry, with its inode block.
* `makeNode`, `inodeCreate` — creation.
* `releaseNode`, `fixParent`, `inodeFree` — removal.
-/
namespace OxKernel.Fs

open Lib (Call)

section Create
variable {σ : Type} (L : BlockLayer σ) (dev : DevNo)

/-! ## Placing an entry -/

/-- The first empty slot of a block map. -/
def BlockMap.freeSlot (m : BlockMap) : Option (Fin bmapBlocks) :=
  (List.finRange bmapBlocks).find? fun j => m.blocks j = inodeNull

/-- `bmap.blocks[j] = b`, at a slot. -/
def BlockMap.setSlot (m : BlockMap) (j : Fin bmapBlocks) (b : BlockNo) : BlockMap :=
  { m with blocks := Function.update m.blocks j b }

/-- The search for an empty slot from a block map on: the inode block put there, or the
last block map of the chain. -/
def placeInChain : ℕ → BlockNo → NameM σ (BlockNo ⊕ (BlockNo × BlockMap))
  | 0, _ => Call.loop
  | fuel + 1, current => do
    let bmap ← readBmap L dev current
    match bmap.freeSlot with
    | some j => do
      let block ← takeBlock L dev .imap
      let bmap := bmap.setSlot j block
      writeSector L dev current (BlockMap.layout bmap)
      if block ≠ inodeNull then pure (.inl block)
      else if bmap.next = inodeNull then pure (.inr (current, bmap))
      else placeInChain fuel bmap.next
    | none =>
      if bmap.next = inodeNull then pure (.inr (current, bmap)) else placeInChain fuel bmap.next

/-- The inode block of a new entry in the first slot of a new block map, which is hung on
by `link`. -/
def placeInNewMap (link : BlockNo → NameM σ Unit) : NameM σ BlockNo := do
  let next ← takeBlock L dev .bmap
  link next
  let block ← takeBlock L dev .imap
  writeSector L dev next (BlockMap.layout (BlockMap.zero.setEntry 0 block))
  pure block

/-- The inode block of a new entry of a directory. -/
def placeEntry (fuel : ℕ) (dir : Inode) : NameM σ BlockNo :=
  if dir.next = inodeNull then
    placeInNewMap L dev fun next =>
      writeSector L dev dir.self (Inode.layout { dir with next := next })
  else do
    match ← placeInChain L dev fuel dir.next with
    | .inl block => pure block
    | .inr (current, bmap) =>
      placeInNewMap L dev fun next =>
        writeSector L dev current (BlockMap.layout { bmap with next := next })

/-! ## The new inode -/

/-- The fields every new inode has. -/
def newInode (now : BlockNo) (name : CStr) (perm umask group owner : UInt32)
    (block parent : BlockNo) : Inode :=
  { inodeSetPermissions { Inode.zero with path := strcpy Inode.zero.path name } perm umask with
    createTime := now, modifiedTime := now, accessedTime := now, self := block, parent := parent
    group := group, owner := owner }

/-- Write the block of a link and the inode in front of it. -/
def writeLink (linkPath : CStr) (n : Inode) : NameM σ Unit := do
  let next ← takeBlock L dev .bmap
  writeSector L dev next (Link.layout ⟨strcpy (fun _ => 0) linkPath, fun _ => 0⟩)
  writeSector L dev n.self (Inode.layout { n with next := next })

/-- Make the inode in the block of the new entry. -/
def makeNode (get : BlockNo → CStr → NameM σ Inode) (mode : InodeMode) (linkPath : CStr)
    (n : Inode) : NameM σ Unit :=
  match mode with
  | .createFile => do
    let _ ← readInode L dev n.parent
    writeSector L dev n.self (Inode.layout { n with isFile := 1 })
  | .createDir => do
    let _ ← readInode L dev n.parent
    writeSector L dev n.self (Inode.layout { n with isDirectory := 1 })
  | .createSymlink => do
    let _ ← readInode L dev n.parent
    writeLink L dev linkPath { n with isSymlink := 1 }
  | .createHardlink => do
    let _ ← readInode L dev n.parent
    let tnode ← Call.orFail (get n.parent linkPath) .fail
    Call.require (tnode.isDirectory = 0) .fail
    Call.require (tnode.isSymlink = 0) .fail
    Call.require (tnode.isHardlink = 0) .fail
    writeSector L dev tnode.self (Inode.layout { tnode with refcount := tnode.refcount + 1 })
    writeLink L dev linkPath { n with isHardlink := 1 }
  | _ => Call.fail .fail

/-- The directory a new entry goes to, once it is known not to have the name. -/
def createDirectory (p : Cred) (readlink : BlockNo → NameM σ BlockNo) (fuel : ℕ) (name : CStr)
    (parent : BlockNo) : NameM σ (BlockNo × Inode) := do
  let a ← enterDir L dev readlink parent
  Call.require (inodeCheckPermissions a.2 p .rwx) .fail
  let found ← if a.2.next = inodeNull then pure none else scanChain L dev name fuel a.2.next
  Call.require (found.isNone = true) .fail
  let dir ← readInode L dev a.1
  pure (a.1, dir)

/-- The arguments of `inode_create` that go into the new node. -/
structure NewNode where
  mode : InodeMode
  perm : UInt32
  umask : UInt32
  group : UInt32
  owner : UInt32
  lpath : Option CStr

/-- `inode_create`. -/
def inodeCreate (p : Cred) (now : BlockNo) (fuel : ℕ) (currentDir : BlockNo) (path : CStr)
    (a : NewNode) : NameM σ Unit := do
  let s ← Call.get
  let root ← ofOption (rootBlock dev s.fs)
  Call.require (a.lpath.isSome = true ∨ a.mode ≠ .createSymlink ∧ a.mode ≠ .createHardlink) .fail
  Call.require (path.length ≤ maxPath) .fail
  Call.require ((a.lpath.getD []).length ≤ maxPath) .fail
  let path ← krealpath L dev root fuel currentDir path
  let linkPath ←
    match a.lpath with
    | some lpath => krealpath L dev root fuel currentDir lpath
    | none => pure []
  let inode ← rootInode L dev now root
  let readlink := kreadlink L dev root fuel fun currentDir path =>
    inodeGet L dev p now fuel currentDir path true .dontCheckPerms
  match components path with
  | [] => pure ()
  | [_] => pure ()
  | _ :: name :: names => do
    let parent ← walk L dev p readlink fuel (name :: names).dropLast inode.self
    let last := (name :: names).getLast (List.cons_ne_nil _ _)
    let d ← createDirectory L dev p readlink fuel last parent
    let block ← placeEntry L dev fuel d.2
    makeNode L dev (fun parent linkPath =>
        inodeGet L dev p now fuel parent linkPath false .dontCheckPerms) a.mode linkPath
      (newInode now last a.perm a.umask a.group a.owner block d.1)

end Create

section Free
variable {σ : Type} (L : BlockLayer σ) (dev : DevNo)

/-! ## Removal -/

/-- `strncpy` into an array: the string and zeroes behind it. -/
def strncpy {n : ℕ} (src : CStr) : Fin n → UInt8 := fun i => src.getD i 0

/-- The old inode under the name and in the place of the new one. -/
def Inode.renamed (n newnode : Inode) : Inode :=
  { n with path := strncpy newnode.name, self := newnode.self, parent := newnode.parent }

/-- Give the data blocks of a block map back. -/
def giveEntries (bmap : BlockMap) : List (Fin bmapBlocks) → NameM σ Unit
  | [] => pure ()
  | j :: js => do
    if bmap.blocks j ≠ inodeNull then giveBlock L dev .bmap (bmap.blocks j)
    giveEntries bmap js

/-- Give the blocks of a file back. -/
def giveChain : ℕ → BlockNo → NameM σ Unit
  | 0, _ => Call.loop
  | fuel + 1, next =>
    if next = inodeNull then pure ()
    else do
      let data ← readBmap L dev next
      giveEntries L dev data (List.finRange bmapBlocks)
      giveBlock L dev .bmap next
      giveChain fuel data.next

/-- What becomes of the blocks of a node whose entry has been removed. `get` is the lookup
of the target of a hard link. -/
def releaseNode (fuel : ℕ) (get : CStr → NameM σ Inode) (inode : Inode) : NameM σ Unit :=
  if inode.isFile ≠ 0 then giveChain L dev fuel inode.next
  else if inode.isDirectory ≠ 0 then pure ()
  else if inode.isSymlink ≠ 0 then
    if inode.next ≠ inodeNull then giveBlock L dev .bmap inode.next else pure ()
  else if inode.isHardlink ≠ 0 then
    if inode.next ≠ inodeNull then do
      let link ← readLink L dev inode.next
      let tnode ← Call.orFail (get (cstr link.path)) .fail
      writeSector L dev tnode.self (Inode.layout { tnode with refcount := tnode.refcount - 1 })
    else Call.fail .fail
  else pure ()

/-- The inode the caller gets back from a rename. -/
def copyNode (inode newnode : Inode) : Inode :=
  if inode.isFile ≠ 0 ∨ inode.isDirectory ≠ 0 ∨ inode.isSymlink ≠ 0 ∨ inode.isHardlink ≠ 0 then
    inode.renamed newnode
  else newnode

/-- A block map without entries. -/
def BlockMap.Empty (m : BlockMap) : Prop := ∀ j, m.blocks j = inodeNull

instance (m : BlockMap) : Decidable m.Empty := inferInstanceAs (Decidable (∀ _, _))

/-- Take the first empty block map out of the chain of a directory. At the head of a longer
chain `parent.next == bmap.next` is a comparison, so the directory keeps its old head. -/
def fixParent (parent : Inode) : ℕ → BlockNo → BlockNo → NameM σ Unit
  | 0, _, _ => Call.loop
  | fuel + 1, prev, current =>
    if current = inodeNull then pure ()
    else do
      let bmap ← readBmap L dev current
      if bmap.Empty then
        if prev = current then do
          giveBlock L dev .bmap current
          writeSector L dev parent.self
            (Inode.layout (if bmap.next = inodeNull then { parent with next := inodeNull } else parent))
        else do
          let pnode ← readBmap L dev prev
          writeSector L dev prev (BlockMap.layout { pnode with next := bmap.next })
          giveBlock L dev .bmap current
          writeSector L dev parent.self (Inode.layout parent)
      else fixParent parent fuel current bmap.next

/-- The search for the entry of a node: the block map that has it, with the entry cleared. -/
def findEntry (self : BlockNo) : ℕ → BlockNo → NameM σ (BlockNo × BlockMap)
  | 0, _ => Call.loop
  | fuel + 1, current => do
    let bmap ← readBmap L dev current
    match (List.finRange bmapBlocks).find? fun j => bmap.blocks j = self with
    | some j => pure (current, bmap.setSlot j inodeNull)
    | none => if bmap.next = inodeNull then Call.fail .inconsistent else findEntry self fuel bmap.next

/-- `inode_free`, with the inode it leaves in `*newnode`. -/
def inodeFree (p : Cred) (now : BlockNo) (fuel : ℕ) (currentDir : BlockNo) (path : CStr)
    (newnode : Option Inode) : NameM σ (Option Inode) := do
  Call.require (path.length ≤ maxPath) .fail
  let inode ← inodeGet L dev p now fuel currentDir path false .dontCheckPerms
  Call.require (¬ (newnode.isNone ∧ inode.isDirectory ≠ 0 ∧ inode.next ≠ inodeNull)) .fail
  Call.require (¬ (newnode.isNone ∧ inode.isFile ≠ 0 ∧ 0 < inode.refcount)) .param
  let parent ← readInode L dev inode.parent
  let _ ← readInode L dev parent.self
  let a ← findEntry L dev inode.self fuel parent.next
  giveBlock L dev .imap inode.self
  writeSector L dev a.1 (BlockMap.layout a.2)
  match newnode with
  | some n => do
    fixParent L dev parent fuel parent.next parent.next
    pure (some (copyNode inode n))
  | none => do
    releaseNode L dev fuel (fun path => inodeGet L dev p now fuel currentDir path false .rw) inode
    fixParent L dev parent fuel parent.next parent.next
    pure none

end Free

end OxKernel.Fs
