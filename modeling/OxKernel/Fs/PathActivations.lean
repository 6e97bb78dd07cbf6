import OxKernel.Fs.PathBufferLaw
import OxKernel.Fs.LinkCount
import OxKernel.Lib.Noted

/-!
# The path buffers of whole calls

A call of `inode_get`, `inode_create` or `inode_free` starts further ones: `kreadlink` makes the
path in a link absolute and looks it up, `inode_create` looks up what a hard link is to lead to,
and `inode_free` looks up the node and what a hard link leads to. Each of them has buffers of its
own. The copies of the functions here note each call that touches them when it starts, so that
the calls before an endless loop are in the list, too.

## Main definitions

* `Activation` — one call with the names of the directories above its current one.
* `inodeGetTo`, `inodeCreateTo`, `inodeFreeTo` — the functions, with what they start.
* `PathCall.BuffersLaw` — no access of a call, or of one that it starts, is outside a buffer.
* `PathCall.LengthsFit` — the paths of all of them fit.

## Main results

* `path_buffers_iff` — the law holds of exactly the calls whose paths fit.
-/
namespace OxKernel.Fs

open Lib (Call Traced Noted)

/-- A call that touches the path buffers, with the names of the directories above. -/
structure Activation where
  names : List CStr
  call : BufferCall

/-- What it touches. -/
def Activation.touches (a : Activation) : List Touch := (a.call.run a.names).trace

/-- Its lengths fit. -/
def Activation.Fits (a : Activation) : Prop := a.call.Fits a.names

/-- A path function that notes what it starts. -/
abbrev PathN := Noted Activation InodeRtvl (Names Disk)

section Copies
variable (dev : DevNo)

/-- Start a call in a directory. -/
def starts (root dir : BlockNo) (call : BufferCall) : PathN Unit :=
  Noted.note fun s => ⟨namesAbove (s.fs.store dev) root (maxPath + 1) dir, call⟩

/-! ## Lookups -/

/-- `enterDir`. -/
def enterDirTo (readlink : BlockNo → PathN BlockNo) (parent : BlockNo) :
    PathN (BlockNo × Inode) := do
  let inode ← Noted.of (readInode flatStore dev parent)
  if inode.isDirectory ≠ 0 ∨ inode.isSymlink ≠ 0 then
    if inode.isSymlink ≠ 0 then do
      let block ← readlink inode.self
      Noted.of (Call.require (block ≠ inodeNull) .fail)
      let inode ← Noted.of (readInode flatStore dev block)
      Noted.of (Call.require (inode.isDirectory ≠ 0) .fail)
      pure (inode.self, inode)
    else pure (parent, inode)
  else Noted.of (Call.fail .fail)

/-- `stepDir`. -/
def stepDirTo (p : Cred) (readlink : BlockNo → PathN BlockNo) (fuel : ℕ) (name : CStr)
    (parent : BlockNo) : PathN (BlockNo × Inode) := do
  let a ← enterDirTo dev readlink parent
  Noted.of (Call.require (inodeCheckPermissions a.2 p .rx) .fail)
  Noted.of (Call.require (a.2.next ≠ inodeNull) .fileNotFound)
  match ← Noted.of (scanChain flatStore dev name fuel a.2.next) with
  | some r => pure r
  | none => Noted.of (Call.fail .fileNotFound)

/-- `walk`. -/
def walkTo (p : Cred) (readlink : BlockNo → PathN BlockNo) (fuel : ℕ) :
    List CStr → BlockNo → PathN BlockNo
  | [], parent => pure parent
  | name :: names, parent => do
    let a ← stepDirTo dev p readlink fuel name parent
    walkTo p readlink fuel names a.1

/-- `linkTarget`, which calls `krealpath` in the directory of the link, and `inode_get` there. -/
def linkTargetTo (root : BlockNo) (fuel : ℕ) (get : BlockNo → CStr → PathN Inode)
    (currentDir : BlockNo) : PathN Inode := do
  let inode ← Noted.of (readInode flatStore dev currentDir)
  Noted.of (Call.require (inode.isSymlink ≠ 0 ∨ inode.isHardlink ≠ 0) .fail)
  let link ← Noted.of (readLink flatStore dev inode.next)
  starts dev root currentDir (.readlink (cstr link.path))
  let _ ← Noted.of (krealpath flatStore dev root fuel currentDir (cstr link.path))
  get currentDir (cstr link.path)

/-- `kreadlink`. -/
def kreadlinkTo (root : BlockNo) (fuel : ℕ) (get : BlockNo → CStr → PathN Inode)
    (currentDir : BlockNo) : PathN BlockNo := do
  Noted.of (Call.modify fun s => { s with nrRecursion := s.nrRecursion + 1 })
  let s ← Noted.of Call.get
  if maxRecursion < s.nrRecursion then do
    Noted.of (Call.modify fun s => { s with nrRecursion := s.nrRecursion - 1 })
    pure inodeNull
  else
    Noted.recover (do
      let n ← linkTargetTo dev root fuel get currentDir
      Noted.of (Call.modify fun s => { s with nrRecursion := s.nrRecursion - 1 })
      pure n.self) inodeNull

/-- `finishGet`. -/
def finishGetTo (p : Cred) (readlink : BlockNo → PathN BlockNo) (doReadlink : Bool)
    (mode : InodeMode) (tnode : Inode) : PathN Inode := do
  let tnode ←
    if (tnode.isSymlink ≠ 0 ∨ tnode.isHardlink ≠ 0) ∧ doReadlink then do
      let block ← readlink tnode.self
      Noted.of (Call.require (block ≠ inodeNull) .fail)
      Noted.of (readInode flatStore dev block)
    else pure tnode
  Noted.of (Call.require (inodeCheckPermissions tnode p mode) .fail)
  pure tnode

/-- `getFrom`. -/
def getFromTo (p : Cred) (now root : BlockNo) (readlink : BlockNo → PathN BlockNo) (fuel : ℕ)
    (currentDir : BlockNo) (path : CStr) (doReadlink : Bool) (mode : InodeMode) :
    PathN Inode := do
  Noted.of (Call.require (path.length ≤ maxPath) .fail)
  let path ← Noted.of (krealpath flatStore dev root fuel currentDir path)
  let inode ← Noted.of (rootInode flatStore dev now root)
  match components path with
  | [] => Noted.of (Call.fail .fail)
  | [c] => if c = [] then pure inode else Noted.of (Call.fail .fail)
  | _ :: name :: names => do
    let parent ← walkTo dev p readlink fuel (name :: names).dropLast inode.self
    let a ← stepDirTo dev p readlink fuel ((name :: names).getLast (List.cons_ne_nil _ _)) parent
    finishGetTo dev p readlink doReadlink mode a.2

/-- `inode_get`. -/
def inodeGetTo (p : Cred) (now : BlockNo) :
    ℕ → BlockNo → CStr → Bool → InodeMode → PathN Inode
  | 0, _, _, _, _ => Noted.of Call.loop
  | fuel + 1, currentDir, path, doReadlink, mode => do
    let s ← Noted.of Call.get
    let root ← Noted.of (ofOption (rootBlock dev s.fs))
    starts dev root currentDir (.get path)
    let readlink := kreadlinkTo dev root fuel fun currentDir path =>
      inodeGetTo p now fuel currentDir path true .dontCheckPerms
    getFromTo dev p now root readlink fuel currentDir path doReadlink mode

/-! ## Creation -/

/-- `createDirectory`. -/
def createDirectoryTo (p : Cred) (readlink : BlockNo → PathN BlockNo) (fuel : ℕ) (name : CStr)
    (parent : BlockNo) : PathN (BlockNo × Inode) := do
  let a ← enterDirTo dev readlink parent
  Noted.of (Call.require (inodeCheckPermissions a.2 p .rwx) .fail)
  let found ← Noted.of (if a.2.next = inodeNull then pure none
    else scanChain flatStore dev name fuel a.2.next)
  Noted.of (Call.require (found.isNone = true) .fail)
  let dir ← Noted.of (readInode flatStore dev a.1)
  pure (a.1, dir)

/-- `makeNode`. Only for a hard link the target is looked up. -/
def makeNodeTo (get : BlockNo → CStr → PathN Inode) (mode : InodeMode) (linkPath : CStr)
    (n : Inode) : PathN Unit :=
  match mode with
  | .createHardlink => do
    let _ ← Noted.of (readInode flatStore dev n.parent)
    let tnode ← Noted.orFail (get n.parent linkPath) .fail
    Noted.of (Call.require (tnode.isDirectory = 0) .fail)
    Noted.of (Call.require (tnode.isSymlink = 0) .fail)
    Noted.of (Call.require (tnode.isHardlink = 0) .fail)
    Noted.of (writeSector flatStore dev tnode.self
      (Inode.layout { tnode with refcount := tnode.refcount + 1 }))
    Noted.of (writeLink flatStore dev linkPath { n with isHardlink := 1 })
  | mode => Noted.of (makeNode flatStore dev (fun _ _ => Call.loop) mode linkPath n)

/-- `createAt`. -/
def createAtTo (p : Cred) (now root : BlockNo) (readlink : BlockNo → PathN BlockNo)
    (get : BlockNo → CStr → PathN Inode) (fuel : ℕ) (path linkPath : CStr) (a : NewNode) :
    PathN Unit := do
  let inode ← Noted.of (rootInode flatStore dev now root)
  match components path with
  | [] => pure ()
  | [_] => pure ()
  | _ :: name :: names => do
    let parent ← walkTo dev p readlink fuel (name :: names).dropLast inode.self
    let last := (name :: names).getLast (List.cons_ne_nil _ _)
    let d ← createDirectoryTo dev p readlink fuel last parent
    let block ← Noted.of (placeEntry flatStore dev fuel d.2)
    makeNodeTo dev get a.mode linkPath
      (newInode now last a.perm a.umask a.group a.owner block d.1)

/-- `createFrom`. -/
def createFromTo (p : Cred) (now root : BlockNo) (readlink : BlockNo → PathN BlockNo)
    (get : BlockNo → CStr → PathN Inode) (fuel : ℕ) (currentDir : BlockNo) (path : CStr)
    (a : NewNode) : PathN Unit := do
  Noted.of (Call.require (a.lpath.isSome = true ∨ a.mode ≠ .createSymlink ∧ a.mode ≠ .createHardlink)
    .fail)
  starts dev root currentDir (.create path a.lpath)
  Noted.of (Call.require (path.length ≤ maxPath) .fail)
  Noted.of (Call.require ((a.lpath.getD []).length ≤ maxPath) .fail)
  let path ← Noted.of (krealpath flatStore dev root fuel currentDir path)
  let linkPath ← Noted.of (
    match a.lpath with
    | some lpath => krealpath flatStore dev root fuel currentDir lpath
    | none => pure [])
  createAtTo dev p now root readlink get fuel path linkPath a

/-- `inode_create`. -/
def inodeCreateTo (p : Cred) (now : BlockNo) (fuel : ℕ) (currentDir : BlockNo) (path : CStr)
    (a : NewNode) : PathN Unit := do
  let s ← Noted.of Call.get
  let root ← Noted.of (ofOption (rootBlock dev s.fs))
  createFromTo dev p now root
    (kreadlinkTo dev root fuel fun currentDir path =>
      inodeGetTo dev p now fuel currentDir path true .dontCheckPerms)
    (fun parent linkPath => inodeGetTo dev p now fuel parent linkPath false .dontCheckPerms)
    fuel currentDir path a

/-! ## Removal -/

/-- `releaseNode`. -/
def releaseNodeTo (fuel : ℕ) (get : CStr → PathN Inode) (inode : Inode) : PathN Unit :=
  if inode.isFile ≠ 0 then Noted.of (giveChain flatStore dev fuel inode.next)
  else if inode.isDirectory ≠ 0 then pure ()
  else if inode.isSymlink ≠ 0 then
    if inode.next ≠ inodeNull then Noted.of (giveBlock flatStore dev .bmap inode.next) else pure ()
  else if inode.isHardlink ≠ 0 then
    if inode.next ≠ inodeNull then do
      let link ← Noted.of (readLink flatStore dev inode.next)
      let tnode ← Noted.orFail (get (cstr link.path)) .fail
      Noted.of (writeSector flatStore dev tnode.self
        (Inode.layout { tnode with refcount := tnode.refcount - 1 }))
    else Noted.of (Call.fail .fail)
  else pure ()

/-- `freeFrom`. -/
def freeFromTo (get get' : CStr → PathN Inode) (fuel : ℕ) (path : CStr)
    (newnode : Option Inode) : PathN (Option Inode) := do
  Noted.note fun _ => ⟨[], .free path⟩
  Noted.of (Call.require (path.length ≤ maxPath) .fail)
  let inode ← get path
  Noted.of (Call.require
    (¬ (newnode.isNone ∧ inode.isDirectory ≠ 0 ∧ inode.next ≠ inodeNull)) .fail)
  Noted.of (Call.require (¬ (newnode.isNone ∧ inode.isFile ≠ 0 ∧ 0 < inode.refcount)) .param)
  let parent ← Noted.of (readInode flatStore dev inode.parent)
  let _ ← Noted.of (readInode flatStore dev parent.self)
  let a ← Noted.of (findEntry flatStore dev inode.self fuel parent.next)
  Noted.of (giveBlock flatStore dev .imap inode.self)
  Noted.of (writeSector flatStore dev a.1 (BlockMap.layout a.2))
  match newnode with
  | some n => do
    Noted.of (fixParent flatStore dev parent fuel parent.next parent.next)
    pure (some (copyNode inode n))
  | none => do
    releaseNodeTo dev fuel get' inode
    Noted.of (fixParent flatStore dev parent fuel parent.next parent.next)
    pure none

/-- `inode_free`. -/
def inodeFreeTo (p : Cred) (now : BlockNo) (fuel : ℕ) (currentDir : BlockNo) (path : CStr)
    (newnode : Option Inode) : PathN (Option Inode) :=
  freeFromTo dev (fun path => inodeGetTo dev p now fuel currentDir path false .dontCheckPerms)
    (fun path => inodeGetTo dev p now fuel currentDir path false .rw) fuel path newnode

end Copies

/-! ## The copies end where the functions do -/

/-- A lookup, or what `kreadlink` does for one, of strings. -/
def Activation.Nested (a : Activation) : Prop :=
  (∀ n ∈ a.names, ∀ c ∈ n, c ≠ 0) ∧
    ∃ path : CStr, (∀ c ∈ path, c ≠ 0) ∧ (a.call = .get path ∨ a.call = .readlink path)

/-- A copy of a path function that starts only lookups. -/
abbrev Starts {α : Type} (y : PathN α) (x : NameM Disk α) : Prop :=
  Noted.Notes Activation.Nested y x

section Rules
variable {dev : DevNo} {p : Cred} {now root : BlockNo} {fuel : ℕ} {path : CStr}

theorem starts_linkTarget {get : BlockNo → CStr → NameM Disk Inode}
    {get' : BlockNo → CStr → PathN Inode}
    (hget : ∀ b path, (∀ c ∈ path, c ≠ 0) → Starts (get' b path) (get b path)) (b : BlockNo) :
    Starts (linkTargetTo dev root fuel get' b) (linkTarget flatStore dev root fuel get b) := by
  rw [linkTarget, linkTargetTo]
  refine Noted.Notes.bind (.of _) fun n => ?_
  refine Noted.Notes.bind (.of _) fun _ => ?_
  refine Noted.Notes.bind (.of _) fun l => ?_
  have hz : ∀ c ∈ cstr l.path, c ≠ 0 := cstr_nonzero _
  refine Noted.Notes.note_bind (fun s => ⟨namesAbove_nonzero, _, hz, .inr rfl⟩) ?_
  exact Noted.Notes.bind (.of _) fun _ => hget b _ hz

theorem starts_kreadlink {get : BlockNo → CStr → NameM Disk Inode}
    {get' : BlockNo → CStr → PathN Inode}
    (hget : ∀ b path, (∀ c ∈ path, c ≠ 0) → Starts (get' b path) (get b path)) (b : BlockNo) :
    Starts (kreadlinkTo dev root fuel get' b) (kreadlink flatStore dev root fuel get b) := by
  rw [kreadlink, kreadlinkTo]
  refine Noted.Notes.bind (.of _) fun _ => ?_
  refine Noted.Notes.bind (.of _) fun s => ?_
  split
  · exact Noted.Notes.bind (.of _) fun _ => .pure _
  · refine Noted.Notes.recover ?_ _
    refine Noted.Notes.bind (starts_linkTarget hget b) fun n => ?_
    exact Noted.Notes.bind (.of _) fun _ => .pure _

section Links
variable {readlink : BlockNo → NameM Disk BlockNo} {readlink' : BlockNo → PathN BlockNo}
  (hl : ∀ b, Starts (readlink' b) (readlink b))
include hl

theorem starts_enterDir (b : BlockNo) :
    Starts (enterDirTo dev readlink' b) (enterDir flatStore dev readlink b) := by
  rw [enterDir, enterDirTo]
  refine Noted.Notes.bind (.of _) fun n => ?_
  split
  · split
    · refine Noted.Notes.bind (hl _) fun a => ?_
      refine Noted.Notes.bind (.of _) fun _ => ?_
      refine Noted.Notes.bind (.of _) fun m => ?_
      exact Noted.Notes.bind (.of _) fun _ => .pure _
    · exact .pure _
  · exact .of _

theorem starts_stepDir (name : CStr) (b : BlockNo) :
    Starts (stepDirTo dev p readlink' fuel name b)
      (stepDir flatStore dev p readlink fuel name b) := by
  rw [stepDir, stepDirTo]
  refine Noted.Notes.bind (starts_enterDir hl b) fun a => ?_
  refine Noted.Notes.bind (.of _) fun _ => ?_
  refine Noted.Notes.bind (.of _) fun _ => ?_
  refine Noted.Notes.bind (.of _) fun o => ?_
  split
  · exact .pure _
  · exact .of _

theorem starts_walk (names : List CStr) (b : BlockNo) :
    Starts (walkTo dev p readlink' fuel names b) (walk flatStore dev p readlink fuel names b) := by
  induction names generalizing b with
  | nil => exact .pure b
  | cons name names ih =>
      rw [walk, walkTo]
      exact Noted.Notes.bind (starts_stepDir hl name b) fun a => ih a.1

theorem starts_finishGet (doReadlink : Bool) (mode : InodeMode) (n : Inode) :
    Starts (finishGetTo dev p readlink' doReadlink mode n)
      (finishGet flatStore dev p readlink doReadlink mode n) := by
  have hend : ∀ n : Inode, Starts
      (do
        Noted.of (Call.require (inodeCheckPermissions n p mode) .fail)
        pure n : PathN Inode)
      (do
        Call.require (inodeCheckPermissions n p mode) .fail
        pure n : NameM Disk Inode) :=
    fun n => Noted.Notes.bind (.of _) fun _ => .pure _
  rw [finishGet, finishGetTo]
  split
  · refine Noted.Notes.bind (hl _) fun a => ?_
    refine Noted.Notes.bind (.of _) fun _ => ?_
    exact Noted.Notes.bind (.of _) hend
  · exact hend n

theorem starts_getFrom (cwd : BlockNo) (path : CStr) (doReadlink : Bool) (mode : InodeMode) :
    Starts (getFromTo dev p now root readlink' fuel cwd path doReadlink mode)
      (getFrom flatStore dev p now root readlink fuel cwd path doReadlink mode) := by
  rw [getFrom, getFromTo]
  refine Noted.Notes.bind (.of _) fun _ => ?_
  refine Noted.Notes.bind (.of _) fun path => ?_
  refine Noted.Notes.bind (.of _) fun n => ?_
  rcases components path with _ | ⟨c, _ | ⟨name, names⟩⟩
  · exact .of _
  · dsimp only
    split
    · exact .pure _
    · exact .of _
  · refine Noted.Notes.bind (starts_walk hl _ _) fun b => ?_
    refine Noted.Notes.bind (starts_stepDir hl _ b) fun a => ?_
    exact starts_finishGet hl doReadlink mode a.2

theorem starts_createDirectory (name : CStr) (b : BlockNo) :
    Starts (createDirectoryTo dev p readlink' fuel name b)
      (createDirectory flatStore dev p readlink fuel name b) := by
  rw [createDirectory, createDirectoryTo]
  refine Noted.Notes.bind (starts_enterDir hl b) fun a => ?_
  refine Noted.Notes.bind (.of _) fun _ => ?_
  have hend : ∀ found : Option (BlockNo × Inode), Starts
      (do
        Noted.of (Call.require (found.isNone = true) .fail)
        let dir ← Noted.of (readInode flatStore dev a.1)
        pure (a.1, dir) : PathN (BlockNo × Inode))
      (do
        Call.require (found.isNone = true) .fail
        let dir ← readInode flatStore dev a.1
        pure (a.1, dir) : NameM Disk (BlockNo × Inode)) := by
    intro found
    refine Noted.Notes.bind (.of _) fun _ => ?_
    exact Noted.Notes.bind (.of _) fun _ => .pure _
  split
  · exact Noted.Notes.bind (.of _) hend
  · exact Noted.Notes.bind (.of _) hend

end Links

/-- **A lookup** starts only lookups. -/
theorem starts_inodeGet (fuel : ℕ) (cwd : BlockNo) (hz : ∀ c ∈ path, c ≠ 0) (doReadlink : Bool)
    (mode : InodeMode) : Starts (inodeGetTo dev p now fuel cwd path doReadlink mode)
      (inodeGet flatStore dev p now fuel cwd path doReadlink mode) := by
  induction fuel generalizing cwd path doReadlink mode with
  | zero => exact .of _
  | succ fuel ih =>
      rw [inodeGet, inodeGetTo]
      refine Noted.Notes.bind (.of _) fun s => ?_
      refine Noted.Notes.bind (.of _) fun root => ?_
      refine Noted.Notes.note_bind (fun s => ⟨namesAbove_nonzero, _, hz, .inl rfl⟩) ?_
      exact starts_getFrom (starts_kreadlink fun b path hz => ih b hz true .dontCheckPerms) cwd path
        doReadlink mode

section Targets
variable {get : BlockNo → CStr → NameM Disk Inode} {get' : BlockNo → CStr → PathN Inode}
  (hget : ∀ b path, (∀ c ∈ path, c ≠ 0) → Starts (get' b path) (get b path))
include hget

theorem starts_makeNode (mode : InodeMode) {linkPath : CStr} (hz : ∀ c ∈ linkPath, c ≠ 0)
    (n : Inode) : Starts (makeNodeTo dev get' mode linkPath n)
      (makeNode flatStore dev get mode linkPath n) := by
  cases mode with
  | createHardlink =>
      refine Noted.Notes.bind (.of _) fun _ => ?_
      refine Noted.Notes.bind (.orFail (hget _ _ hz) _) fun _ => ?_
      refine Noted.Notes.bind (.of _) fun _ => ?_
      refine Noted.Notes.bind (.of _) fun _ => ?_
      refine Noted.Notes.bind (.of _) fun _ => ?_
      exact Noted.Notes.bind (.of _) fun _ => .of _
  | _ => exact .of _

theorem starts_createAt {readlink : BlockNo → NameM Disk BlockNo}
    {readlink' : BlockNo → PathN BlockNo} (hl : ∀ b, Starts (readlink' b) (readlink b))
    (path : CStr) {linkPath : CStr} (hz : ∀ c ∈ linkPath, c ≠ 0) (a : NewNode) :
    Starts (createAtTo dev p now root readlink' get' fuel path linkPath a)
      (createAt flatStore dev p now root readlink get fuel path linkPath a) := by
  rw [createAt, createAtTo]
  refine Noted.Notes.bind (.of _) fun n => ?_
  rcases components path with _ | ⟨c, _ | ⟨name, names⟩⟩
  · exact .pure _
  · exact .pure _
  · refine Noted.Notes.bind (starts_walk hl _ _) fun b => ?_
    refine Noted.Notes.bind (starts_createDirectory hl _ b) fun d => ?_
    refine Noted.Notes.bind (.of _) fun block => ?_
    exact starts_makeNode hget _ hz _

end Targets

theorem starts_releaseNode {get : CStr → NameM Disk Inode} {get' : CStr → PathN Inode}
    (hget : ∀ path, (∀ c ∈ path, c ≠ 0) → Starts (get' path) (get path)) (n : Inode) :
    Starts (releaseNodeTo dev fuel get' n) (releaseNode flatStore dev fuel get n) := by
  rw [releaseNode, releaseNodeTo]
  split
  · exact .of _
  split
  · exact .pure _
  split
  · split
    · exact .of _
    · exact .pure _
  split
  · split
    · refine Noted.Notes.bind (.of _) fun l => ?_
      exact Noted.Notes.bind (.orFail (hget _ (cstr_nonzero _)) _) fun _ => .of _
    · exact .of _
  · exact .pure _

end Rules

/-! ## Whole calls -/

/-- A copy whose first note, if there is one, is of the call `top`, and whose other notes are of
lookups. With a path that is too long there is no other note. -/
def Begins {α : Type} (top : BufferCall) (y : PathN α) (x : NameM Disk α) : Prop :=
  ∀ s, (y s).value = x s ∧ ((y s).trace = [] ∨ ∃ names rest,
    (y s).trace = ⟨names, top⟩ :: rest ∧ (∀ n ∈ names, ∀ c ∈ n, c ≠ 0) ∧
      (∀ a ∈ rest, a.Nested) ∧ ((∃ p ∈ top.paths, maxPath < p.length) → rest = []))

section Begins
variable {α β : Type} {top : BufferCall} {y : PathN α} {x : NameM Disk α}

theorem Begins.of (x : NameM Disk α) : Begins top (Noted.of x) x := fun _ => ⟨rfl, .inl rfl⟩

theorem Begins.of_bind {x : NameM Disk β} {f : β → NameM Disk α} {g : β → PathN α}
    (h : ∀ b, Begins top (g b) (f b)) : Begins top (Noted.of x >>= g) (x >>= f) := by
  intro s
  rcases hx : x s with _ | ⟨_ | b, s'⟩
  · rw [Call.bind_of_none hx, Noted.of_bind_none hx]
    exact ⟨rfl, .inl rfl⟩
  · rw [Call.bind_of_error hx, Noted.of_bind_error hx]
    exact ⟨rfl, .inl rfl⟩
  · rw [Call.bind_of_ok hx, Noted.of_bind hx]
    exact h b s'

theorem Begins.note {names : Names Disk → List CStr}
    (hnames : ∀ s, ∀ n ∈ names s, ∀ c ∈ n, c ≠ 0) (h : Starts y x)
    (hlong : (∃ p ∈ top.paths, maxPath < p.length) → ∀ s, (y s).trace = []) :
    Begins top (Noted.note (fun s => ⟨names s, top⟩) >>= fun _ => y) x := by
  intro s
  obtain ⟨hval, hall⟩ := h s
  rw [Noted.note_bind]
  exact ⟨hval, .inr ⟨names s, (y s).trace, rfl, hnames s, hall, fun h => hlong h s⟩⟩

/-- A condition that fails ends the call. -/
theorem trace_of_require {c : Prop} [Decidable c] {e : InodeRtvl} {g : Unit → PathN α} (hc : ¬ c)
    (s : Names Disk) : ((Noted.of (Call.require c e) >>= g) s).trace = [] := by
  rw [Noted.of_bind_error (Call.require_of_neg hc)]
  rfl

end Begins

section Tops
variable {dev : DevNo} {p : Cred} {now root cwd : BlockNo} {fuel : ℕ} {path : CStr}

theorem begins_inodeGet (doReadlink : Bool) (mode : InodeMode) :
    Begins (.get path) (inodeGetTo dev p now fuel cwd path doReadlink mode)
      (inodeGet flatStore dev p now fuel cwd path doReadlink mode) := by
  cases fuel with
  | zero => exact .of _
  | succ fuel =>
      rw [inodeGet, inodeGetTo]
      refine .of_bind fun s => .of_bind fun root => .note (fun s => namesAbove_nonzero) ?_ ?_
      · exact starts_getFrom (starts_kreadlink fun b path hz =>
          starts_inodeGet fuel b hz true .dontCheckPerms) cwd path doReadlink mode
      · rintro ⟨q, hq, hlong⟩ s
        rw [List.mem_singleton.mp hq] at hlong
        exact trace_of_require (Nat.not_le.mpr hlong) s

theorem begins_createFrom {readlink : BlockNo → NameM Disk BlockNo}
    {readlink' : BlockNo → PathN BlockNo} {get : BlockNo → CStr → NameM Disk Inode}
    {get' : BlockNo → CStr → PathN Inode} (hl : ∀ b, Starts (readlink' b) (readlink b))
    (hget : ∀ b path, (∀ c ∈ path, c ≠ 0) → Starts (get' b path) (get b path)) {a : NewNode}
    (hz : ∀ l ∈ a.lpath, ∀ c ∈ l, c ≠ 0) :
    Begins (.create path a.lpath)
      (createFromTo dev p now root readlink' get' fuel cwd path a)
      (createFrom flatStore dev p now root readlink get fuel cwd path a) := by
  rw [createFrom, createFromTo]
  refine .of_bind fun _ => .note (fun s => namesAbove_nonzero) ?_ ?_
  · refine Noted.Notes.bind (.of _) fun _ => ?_
    refine Noted.Notes.bind (.of _) fun _ => ?_
    refine Noted.Notes.bind (.of _) fun full => ?_
    cases hl' : a.lpath with
    | none =>
        refine Noted.Notes.bind_returns (Q := fun l : CStr => ∀ c ∈ l, c ≠ 0) (.of _)
          (.pure fun c hc => absurd hc List.not_mem_nil) fun linkPath hlz => ?_
        exact starts_createAt hget hl full hlz a
    | some l =>
        refine Noted.Notes.bind_returns (.of _) (krealpath_nonzero (hz l hl')) fun linkPath hlz => ?_
        exact starts_createAt hget hl full hlz a
  · rintro ⟨q, hq, hlong⟩ s
    by_cases hpath : path.length ≤ maxPath
    · rw [Noted.of_bind (Call.require_of_pos hpath)]
      refine trace_of_require (fun hle => ?_) s
      rcases List.mem_cons.mp hq with rfl | hq
      · omega
      · rw [Option.mem_toList.mp hq] at hle
        exact absurd hle (Nat.not_le.mpr hlong)
    · exact trace_of_require hpath s

theorem begins_inodeCreate {a : NewNode} (hz : ∀ l ∈ a.lpath, ∀ c ∈ l, c ≠ 0) :
    Begins (.create path a.lpath) (inodeCreateTo dev p now fuel cwd path a)
      (inodeCreate flatStore dev p now fuel cwd path a) := by
  rw [inodeCreate_eq, inodeCreateTo]
  refine .of_bind fun s => .of_bind fun root => begins_createFrom ?_ ?_ hz
  · exact starts_kreadlink fun b path hz => starts_inodeGet fuel b hz true .dontCheckPerms
  · exact fun b path hz => starts_inodeGet fuel b hz false .dontCheckPerms

theorem begins_inodeFree (hz : ∀ c ∈ path, c ≠ 0) (newnode : Option Inode) :
    Begins (.free path) (inodeFreeTo dev p now fuel cwd path newnode)
      (inodeFree flatStore dev p now fuel cwd path newnode) := by
  rw [inodeFree_eq, inodeFreeTo, freeFrom, freeFromTo]
  refine .note (fun _ n hn => absurd hn List.not_mem_nil) ?_ ?_
  swap
  · rintro ⟨q, hq, hlong⟩ s
    rw [List.mem_singleton.mp hq] at hlong
    exact trace_of_require (Nat.not_le.mpr hlong) s
  refine Noted.Notes.bind (.of _) fun _ => ?_
  refine Noted.Notes.bind (starts_inodeGet fuel cwd hz false .dontCheckPerms) fun n => ?_
  refine Noted.Notes.bind (.of _) fun _ => ?_
  refine Noted.Notes.bind (.of _) fun _ => ?_
  refine Noted.Notes.bind (.of _) fun parent => ?_
  refine Noted.Notes.bind (.of _) fun _ => ?_
  refine Noted.Notes.bind (.of _) fun a => ?_
  refine Noted.Notes.bind (.of _) fun _ => ?_
  refine Noted.Notes.bind (.of _) fun _ => ?_
  split
  · exact Noted.Notes.bind (.of _) fun _ => .pure _
  · refine Noted.Notes.bind (starts_releaseNode (fun path hz =>
      starts_inodeGet fuel cwd hz false .rw) n) fun _ => ?_
    exact Noted.Notes.bind (.of _) fun _ => .pure _

end Tops

/-- The call itself, with its paths. -/
def PathCall.top : PathCall → BufferCall
  | .inodeGet _ _ _ _ _ path _ _ => .get path
  | .inodeCreate _ _ _ _ _ path a => .create path a.lpath
  | .inodeFree _ _ _ _ _ path _ => .free path

/-- The state after a call that returns, and what it starts, itself included. -/
def PathCall.runTo (s : Names Disk) : PathCall → Traced Activation (Names Disk)
  | .inodeGet dev p now fuel cwd path doReadlink mode =>
    (inodeGetTo dev p now fuel cwd path doReadlink mode).final s
  | .inodeCreate dev p now fuel cwd path a => (inodeCreateTo dev p now fuel cwd path a).final s
  | .inodeFree dev p now fuel cwd path newnode =>
    (inodeFreeTo dev p now fuel cwd path newnode).final s

/-- What the call and all that it starts touch. -/
def PathCall.touches (s : Names Disk) (c : PathCall) : List Touch :=
  (c.runTo s).trace.flatMap Activation.touches

/-- What is asked of a call: no access of it, or of what it starts, is outside a buffer, and a
path that does not fit into a buffer is refused before anything is touched. -/
structure PathCall.BuffersLaw (s : Names Disk) (c : PathCall) : Prop where
  inside : ∀ t ∈ c.touches s, t.Inside
  refused : ∀ p ∈ c.top.paths, maxPath ≤ p.length → c.touches s = []

/-- The paths of the call and of all that it starts fit: its own ones, those of the links that it
follows, and that of a hard link that it makes or takes away. -/
def PathCall.LengthsFit (s : Names Disk) (c : PathCall) : Prop :=
  ∀ a ∈ (c.runTo s).trace, a.Fits

section Law
variable {c : PathCall} {s : Names Disk}

theorem PathCall.runTo_value_and_trace (hz : c.top.Strings) :
    (c.runTo s).value = c.run flatStore s ∧ ((c.runTo s).trace = [] ∨ ∃ names rest,
      (c.runTo s).trace = ⟨names, c.top⟩ :: rest ∧ (∀ n ∈ names, ∀ c ∈ n, c ≠ 0) ∧
        (∀ a ∈ rest, a.Nested) ∧ ((∃ p ∈ c.top.paths, maxPath < p.length) → rest = [])) := by
  cases c with
  | inodeGet dev p now fuel cwd path doReadlink mode =>
      obtain ⟨hval, htrace⟩ := begins_inodeGet (p := p) doReadlink mode s
      exact ⟨congrArg (Option.map Prod.snd) hval, htrace⟩
  | inodeCreate dev p now fuel cwd path a =>
      obtain ⟨hval, htrace⟩ := begins_inodeCreate (p := p)
        (fun l hl => hz l (List.mem_cons_of_mem _ (Option.mem_toList.mpr hl))) s
      exact ⟨congrArg (Option.map Prod.snd) hval, htrace⟩
  | inodeFree dev p now fuel cwd path newnode =>
      obtain ⟨hval, htrace⟩ := begins_inodeFree (p := p) (hz path List.mem_cons_self) newnode s
      exact ⟨congrArg (Option.map Prod.snd) hval, htrace⟩

/-- A lookup, or what `kreadlink` does for one, stays inside for exactly the lengths that fit. -/
theorem Activation.Nested.inside_iff {a : Activation} (h : a.Nested) :
    (∀ t ∈ a.touches, t.Inside) ↔ a.Fits := by
  obtain ⟨names, call⟩ := a
  obtain ⟨hnames, path, hz, rfl | rfl⟩ := h
  · exact getTo_all hnames hz
  · exact realpathTo_all (fullOf_nonzero hnames hz)

/-- A path that fills a buffer does not fit, so one that is too long is refused. -/
theorem BufferCall.Fits.refused {call : BufferCall} {names : List CStr} (h : call.Fits names)
    {p : CStr} (hp : p ∈ call.paths) (hlong : maxPath ≤ p.length) :
    ∃ q ∈ call.paths, maxPath < q.length := by
  cases call with
  | get path =>
      rcases h with hlt | ⟨hne, -⟩
      · exact ⟨path, List.mem_cons_self, hlt⟩
      · rw [List.mem_singleton.mp hp] at hlong
        exact ⟨path, List.mem_cons_self, Nat.lt_of_le_of_ne hlong (Ne.symm hne)⟩
  | readlink path => exact absurd hp List.not_mem_nil
  | create path lpath =>
      rcases h with hlt | ⟨hne, -⟩
      · exact hlt
      · exact ⟨p, hp, Nat.lt_of_le_of_ne hlong (Ne.symm (hne p hp))⟩
  | free path =>
      rw [List.mem_singleton.mp hp] at hlong
      exact ⟨path, List.mem_cons_self, Nat.lt_of_le_of_ne hlong (Ne.symm h)⟩

/-- **The path buffers of a call.** The copy ends where the call does, and no access of the call or
of what it starts is outside a buffer for exactly the calls all of whose paths fit. -/
theorem path_buffers_iff (hz : c.top.Strings) : (c.runTo s).value = c.run flatStore s ∧
    (c.BuffersLaw s ↔ c.LengthsFit s) := by
  obtain ⟨hval, htrace⟩ := PathCall.runTo_value_and_trace (s := s) hz
  refine ⟨hval, ?_⟩
  rcases htrace with hnil | ⟨names, rest, htrace, hnames, hrest, hlong⟩
  · have htouches : c.touches s = [] := by
      rw [PathCall.touches, hnil]
      rfl
    refine iff_of_true ⟨fun t ht => ?_, fun _ _ _ => htouches⟩ fun a ha => ?_
    · rw [htouches] at ht
      exact absurd ht List.not_mem_nil
    · rw [hnil] at ha
      exact absurd ha List.not_mem_nil
  · have htouches : c.touches s = (c.top.run names).trace ++ rest.flatMap Activation.touches := by
      rw [PathCall.touches, htrace]
      rfl
    have hiff := BufferCall.law_iff hnames hz
    constructor
    · rintro ⟨hinside, hrefused⟩ a ha
      rw [htouches] at hinside hrefused
      rw [htrace] at ha
      rcases List.mem_cons.mp ha with rfl | ha
      · exact hiff.mp ⟨fun t ht => hinside t (List.mem_append_left _ ht),
          fun p hp hle => (List.append_eq_nil_iff.mp (hrefused p hp hle)).1⟩
      · exact (hrest a ha).inside_iff.mp fun t ht =>
          hinside t (List.mem_append_right _ (List.mem_flatMap.mpr ⟨a, ha, ht⟩))
    · intro hfits
      have htop : c.top.Fits names := hfits ⟨names, c.top⟩ (by rw [htrace]; exact List.mem_cons_self)
      have hlaw := hiff.mpr htop
      refine ⟨fun t ht => ?_, fun p hp hle => ?_⟩
      · rw [htouches] at ht
        rcases List.mem_append.mp ht with ht | ht
        · exact hlaw.inside t ht
        · obtain ⟨a, ha, ht⟩ := List.mem_flatMap.mp ht
          refine (hrest a ha).inside_iff.mpr (hfits a ?_) t ht
          rw [htrace]
          exact List.mem_cons_of_mem _ ha
      · rw [htouches, hlaw.refused p hp hle, hlong (htop.refused hp hle)]
        rfl

end Law

/-! ## Calls that look a link up -/

section Traces
variable {dev : DevNo} {p : Cred} {now root cwd b : BlockNo} {fuel : ℕ} {path : CStr}
  {s : Names Disk} {mode : InodeMode}

/-- A lookup on a mounted device notes itself first. -/
theorem trace_inodeGetTo (hmount : rootBlock dev s.fs = some root) (doReadlink : Bool) :
    (inodeGetTo dev p now (fuel + 1) cwd path doReadlink mode s).trace =
      ⟨namesAbove (s.fs.store dev) root (maxPath + 1) cwd, .get path⟩ ::
        (getFromTo dev p now root (kreadlinkTo dev root fuel fun cwd path =>
          inodeGetTo dev p now fuel cwd path true .dontCheckPerms) fuel cwd path doReadlink mode
            s).trace := by
  rw [inodeGetTo, Noted.of_bind rfl, hmount, Noted.of_bind rfl, starts, Noted.note_bind]
  rfl

/-- In a directory no link is followed. -/
theorem stepDirTo_directory (rl : BlockNo → NameM Disk BlockNo) (rl' : BlockNo → PathN BlockNo)
    (fuel : ℕ) (name : CStr) (hdir : (inodeAt (s.fs.store dev) b).isDirectory ≠ 0)
    (hsym : (inodeAt (s.fs.store dev) b).isSymlink = 0) :
    stepDirTo dev p rl' fuel name b s = (stepDir flatStore dev p rl fuel name b s, []) := by
  have henter : enterDir flatStore dev rl b s = some (.ok (b, inodeAt (s.fs.store dev) b), s) := by
    rw [enterDir, Call.bind_of_ok (readInode_flat ..), if_pos (Or.inl hdir), if_neg (not_not.mpr hsym)]
    rfl
  have henter' : enterDirTo dev rl' b s = (some (.ok (b, inodeAt (s.fs.store dev) b), s), []) := by
    rw [enterDirTo, Noted.of_bind (readInode_flat ..), if_pos (Or.inl hdir),
      if_neg (not_not.mpr hsym)]
    rfl
  rw [stepDir, stepDirTo, Call.bind_of_ok henter, Noted.quiet_bind henter']
  refine Noted.Notes.quiet (Noted.Notes.bind (.of _) fun _ => ?_) s
  refine Noted.Notes.bind (.of _) fun _ => Noted.Notes.bind (.of _) fun o => ?_
  split
  · exact .pure _
  · exact .of _

theorem trace_kreadlinkTo (get : BlockNo → CStr → PathN Inode) (fs : FsState Disk) :
    (kreadlinkTo dev root fuel get b ⟨fs, 0⟩).trace =
      (linkTargetTo dev root fuel get b ⟨fs, 1⟩).trace := by
  have hlimit : ¬ maxRecursion < (0 : Int32) + 1 := by decide
  rw [kreadlinkTo, Noted.of_bind rfl, Noted.of_bind rfl, if_neg hlimit, Noted.trace_recover]
  exact Noted.trace_bind_of_quiet fun _ _ => rfl

end Traces

section Symlink
variable {target : CStr} {p : Cred} {now cwd : BlockNo} {fuel : ℕ} {nr : Int32} {mode : InodeMode}

/-- The path `/s` leads to the link. -/
theorem getFromTo_symVolume (hfuel : 1 ≤ fuel) (rl : BlockNo → PathN BlockNo) :
    getFromTo 0 p now 4100 rl fuel cwd [slash, 115] true mode ⟨symVolume target, nr⟩ =
      finishGetTo 0 p rl true mode symS ⟨symVolume target, nr⟩ := by
  have hcomp : components (normalize [slash, 115]) = [[], [115]] := by decide +kernel
  have hstep := (symVolume_ok target).stepDir List.mem_cons_self symS_name hfuel p
    (fun _ => Call.loop) nr
  have hname := symVolume_rootName target
  have hroot := symVolume_root target
  rw [← symVolume] at hstep
  generalize symVolume target = fs at hstep hname hroot ⊢
  have hdir : (inodeAt (fs.store 0) 4100).isDirectory ≠ 0 := by
    rw [hroot]
    decide
  have hsym : (inodeAt (fs.store 0) 4100).isSymlink = 0 := by
    rw [hroot]
    decide
  have hself : (inodeAt (fs.store 0) 4100).self = 4100 := by
    rw [hroot]
    rfl
  have hwalk : walkTo 0 p rl fuel [[115]].dropLast 4100 (⟨fs, nr⟩ : Names Disk) =
      (some (.ok 4100, ⟨fs, nr⟩), []) := rfl
  have hquiet := stepDirTo_directory (s := ⟨fs, nr⟩) (p := p) (fun _ => Call.loop) rl fuel [115] hdir
    hsym
  rw [hstep] at hquiet
  rw [getFromTo, Noted.of_bind (Call.require_of_pos (by decide)),
    Noted.of_bind (krealpath_absolute rfl (by decide)),
    Noted.of_bind (rootInode_flat (s := ⟨fs, nr⟩) hname), hcomp, hself]
  exact (Noted.quiet_bind hwalk).trans (Noted.quiet_bind hquiet)

/-- At the end of the lookup only the link is followed. -/
theorem trace_finishGetTo_symS (rl : BlockNo → PathN BlockNo) (s : Names Disk) :
    (finishGetTo 0 p rl true mode symS s).trace = (rl 4101 s).trace := by
  have hsym : (symS.isSymlink ≠ 0 ∨ symS.isHardlink ≠ 0) ∧ true = true := ⟨Or.inl (by decide), rfl⟩
  have hself : symS.self = 4101 := rfl
  rw [finishGetTo, if_pos hsym, hself]
  refine Noted.trace_bind_of_quiet fun block s₁ => ?_
  have hquiet : Noted.Notes (fun _ => False)
      (do
        Noted.of (Call.require (block ≠ inodeNull) .fail)
        let tnode ← Noted.of (readInode flatStore 0 block)
        Noted.of (Call.require (inodeCheckPermissions tnode p mode) .fail)
        pure tnode : PathN Inode)
      (do
        Call.require (block ≠ inodeNull) .fail
        let tnode ← readInode flatStore 0 block
        Call.require (inodeCheckPermissions tnode p mode) .fail
        pure tnode) :=
    .bind (.of _) fun _ => .bind (.of _) fun _ => .bind (.of _) fun _ => .pure _
  exact congrArg Traced.trace (hquiet.quiet s₁)

/-- Following the link is making its path absolute and looking it up. -/
theorem trace_linkTargetTo_symVolume (htarget : target.Fits) (hslash : target.head? = some slash)
    (get : BlockNo → CStr → PathN Inode) : ∃ names,
    (linkTargetTo 0 4100 fuel get 4101 ⟨symVolume target, nr⟩).trace =
      ⟨names, .readlink target⟩ :: (get 4101 target ⟨symVolume target, nr⟩).trace := by
  have hself : symS.self = 4101 := rfl
  have hnode : inodeAt ((symVolume target).store 0) 4101 = symS := by
    rw [← hself]
    exact (symVolume_ok target).node List.mem_cons_self
  have hlink : cstr (Link.layout.symm ((symVolume target).store 0 6149)).path = target :=
    (symVolume_ok target).linkAt_eq List.mem_cons_self htarget
  have hsym : symS.isSymlink ≠ 0 ∨ symS.isHardlink ≠ 0 := Or.inl (by decide)
  generalize symVolume target = fs at hnode hlink ⊢
  have hread : readInode flatStore 0 4101 (⟨fs, nr⟩ : Names Disk) = some (.ok symS, ⟨fs, nr⟩) := by
    rw [readInode_flat]
    show some (Except.ok (inodeAt (fs.store 0) 4101), (⟨fs, nr⟩ : Names Disk)) = _
    rw [hnode]
  have hpath : readLink flatStore 0 6149 (⟨fs, nr⟩ : Names Disk) =
      some (.ok (Link.layout.symm (fs.store 0 6149)), ⟨fs, nr⟩) := readLink_flat ..
  have hreal : krealpath flatStore 0 4100 fuel 4101 target (⟨fs, nr⟩ : Names Disk) =
      some (.ok (normalize target), ⟨fs, nr⟩) :=
    krealpath_absolute hslash (Nat.le_of_lt htarget.length)
  have hnext : symS.next = 6149 := rfl
  rw [linkTargetTo, Noted.of_bind hread, Noted.of_bind (Call.require_of_pos hsym), hnext,
    Noted.of_bind hpath, hlink, starts, Noted.note_bind, Noted.of_bind hreal]
  exact ⟨_, rfl⟩

/-- A lookup of `/s` starts one of the path in the link. -/
theorem trace_symVolume (htarget : target.Fits) (hslash : target.head? = some slash) :
    ∃ names names', (inodeGetTo 0 p now (fuel + 2) cwd [slash, 115] true mode
      ⟨symVolume target, 0⟩).trace = ⟨names, .get [slash, 115]⟩ :: ⟨names', .readlink target⟩ ::
        (inodeGetTo 0 p now (fuel + 1) 4101 target true .dontCheckPerms
          ⟨symVolume target, 1⟩).trace := by
  obtain ⟨names', hlink⟩ := @trace_linkTargetTo_symVolume target (fuel + 1) 1 htarget hslash
    fun cwd path => inodeGetTo 0 p now (fuel + 1) cwd path true .dontCheckPerms
  have hget := @trace_inodeGetTo 0 p now 4100 cwd (fuel + 1) [slash, 115] ⟨symVolume target, 0⟩ mode
    (symVolume_rootBlock target) true
  rw [getFromTo_symVolume (Nat.le_add_left ..), trace_finishGetTo_symS, trace_kreadlinkTo, hlink]
    at hget
  exact ⟨_, names', hget⟩

/-- A lookup of the root starts nothing else. -/
theorem trace_symVolume_root : ∃ names, (inodeGetTo 0 p now (fuel + 1) cwd [slash] true mode
    ⟨symVolume target, nr⟩).trace = [⟨names, .get [slash]⟩] := by
  have hcomp : components (normalize [slash]) = [[]] := by decide +kernel
  have hget := @trace_inodeGetTo 0 p now 4100 cwd fuel [slash] ⟨symVolume target, nr⟩ mode
    (symVolume_rootBlock target) true
  have hname := symVolume_rootName target
  generalize symVolume target = fs at hget hname ⊢
  rw [getFromTo, Noted.of_bind (Call.require_of_pos (by decide)),
    Noted.of_bind (krealpath_absolute rfl (by decide)),
    Noted.of_bind (rootInode_flat (s := ⟨fs, nr⟩) hname), hcomp] at hget
  exact ⟨_, hget⟩

/-- A path from the root with fewer than 254 characters fits. -/
theorem GetFits.of_short {names : List CStr} {path : CStr} (hslash : path.head? = some slash)
    (h : path.length + 2 < maxPath) : GetFits names path := by
  have hskip := lastSkip_le path
  refine .inr ⟨by omega, ⟨fun h => absurd hslash h, .inr ?_⟩, fun h => ?_⟩
  · rw [fullOf_absolute hslash]
    omega
  · rw [fullOf_absolute hslash] at h
    omega

/-- **The buffers of a lookup that follows a link**, of the link, and of the lookup of the root. -/
theorem path_buffers_link : ∃ names names' names'',
    ((PathCall.inodeGet 0 ⟨0, 0⟩ 0 2 4100 [slash, 115] true .dontCheckPerms).runTo
      ⟨symVolume [slash], 0⟩).trace = [⟨names, .get [slash, 115]⟩, ⟨names', .readlink [slash]⟩,
        ⟨names'', .get [slash]⟩] ∧
    (PathCall.inodeGet 0 ⟨0, 0⟩ 0 2 4100 [slash, 115] true .dontCheckPerms).BuffersLaw
      ⟨symVolume [slash], 0⟩ := by
  have hz : (PathCall.inodeGet 0 ⟨0, 0⟩ 0 2 4100 [slash, 115] true .dontCheckPerms).top.Strings := by
    show ∀ p ∈ [[slash, 115]], ∀ c ∈ p, c ≠ 0
    decide +kernel
  obtain ⟨names, names', hlink⟩ := @trace_symVolume [slash] ⟨0, 0⟩ 0 4100 0 .dontCheckPerms
    (.of_all (by decide) (by decide)) rfl
  obtain ⟨names'', hroot⟩ := @trace_symVolume_root [slash] ⟨0, 0⟩ 0 4101 0 1 .dontCheckPerms
  rw [hroot] at hlink
  refine ⟨names, names', names'', hlink, (path_buffers_iff hz).2.mpr fun a ha => ?_⟩
  rw [show ((PathCall.inodeGet 0 ⟨0, 0⟩ 0 2 4100 [slash, 115] true .dontCheckPerms).runTo
    ⟨symVolume [slash], 0⟩).trace = _ from hlink] at ha
  simp only [List.mem_cons, List.not_mem_nil, or_false] at ha
  rcases ha with rfl | rfl | rfl
  · exact .of_short rfl (by decide)
  · exact ((GetFits.of_short rfl (by decide)).resolve_left (by decide)).2.1
  · exact .of_short rfl (by decide)

/-! ## Lengths near the end of the buffer -/

/-- What a lookup starts fits if no access is outside. -/
theorem PathCall.BuffersLaw.fits {dev : DevNo} {p : Cred} {now cwd : BlockNo} {fuel : ℕ}
    {path : CStr} {doReadlink : Bool} {mode : InodeMode} {s : Names Disk}
    (h : (PathCall.inodeGet dev p now fuel cwd path doReadlink mode).BuffersLaw s)
    (hz : ∀ c ∈ path, c ≠ 0) {a : Activation}
    (ha : a ∈ (inodeGetTo dev p now fuel cwd path doReadlink mode s).trace) : a.Fits :=
  ((starts_inodeGet fuel cwd hz doReadlink mode s).2 a ha).inside_iff.mp fun t ht =>
    h.inside t (List.mem_flatMap.mpr ⟨a, ha, ht⟩)

/-- A path of 254 characters is read behind its buffer. -/
theorem not_realFits_254 (names : List CStr) :
    ¬ RealFits names (slash :: List.replicate 253 (97 : UInt8)) := by
  intro hfits
  have hno : slash ∉ List.replicate 253 (97 : UInt8) := fun hmem =>
    absurd (List.eq_of_mem_replicate hmem) (by decide)
  have hskip : lastSkip (slash :: List.replicate 253 (97 : UInt8)) = 2 := by
    rw [← List.nil_append (slash :: _), lastSkip_slash List.not_mem_nil,
      lastSkip_last hno (List.cons_ne_nil 97 _)]
    rfl
  have hfull := hfits.full
  rw [fullOf_absolute rfl, hskip, List.length_cons, List.length_replicate] at hfull
  exact absurd hfull (by decide)

/-- A path of 256 characters is not refused, and its zero is written behind `in_path`; one of 254
characters fits, but `get_next_path` looks behind `ptr_path`, also if it is the one in a link that
the lookup of a short path follows. -/
theorem path_buffers_overrun :
    ¬ (PathCall.inodeGet 0 ⟨0, 0⟩ 0 2 4100 (slash :: List.replicate 255 97) true
      .dontCheckPerms).BuffersLaw ⟨symVolume [slash], 0⟩ ∧
    ¬ (PathCall.inodeGet 0 ⟨0, 0⟩ 0 2 4100 (slash :: List.replicate 253 97) true
      .dontCheckPerms).BuffersLaw ⟨symVolume [slash], 0⟩ ∧
    ¬ (PathCall.inodeGet 0 ⟨0, 0⟩ 0 2 4100 [slash, 115] true .dontCheckPerms).BuffersLaw
      ⟨symVolume (slash :: List.replicate 253 97), 0⟩ := by
  have hz : ∀ k, ∀ c ∈ slash :: List.replicate k (97 : UInt8), c ≠ 0 := by
    intro k c hc
    rcases List.mem_cons.mp hc with rfl | hc
    · decide
    · rw [List.eq_of_mem_replicate hc]
      decide
  have hget : ∀ k, (PathCall.inodeGet 0 ⟨0, 0⟩ 0 2 4100 (slash :: List.replicate k 97) true
      .dontCheckPerms).BuffersLaw ⟨symVolume [slash], 0⟩ →
        GetFits (namesAbove ((symVolume [slash]).store 0) 4100 (maxPath + 1) 4100)
          (slash :: List.replicate k 97) := by
    intro k hlaw
    have htrace := @trace_inodeGetTo 0 ⟨0, 0⟩ 0 4100 4100 1 (slash :: List.replicate k 97)
      ⟨symVolume [slash], 0⟩ .dontCheckPerms (symVolume_rootBlock [slash]) true
    refine hlaw.fits (hz k) (a := ⟨_, .get _⟩) ?_
    rw [htrace]
    exact List.mem_cons_self
  refine ⟨fun h => ?_, fun h => ?_, fun h => ?_⟩
  · rcases hget 255 h with hlt | ⟨hne, -⟩
    · rw [List.length_cons, List.length_replicate] at hlt
      exact absurd hlt (by decide)
    · rw [List.length_cons, List.length_replicate] at hne
      exact hne rfl
  · rcases hget 253 h with hlt | ⟨-, hfits, -⟩
    · rw [List.length_cons, List.length_replicate] at hlt
      exact absurd hlt (by decide)
    · exact not_realFits_254 _ hfits
  · have hfit : CStr.Fits (slash :: List.replicate 253 (97 : UInt8)) :=
      ⟨by rw [List.length_cons, List.length_replicate]; decide, hz 253⟩
    obtain ⟨names, names', hlink⟩ := @trace_symVolume _ ⟨0, 0⟩ 0 4100 0 .dontCheckPerms hfit rfl
    have hmem : (⟨names', .readlink (slash :: List.replicate 253 97)⟩ : Activation) ∈
        (inodeGetTo 0 ⟨0, 0⟩ 0 2 4100 [slash, 115] true .dontCheckPerms
          ⟨symVolume (slash :: List.replicate 253 97), 0⟩).trace := by
      rw [hlink]
      exact List.mem_cons_of_mem _ List.mem_cons_self
    have hshort : ∀ c ∈ [slash, 115], c ≠ 0 := by decide +kernel
    exact not_realFits_254 names' (h.fits hshort hmem)

end Symlink

end OxKernel.Fs
