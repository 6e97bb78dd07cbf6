import OxKernel.Fs.Create
import OxKernel.Fs.LookupRules
import OxKernel.Fs.Leaves
import OxKernel.Lib.Reach

/-!
# The recursion counter of `kreadlink`

Runs of `inode_get`, `inode_create` and `inode_free`. `kreadlink` raises its static counter
and lowers it on two of its six exits: when the limit is reached, and when the link leads
somewhere. The other four leave it raised for good.

The condition for a balanced counter is that a call follows no link that fails to resolve.
`inodeGetStop` and its companions are the same functions with one difference: they do not
return when a link fails. Where they return, they agree with the functions, and the counter
is as before.

## Main definitions

* `kreadlinkStop`, `inodeGetStop`, `inodeCreateStop`, `inodeFreeStop` — the functions that
  stop at a link that does not resolve.
* `PathCall`, `pathSystem` — the top-level calls, and their runs.
-/
namespace OxKernel.Fs

open Lib (Call System)

/-! ## The functions that stop at a link that fails -/

section Stop
variable {σ : Type} (L : BlockLayer σ) (dev : DevNo)

/-- `kreadlink`, unless it leaves by one of the exits that keep the counter raised. -/
def kreadlinkStop (root : BlockNo) (fuel : ℕ) (get : BlockNo → CStr → NameM σ Inode)
    (currentDir : BlockNo) : NameM σ BlockNo := do
  Call.modify fun s => { s with nrRecursion := s.nrRecursion + 1 }
  let s ← Call.get
  if maxRecursion < s.nrRecursion then do
    Call.modify fun s => { s with nrRecursion := s.nrRecursion - 1 }
    pure inodeNull
  else
    Call.orStop (do
      let n ← linkTarget L dev root fuel get currentDir
      Call.modify fun s => { s with nrRecursion := s.nrRecursion - 1 }
      pure n.self)

/-- `inode_get`, unless a link fails. -/
def inodeGetStop (p : Cred) (now : BlockNo) :
    ℕ → BlockNo → CStr → Bool → InodeMode → NameM σ Inode
  | 0, _, _, _, _ => Call.loop
  | fuel + 1, currentDir, path, doReadlink, mode => do
    let s ← Call.get
    let root ← ofOption (rootBlock dev s.fs)
    let readlink := kreadlinkStop L dev root fuel fun currentDir path =>
      inodeGetStop p now fuel currentDir path true .dontCheckPerms
    getFrom L dev p now root readlink fuel currentDir path doReadlink mode

/-- `inode_create` from the absolute paths on, given `kreadlink` and the lookup of the
target of a hard link. -/
def createAt (p : Cred) (now root : BlockNo) (readlink : BlockNo → NameM σ BlockNo)
    (get : BlockNo → CStr → NameM σ Inode) (fuel : ℕ) (path linkPath : CStr) (a : NewNode) :
    NameM σ Unit := do
  let inode ← rootInode L dev now root
  match components path with
  | [] => pure ()
  | [_] => pure ()
  | _ :: name :: names => do
    let parent ← walk L dev p readlink fuel (name :: names).dropLast inode.self
    let last := (name :: names).getLast (List.cons_ne_nil _ _)
    let d ← createDirectory L dev p readlink fuel last parent
    let block ← placeEntry L dev fuel d.2
    makeNode L dev get a.mode linkPath
      (newInode now last a.perm a.umask a.group a.owner block d.1)

/-- `inode_create` below a root. -/
def createFrom (p : Cred) (now root : BlockNo) (readlink : BlockNo → NameM σ BlockNo)
    (get : BlockNo → CStr → NameM σ Inode) (fuel : ℕ) (currentDir : BlockNo) (path : CStr)
    (a : NewNode) : NameM σ Unit := do
  Call.require (a.lpath.isSome = true ∨ a.mode ≠ .createSymlink ∧ a.mode ≠ .createHardlink) .fail
  Call.require (path.length ≤ maxPath) .fail
  Call.require ((a.lpath.getD []).length ≤ maxPath) .fail
  let path ← krealpath L dev root fuel currentDir path
  let linkPath ←
    match a.lpath with
    | some lpath => krealpath L dev root fuel currentDir lpath
    | none => pure []
  createAt L dev p now root readlink get fuel path linkPath a

theorem inodeCreate_eq (p : Cred) (now : BlockNo) (fuel : ℕ) (currentDir : BlockNo) (path : CStr)
    (a : NewNode) :
    inodeCreate L dev p now fuel currentDir path a = (do
      let s ← Call.get
      let root ← ofOption (rootBlock dev s.fs)
      createFrom L dev p now root
        (kreadlink L dev root fuel fun currentDir path =>
          inodeGet L dev p now fuel currentDir path true .dontCheckPerms)
        (fun parent linkPath => inodeGet L dev p now fuel parent linkPath false .dontCheckPerms)
        fuel currentDir path a) := rfl

/-- `inode_create`, unless a link fails. -/
def inodeCreateStop (p : Cred) (now : BlockNo) (fuel : ℕ) (currentDir : BlockNo) (path : CStr)
    (a : NewNode) : NameM σ Unit := do
  let s ← Call.get
  let root ← ofOption (rootBlock dev s.fs)
  createFrom L dev p now root
    (kreadlinkStop L dev root fuel fun currentDir path =>
      inodeGetStop L dev p now fuel currentDir path true .dontCheckPerms)
    (fun parent linkPath => inodeGetStop L dev p now fuel parent linkPath false .dontCheckPerms)
    fuel currentDir path a

/-- `inode_free`, given the lookup of the node and the one of the target of a hard link. -/
def freeFrom (get get' : CStr → NameM σ Inode) (fuel : ℕ) (path : CStr) (newnode : Option Inode) :
    NameM σ (Option Inode) := do
  Call.require (path.length ≤ maxPath) .fail
  let inode ← get path
  Call.require (¬ (newnode.isNone ∧ inode.isDirectory ≠ 0 ∧ inode.next ≠ inodeNull)) .fail
  Call.require (¬ (newnode.isNone ∧ inode.isFile ≠ 0 ∧ 0 < inode.refcount)) .param
  let parent ← readInode L dev inode.parent
  let _ ← readInode L dev parent.self
  let a ← findEntry L dev inode.self fuel parent.next
  giveBlock L dev .imap inode.self
  writeSector L dev a.1 (BlockMap.layout a.2)
  match newnode with
  | some n => do
    fixParent L dev parent fuel parent.next parent.next
    pure (some (copyNode inode n))
  | none => do
    releaseNode L dev fuel get' inode
    fixParent L dev parent fuel parent.next parent.next
    pure none

theorem inodeFree_eq (p : Cred) (now : BlockNo) (fuel : ℕ) (currentDir : BlockNo) (path : CStr)
    (newnode : Option Inode) :
    inodeFree L dev p now fuel currentDir path newnode =
      freeFrom L dev (fun path => inodeGet L dev p now fuel currentDir path false .dontCheckPerms)
        (fun path => inodeGet L dev p now fuel currentDir path false .rw) fuel path newnode := rfl

/-- `inode_free`, unless a link fails. -/
def inodeFreeStop (p : Cred) (now : BlockNo) (fuel : ℕ) (currentDir : BlockNo) (path : CStr)
    (newnode : Option Inode) : NameM σ (Option Inode) :=
  freeFrom L dev (fun path => inodeGetStop L dev p now fuel currentDir path false .dontCheckPerms)
    (fun path => inodeGetStop L dev p now fuel currentDir path false .rw) fuel path newnode

end Stop

/-! ## The counter -/

section Counter
variable {σ : Type}

/-- The counter is as before. -/
def SameCount (s s' : Names σ) : Prop := s'.nrRecursion = s.nrRecursion

instance : Std.Refl (@SameCount σ) := ⟨fun _ => rfl⟩

instance : IsTrans (Names σ) SameCount := ⟨fun _ _ _ h h' => Eq.trans h' h⟩

/-- Computations of which one ends where the other one does, with the counter as before. -/
abbrev Balanced {α : Type} (y x : NameM σ α) : Prop := Call.Within SameCount y x

theorem balanced_of_count {α : Type} {x : NameM σ α}
    (h : ∀ s r s', x s = some (r, s') → s'.nrRecursion = s.nrRecursion) : Balanced x x :=
  fun s r s' hx => ⟨hx, h s r s' hx⟩

variable {L : BlockLayer σ} {dev : DevNo}

/-! ### Blocks -/

theorem balanced_readSector (b : BlockNo) : Balanced (readSector L dev b) (readSector L dev b) := by
  refine balanced_of_count fun s r s' h => ?_
  rw [readSector] at h
  split at h
  · cases h
    rfl
  · cases h
    rfl

theorem balanced_writeSector (b : BlockNo) (data : Sector) :
    Balanced (writeSector L dev b data) (writeSector L dev b data) := by
  refine balanced_of_count fun s r s' h => ?_
  rw [writeSector] at h
  split at h
  · cases h
    rfl
  · cases h
    rfl

theorem balanced_takeBlock (k : MapKind) : Balanced (takeBlock L dev k) (takeBlock L dev k) := by
  refine balanced_of_count fun s r s' h => ?_
  rw [takeBlock] at h
  split at h
  · cases h
    rfl
  · cases h
    rfl

theorem balanced_giveBlock (k : MapKind) (b : BlockNo) :
    Balanced (giveBlock L dev k b) (giveBlock L dev k b) := by
  refine balanced_of_count fun s r s' h => ?_
  rw [giveBlock] at h
  split at h
  · cases h
    rfl
  · cases h
    rfl

/-! ### Lookups -/

variable {root now : BlockNo} {p : Cred} {fuel : ℕ}

theorem balanced_rootInode :
    Balanced (rootInode L dev now root) (rootInode L dev now root) := by
  rw [rootInode]
  refine Call.Within.bind (within_readInode balanced_readSector root) fun n => ?_
  split
  · exact Call.Within.pure n
  · refine Call.Within.bind (balanced_takeBlock .imap) fun b => ?_
    refine Call.Within.bind Call.Within.require fun _ => ?_
    exact Call.Within.bind (balanced_writeSector _ _) fun _ => Call.Within.pure _

/-- **`kreadlink` lowers the counter again**, at the limit and when the link leads somewhere. -/
theorem balanced_kreadlink {get get' : BlockNo → CStr → NameM σ Inode}
    (hget : ∀ b path, Balanced (get' b path) (get b path)) (b : BlockNo) :
    Balanced (kreadlinkStop L dev root fuel get' b) (kreadlink L dev root fuel get b) := by
  intro s r s' h
  rw [kreadlinkStop, Call.modify_bind_apply, Call.get_bind_apply] at h
  rw [kreadlink, Call.modify_bind_apply, Call.get_bind_apply]
  split at h
  · rename_i hlimit
    rw [if_pos hlimit]
    cases h
    exact ⟨rfl, Int32.add_sub_cancel _ _⟩
  · rename_i hlimit
    rw [if_neg hlimit]
    rw [Call.orStop] at h
    split at h
    · rename_i a s₁ hrun
      cases h
      obtain ⟨n, s₂, htarget, hrest⟩ := Call.bind_eq_ok.mp hrun
      obtain ⟨hx, hcount⟩ := within_linkTarget balanced_readSector (le_refl _) hget b _ _ _ htarget
      refine ⟨Call.recover_of_ok (Call.bind_eq_ok.mpr ⟨n, s₂, hx, hrest⟩), ?_⟩
      cases hrest
      show s₂.nrRecursion - 1 = s.nrRecursion
      rw [show s₂.nrRecursion = s.nrRecursion + 1 from hcount]
      exact Int32.add_sub_cancel _ _
    · cases h
    · cases h

/-- **A lookup keeps the counter** if no link on its way fails. -/
theorem balanced_inodeGet (fuel : ℕ) (cwd : BlockNo) (path : CStr) (doReadlink : Bool)
    (mode : InodeMode) :
    Balanced (inodeGetStop L dev p now fuel cwd path doReadlink mode)
      (inodeGet L dev p now fuel cwd path doReadlink mode) := by
  induction fuel generalizing cwd path doReadlink mode with
  | zero => exact Call.Within.loop
  | succ fuel ih =>
      rw [inodeGetStop, inodeGet]
      refine Call.Within.bind Call.Within.get fun s => ?_
      refine Call.Within.bind (within_ofOption _) fun root => ?_
      exact within_getFrom balanced_readSector (le_refl _)
        (balanced_kreadlink fun b path => ih b path true .dontCheckPerms) balanced_rootInode
        cwd path doReadlink mode

/-! ### Creation -/

section Create
variable {fuel : ℕ}

theorem balanced_placeInChain (fuel : ℕ) (current : BlockNo) :
    Balanced (placeInChain L dev fuel current) (placeInChain L dev fuel current) := by
  induction fuel generalizing current with
  | zero => exact Call.Within.loop
  | succ fuel ih =>
      rw [placeInChain]
      refine Call.Within.bind (within_readBmap balanced_readSector current) fun bmap => ?_
      split
      · refine Call.Within.bind (balanced_takeBlock .imap) fun b => ?_
        refine Call.Within.bind (balanced_writeSector _ _) fun _ => ?_
        split
        · exact Call.Within.pure _
        · split
          · exact Call.Within.pure _
          · exact ih _
      · split
        · exact Call.Within.pure _
        · exact ih _

theorem balanced_placeInNewMap {link : BlockNo → NameM σ Unit} (hlink : ∀ b, Balanced (link b) (link b)) :
    Balanced (placeInNewMap L dev link) (placeInNewMap L dev link) := by
  rw [placeInNewMap]
  refine Call.Within.bind (balanced_takeBlock .bmap) fun next => ?_
  refine Call.Within.bind (hlink next) fun _ => ?_
  refine Call.Within.bind (balanced_takeBlock .imap) fun b => ?_
  exact Call.Within.bind (balanced_writeSector _ _) fun _ => Call.Within.pure _

theorem balanced_placeEntry (dir : Inode) :
    Balanced (placeEntry L dev fuel dir) (placeEntry L dev fuel dir) := by
  rw [placeEntry]
  split
  · exact balanced_placeInNewMap fun _ => balanced_writeSector _ _
  · refine Call.Within.bind (balanced_placeInChain fuel _) fun a => ?_
    split
    · exact Call.Within.pure _
    · exact balanced_placeInNewMap fun _ => balanced_writeSector _ _

theorem balanced_writeLink (linkPath : CStr) (n : Inode) :
    Balanced (writeLink L dev linkPath n) (writeLink L dev linkPath n) := by
  rw [writeLink]
  refine Call.Within.bind (balanced_takeBlock .bmap) fun next => ?_
  exact Call.Within.bind (balanced_writeSector _ _) fun _ => balanced_writeSector _ _

theorem balanced_makeNode {get get' : BlockNo → CStr → NameM σ Inode}
    (hget : ∀ b path, Balanced (get' b path) (get b path)) (mode : InodeMode) (linkPath : CStr)
    (n : Inode) : Balanced (makeNode L dev get' mode linkPath n) (makeNode L dev get mode linkPath n) := by
  have hparent : Balanced (readInode L dev n.parent) (readInode L dev n.parent) :=
    within_readInode balanced_readSector n.parent
  cases mode with
  | createFile => exact Call.Within.bind hparent fun _ => balanced_writeSector _ _
  | createDir => exact Call.Within.bind hparent fun _ => balanced_writeSector _ _
  | createSymlink => exact Call.Within.bind hparent fun _ => balanced_writeLink _ _
  | createHardlink =>
      refine Call.Within.bind hparent fun _ => ?_
      refine Call.Within.bind (Call.Within.orFail (hget _ _) _) fun _ => ?_
      refine Call.Within.bind Call.Within.require fun _ => ?_
      refine Call.Within.bind Call.Within.require fun _ => ?_
      refine Call.Within.bind Call.Within.require fun _ => ?_
      exact Call.Within.bind (balanced_writeSector _ _) fun _ => balanced_writeLink _ _
  | _ => exact Call.Within.fail _

theorem balanced_createDirectory {readlink readlink' : BlockNo → NameM σ BlockNo}
    (hl : ∀ b, Balanced (readlink' b) (readlink b)) (name : CStr) (parent : BlockNo) :
    Balanced (createDirectory L dev p readlink' fuel name parent)
      (createDirectory L dev p readlink fuel name parent) := by
  rw [createDirectory, createDirectory]
  refine Call.Within.bind (within_enterDir balanced_readSector hl parent) fun a => ?_
  refine Call.Within.bind Call.Within.require fun _ => ?_
  have hend : ∀ found : Option (BlockNo × Inode), Balanced
      (do
        Call.require (found.isNone = true) .fail
        let dir ← readInode L dev a.1
        pure (a.1, dir) : NameM σ (BlockNo × Inode))
      (do
        Call.require (found.isNone = true) .fail
        let dir ← readInode L dev a.1
        pure (a.1, dir) : NameM σ (BlockNo × Inode)) := by
    intro found
    refine Call.Within.bind Call.Within.require fun _ => ?_
    exact Call.Within.bind (within_readInode balanced_readSector _) fun _ => Call.Within.pure _
  split
  · exact hend none
  · exact Call.Within.bind (within_scanChain balanced_readSector (le_refl _) name _) hend

theorem balanced_createAt {readlink readlink' : BlockNo → NameM σ BlockNo}
    {get get' : BlockNo → CStr → NameM σ Inode} (hl : ∀ b, Balanced (readlink' b) (readlink b))
    (hget : ∀ b path, Balanced (get' b path) (get b path)) (path linkPath : CStr) (a : NewNode) :
    Balanced (createAt L dev p now root readlink' get' fuel path linkPath a)
      (createAt L dev p now root readlink get fuel path linkPath a) := by
  rw [createAt, createAt]
  refine Call.Within.bind balanced_rootInode fun n => ?_
  split
  · exact Call.Within.pure _
  · exact Call.Within.pure _
  · refine Call.Within.bind (within_walk balanced_readSector (le_refl _) hl _ _) fun b => ?_
    refine Call.Within.bind (balanced_createDirectory hl _ b) fun d => ?_
    refine Call.Within.bind (balanced_placeEntry _) fun block => ?_
    exact balanced_makeNode hget _ _ _

theorem balanced_createFrom {readlink readlink' : BlockNo → NameM σ BlockNo}
    {get get' : BlockNo → CStr → NameM σ Inode} (hl : ∀ b, Balanced (readlink' b) (readlink b))
    (hget : ∀ b path, Balanced (get' b path) (get b path)) (cwd : BlockNo) (path : CStr)
    (a : NewNode) :
    Balanced (createFrom L dev p now root readlink' get' fuel cwd path a)
      (createFrom L dev p now root readlink get fuel cwd path a) := by
  have hpath : ∀ path : CStr, Balanced (krealpath L dev root fuel cwd path)
      (krealpath L dev root fuel cwd path) := within_krealpath balanced_readSector (le_refl _) cwd
  rw [createFrom, createFrom]
  refine Call.Within.bind Call.Within.require fun _ => ?_
  refine Call.Within.bind Call.Within.require fun _ => ?_
  refine Call.Within.bind Call.Within.require fun _ => ?_
  refine Call.Within.bind (hpath path) fun path => ?_
  split
  · exact Call.Within.bind (hpath _) fun linkPath => balanced_createAt hl hget path linkPath a
  · exact Call.Within.bind (Call.Within.pure _) fun linkPath =>
      balanced_createAt hl hget path linkPath a

/-- **A creation keeps the counter** if no link on its way fails. -/
theorem balanced_inodeCreate (cwd : BlockNo) (path : CStr) (a : NewNode) :
    Balanced (inodeCreateStop L dev p now fuel cwd path a) (inodeCreate L dev p now fuel cwd path a) := by
  rw [inodeCreateStop, inodeCreate_eq]
  refine Call.Within.bind Call.Within.get fun s => ?_
  refine Call.Within.bind (within_ofOption _) fun root => ?_
  refine balanced_createFrom ?_ ?_ cwd path a
  · exact balanced_kreadlink fun b path => balanced_inodeGet fuel b path true .dontCheckPerms
  · exact fun b path => balanced_inodeGet fuel b path false .dontCheckPerms

end Create

/-! ### Removal -/

section Free
variable {fuel : ℕ}

theorem balanced_giveEntries (bmap : BlockMap) (js : List (Fin bmapBlocks)) :
    Balanced (giveEntries L dev bmap js) (giveEntries L dev bmap js) := by
  induction js with
  | nil => exact Call.Within.pure _
  | cons j js ih =>
      rw [giveEntries]
      split
      · exact Call.Within.bind (balanced_giveBlock _ _) fun _ => ih
      · exact ih

theorem balanced_giveChain (fuel : ℕ) (next : BlockNo) :
    Balanced (giveChain L dev fuel next) (giveChain L dev fuel next) := by
  induction fuel generalizing next with
  | zero => exact Call.Within.loop
  | succ fuel ih =>
      rw [giveChain]
      split
      · exact Call.Within.pure _
      · refine Call.Within.bind (within_readBmap balanced_readSector next) fun bmap => ?_
        refine Call.Within.bind (balanced_giveEntries _ _) fun _ => ?_
        exact Call.Within.bind (balanced_giveBlock _ _) fun _ => ih _

theorem balanced_releaseNode {get get' : CStr → NameM σ Inode}
    (hget : ∀ path, Balanced (get' path) (get path)) (n : Inode) :
    Balanced (releaseNode L dev fuel get' n) (releaseNode L dev fuel get n) := by
  rw [releaseNode, releaseNode]
  split
  · exact balanced_giveChain fuel _
  split
  · exact Call.Within.pure _
  split
  · split
    · exact balanced_giveBlock _ _
    · exact Call.Within.pure _
  split
  · split
    · refine Call.Within.bind (within_readLink balanced_readSector _) fun l => ?_
      exact Call.Within.bind (Call.Within.orFail (hget _) _) fun _ => balanced_writeSector _ _
    · exact Call.Within.fail _
  · exact Call.Within.pure _

theorem balanced_fixParent (parent : Inode) (fuel : ℕ) (prev current : BlockNo) :
    Balanced (fixParent L dev parent fuel prev current) (fixParent L dev parent fuel prev current) := by
  induction fuel generalizing prev current with
  | zero => exact Call.Within.loop
  | succ fuel ih =>
      rw [fixParent]
      split
      · exact Call.Within.pure _
      · refine Call.Within.bind (within_readBmap balanced_readSector current) fun bmap => ?_
        split
        · split
          · exact Call.Within.bind (balanced_giveBlock _ _) fun _ => balanced_writeSector _ _
          · refine Call.Within.bind (within_readBmap balanced_readSector prev) fun pnode => ?_
            refine Call.Within.bind (balanced_writeSector _ _) fun _ => ?_
            exact Call.Within.bind (balanced_giveBlock _ _) fun _ => balanced_writeSector _ _
        · exact ih _ _

theorem balanced_findEntry (self : BlockNo) (fuel : ℕ) (current : BlockNo) :
    Balanced (findEntry L dev self fuel current) (findEntry L dev self fuel current) := by
  induction fuel generalizing current with
  | zero => exact Call.Within.loop
  | succ fuel ih =>
      rw [findEntry]
      refine Call.Within.bind (within_readBmap balanced_readSector current) fun bmap => ?_
      split
      · exact Call.Within.pure _
      · split
        · exact Call.Within.fail _
        · exact ih _

theorem balanced_freeFrom {get get' get₂ get₂' : CStr → NameM σ Inode}
    (hget : ∀ path, Balanced (get' path) (get path))
    (hget₂ : ∀ path, Balanced (get₂' path) (get₂ path)) (path : CStr) (newnode : Option Inode) :
    Balanced (freeFrom L dev get' get₂' fuel path newnode)
      (freeFrom L dev get get₂ fuel path newnode) := by
  rw [freeFrom, freeFrom]
  refine Call.Within.bind Call.Within.require fun _ => ?_
  refine Call.Within.bind (hget path) fun n => ?_
  refine Call.Within.bind Call.Within.require fun _ => ?_
  refine Call.Within.bind Call.Within.require fun _ => ?_
  refine Call.Within.bind (within_readInode balanced_readSector _) fun parent => ?_
  refine Call.Within.bind (within_readInode balanced_readSector _) fun _ => ?_
  refine Call.Within.bind (balanced_findEntry _ fuel _) fun a => ?_
  refine Call.Within.bind (balanced_giveBlock _ _) fun _ => ?_
  refine Call.Within.bind (balanced_writeSector _ _) fun _ => ?_
  split
  · exact Call.Within.bind (balanced_fixParent parent fuel _ _) fun _ => Call.Within.pure _
  · refine Call.Within.bind (balanced_releaseNode hget₂ n) fun _ => ?_
    exact Call.Within.bind (balanced_fixParent parent fuel _ _) fun _ => Call.Within.pure _

/-- **A removal keeps the counter** if no link on its way fails. -/
theorem balanced_inodeFree (cwd : BlockNo) (path : CStr) (newnode : Option Inode) :
    Balanced (inodeFreeStop L dev p now fuel cwd path newnode)
      (inodeFree L dev p now fuel cwd path newnode) := by
  rw [inodeFreeStop, inodeFree_eq]
  refine balanced_freeFrom ?_ ?_ path newnode
  · exact fun path => balanced_inodeGet fuel cwd path false .dontCheckPerms
  · exact fun path => balanced_inodeGet fuel cwd path false .rw

end Free

end Counter

/-! ## Runs -/

/-- The top-level path functions, with the identity of the caller, the clock, the number of
rounds and their arguments. -/
inductive PathCall
  | inodeGet (dev : DevNo) (p : Cred) (now : BlockNo) (fuel : ℕ) (cwd : BlockNo) (path : CStr)
      (doReadlink : Bool) (mode : InodeMode)
  | inodeCreate (dev : DevNo) (p : Cred) (now : BlockNo) (fuel : ℕ) (cwd : BlockNo) (path : CStr)
      (a : NewNode)
  | inodeFree (dev : DevNo) (p : Cred) (now : BlockNo) (fuel : ℕ) (cwd : BlockNo) (path : CStr)
      (newnode : Option Inode)

section Runs
variable {σ : Type} (L : BlockLayer σ)

/-- The state after a call that returns, with success or not. -/
def PathCall.run (s : Names σ) : PathCall → Option (Names σ)
  | .inodeGet dev p now fuel cwd path doReadlink mode =>
    (Fs.inodeGet L dev p now fuel cwd path doReadlink mode s).map Prod.snd
  | .inodeCreate dev p now fuel cwd path a =>
    (Fs.inodeCreate L dev p now fuel cwd path a s).map Prod.snd
  | .inodeFree dev p now fuel cwd path newnode =>
    (Fs.inodeFree L dev p now fuel cwd path newnode s).map Prod.snd

/-- No link that the call follows fails to resolve. -/
def PathCall.LinksResolve (s : Names σ) : PathCall → Prop
  | .inodeGet dev p now fuel cwd path doReadlink mode =>
    inodeGetStop L dev p now fuel cwd path doReadlink mode s ≠ none
  | .inodeCreate dev p now fuel cwd path a => inodeCreateStop L dev p now fuel cwd path a s ≠ none
  | .inodeFree dev p now fuel cwd path newnode =>
    inodeFreeStop L dev p now fuel cwd path newnode s ≠ none

/-- The runs, from a system in which no link has been followed. -/
def pathSystem : System (Names σ) PathCall where
  init s := s.nrRecursion = 0
  step c s s' := c.run L s = some s'

variable {L} {s s' : Names σ}

theorem Balanced.count {α : Type} {x y : NameM σ α} (h : Balanced y x) (hy : y s ≠ none)
    (hrun : (x s).map Prod.snd = some s') : s'.nrRecursion = s.nrRecursion := by
  obtain ⟨⟨r, s₁⟩, hs₁⟩ := Option.ne_none_iff_exists'.mp hy
  obtain ⟨hx, hcount⟩ := h s r s₁ hs₁
  rw [hx] at hrun
  cases hrun
  exact hcount

/-- **One call** leaves the counter as it was. -/
theorem PathCall.LinksResolve.count {c : PathCall} (hg : c.LinksResolve L s)
    (h : c.run L s = some s') : s'.nrRecursion = s.nrRecursion := by
  cases c with
  | inodeGet dev p now fuel cwd path doReadlink mode =>
      exact (balanced_inodeGet fuel cwd path doReadlink mode).count hg h
  | inodeCreate dev p now fuel cwd path a => exact (balanced_inodeCreate cwd path a).count hg h
  | inodeFree dev p now fuel cwd path newnode =>
      exact (balanced_inodeFree cwd path newnode).count hg h

/-- **The counter is balanced.** After every call of a run in which no link that is followed
fails to resolve, the counter is 0: a lookup goes as in a fresh system with the same file
system. -/
theorem nrRecursion_balanced
    (h : (pathSystem L).Reach (fun s c => c.LinksResolve L s) s) :
    s.nrRecursion = 0 ∧ ∀ dev p now fuel cwd path doReadlink mode,
      Fs.inodeGet L dev p now fuel cwd path doReadlink mode s =
        Fs.inodeGet L dev p now fuel cwd path doReadlink mode ⟨s.fs, 0⟩ := by
  have hcount : s.nrRecursion = 0 := by
    refine System.Reach.invariant (P := fun s => s.nrRecursion = 0) (fun _ h => h) ?_ h
    intro s c s' hs hg hstep
    rw [hg.count hstep, hs]
  refine ⟨hcount, fun dev p now fuel cwd path doReadlink mode => ?_⟩
  rw [← hcount]

end Runs

/-! ## Runs on a flat volume -/

section Flat
variable {target : CStr} {p : Cred} {now : BlockNo} {mode : InodeMode} {s' : Names Disk}

theorem kreadlink_of_fail {root : BlockNo} {fuel : ℕ} {get : BlockNo → CStr → NameM Disk Inode}
    {b : BlockNo} {fs : FsState Disk} {e : InodeRtvl}
    (h : linkTarget flatStore 0 root fuel get b ⟨fs, 1⟩ = some (.error e, s')) :
    kreadlink flatStore 0 root fuel get b ⟨fs, 0⟩ = some (.ok inodeNull, s') := by
  have hlimit : ¬ maxRecursion < (0 : Int32) + 1 := by decide
  rw [kreadlink, Call.modify_bind_apply, Call.get_bind_apply, if_neg hlimit]
  exact Call.recover_of_error (Call.bind_of_error h)

theorem kreadlinkStop_of_ok {root : BlockNo} {fuel : ℕ} {get : BlockNo → CStr → NameM Disk Inode}
    {b : BlockNo} {fs : FsState Disk} {n : Inode}
    (h : linkTarget flatStore 0 root fuel get b ⟨fs, 1⟩ = some (.ok n, ⟨fs, 1⟩)) :
    kreadlinkStop flatStore 0 root fuel get b ⟨fs, 0⟩ = some (.ok n.self, ⟨fs, 0⟩) := by
  have hlimit : ¬ maxRecursion < (0 : Int32) + 1 := by decide
  rw [kreadlinkStop, Call.modify_bind_apply, Call.get_bind_apply, if_neg hlimit]
  refine Call.orStop_of_ok (Call.bind_eq_ok.mpr ⟨n, ⟨fs, 1⟩, h, ?_⟩)
  have hone : (1 : Int32) - 1 = 0 := by decide
  show some (Except.ok n.self, (⟨fs, 1 - 1⟩ : Names Disk)) = _
  rw [hone]

/-- A link to `/../x`, which is not found, leaves the counter at 1. -/
theorem inodeGet_symVolume_fails :
    inodeGet flatStore 0 p now 2 4100 [slash, 115] true mode
        ⟨symVolume [slash, dot, dot, slash, 120], 0⟩ =
      some (.error .fail, ⟨symVolume [slash, dot, dot, slash, 120], 1⟩) := by
  have hcomp : components (normalize [slash, dot, dot, slash, 120]) = [[120]] := by decide +kernel
  have hmount := symVolume_rootBlock [slash, dot, dot, slash, 120]
  have hname := symVolume_rootName [slash, dot, dot, slash, 120]
  have htarget := fun get => @linkTarget_symVolume [slash, dot, dot, slash, 120] 1
    (.of_all (by decide) (by decide)) rfl 1 get
  have hfrom := fun rl => @getFrom_symVolume [slash, dot, dot, slash, 120] 0 p now 4100 mode 1 (le_refl 1) rl
  generalize symVolume [slash, dot, dot, slash, 120] = fs at *
  have hlone : inodeGet flatStore 0 p now 1 4101 [slash, dot, dot, slash, 120] true .dontCheckPerms
      ⟨fs, 1⟩ = some (.error .fail, ⟨fs, 1⟩) :=
    inodeGet_lone (s := ⟨fs, 1⟩) hmount hname rfl (by decide) hcomp (by decide) true .dontCheckPerms
  have hlink := kreadlink_of_fail ((htarget fun cwd path =>
    inodeGet flatStore 0 p now 1 cwd path true .dontCheckPerms).trans hlone)
  have hroot : (ofOption (some 4100) : NameM Disk BlockNo) ⟨fs, 0⟩ = some (.ok 4100, ⟨fs, 0⟩) := rfl
  rw [inodeGet, Call.get_bind_apply, hmount, Call.bind_of_ok hroot, hfrom, finishGet_symS,
    Call.bind_of_ok hlink, Call.bind_of_error (Call.require_of_neg (by decide))]

/-- A link to the root resolves. -/
theorem inodeGetStop_symVolume :
    inodeGetStop flatStore 0 p now 2 4100 [slash, 115] true .dontCheckPerms
        ⟨symVolume [slash], 0⟩ ≠ none := by
  have hmount := symVolume_rootBlock [slash]
  have hname := symVolume_rootName [slash]
  have htarget := fun get =>
    @linkTarget_symVolume [slash] 1 (.of_all (by decide) (by decide)) rfl 1 get
  have hfrom := fun rl => @getFrom_symVolume [slash] 0 p now 4100 .dontCheckPerms 1 (le_refl 1) rl
  have hself : (inodeAt ((symVolume [slash]).store 0) 4100).self ≠ inodeNull := by
    rw [symVolume_root]
    decide
  generalize symVolume [slash] = fs at *
  have hgrant : ∀ n, inodeCheckPermissions n p .dontCheckPerms := fun n => Or.inl rfl
  have hroot : ∀ nr, (ofOption (some 4100) : NameM Disk BlockNo) ⟨fs, nr⟩ =
      some (.ok 4100, ⟨fs, nr⟩) := fun _ => rfl
  have hinner : inodeGetStop flatStore 0 p now 1 4101 [slash] true .dontCheckPerms ⟨fs, 1⟩ =
      some (.ok (inodeAt (fs.store 0) 4100), ⟨fs, 1⟩) := by
    rw [inodeGetStop, Call.get_bind_apply, hmount, Call.bind_of_ok (hroot 1)]
    exact getFrom_root (s := ⟨fs, 1⟩) hname _ true .dontCheckPerms
  have hlink := kreadlinkStop_of_ok ((htarget fun cwd path =>
    inodeGetStop flatStore 0 p now 1 cwd path true .dontCheckPerms).trans hinner)
  rw [inodeGetStop, Call.get_bind_apply, hmount, Call.bind_of_ok (hroot 0), hfrom, finishGet_symS,
    Call.bind_of_ok hlink, Call.bind_of_ok (Call.require_of_pos hself),
    Call.bind_of_ok (readInode_flat ..), Call.bind_of_ok (Call.require_of_pos (hgrant _))]
  exact Option.some_ne_none _

/-- After a link has been followed. -/
theorem nrRecursion_balanced_symlink :
    ∃ s, (pathSystem flatStore).Reach (fun s c => c.LinksResolve flatStore s) s ∧
      (pathSystem flatStore).step (.inodeGet 0 ⟨0, 0⟩ 0 2 4100 [slash, 115] true .dontCheckPerms)
        ⟨symVolume [slash], 0⟩ s ∧ s.nrRecursion = 0 := by
  have hinit : (pathSystem flatStore).init ⟨symVolume [slash], 0⟩ := rfl
  have hok : (PathCall.inodeGet 0 ⟨0, 0⟩ 0 2 4100 [slash, 115] true .dontCheckPerms).LinksResolve
      flatStore ⟨symVolume [slash], 0⟩ := inodeGetStop_symVolume
  obtain ⟨⟨r, s⟩, hs⟩ := Option.ne_none_iff_exists'.mp (@inodeGetStop_symVolume ⟨0, 0⟩ 0)
  have hrun := (balanced_inodeGet 2 4100 [slash, 115] true .dontCheckPerms _ _ _ hs).1
  have hstep : (pathSystem flatStore).step
      (.inodeGet 0 ⟨0, 0⟩ 0 2 4100 [slash, 115] true .dontCheckPerms) ⟨symVolume [slash], 0⟩ s := by
    show Option.map Prod.snd (inodeGet flatStore 0 ⟨0, 0⟩ 0 2 4100 [slash, 115] true .dontCheckPerms _) = _
    rw [hrun]
    rfl
  have hreach : (pathSystem flatStore).Reach (fun s c => c.LinksResolve flatStore s) s :=
    .step (.init hinit) hok hstep
  exact ⟨s, hreach, hstep, (nrRecursion_balanced hreach).1⟩

/-- **The counter drifts**: a lookup that follows a link which does not resolve leaves it
raised. -/
theorem nrRecursion_drifts :
    ¬ ∀ s : Names Disk, (pathSystem flatStore).Reach (fun _ _ => True) s → s.nrRecursion = 0 := by
  intro hall
  have hstep : (pathSystem flatStore).step
      (.inodeGet 0 ⟨0, 0⟩ 0 2 4100 [slash, 115] true .dontCheckPerms)
      ⟨symVolume [slash, dot, dot, slash, 120], 0⟩ ⟨symVolume [slash, dot, dot, slash, 120], 1⟩ := by
    show Option.map Prod.snd (inodeGet flatStore 0 ⟨0, 0⟩ 0 2 4100 [slash, 115] true .dontCheckPerms _) = _
    rw [inodeGet_symVolume_fails]
    rfl
  have hinit : (pathSystem flatStore).init ⟨symVolume [slash, dot, dot, slash, 120], 0⟩ := rfl
  have hone := hall _ (.step (.init hinit) trivial hstep)
  exact absurd hone (by decide)

end Flat

end OxKernel.Fs
