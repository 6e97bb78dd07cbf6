import OxKernel.Fs.Leaves
import OxKernel.Lib.Trace

/-!
# The directories that a lookup searches

`inode_get` with a log: the copies of the functions of a lookup note every directory just
before its entries are searched, also in the lookups that `kreadlink` makes. A search comes
after the check of the permissions of the directory, and the inode that a lookup returns
has been checked for the mode that was asked for, with one exception: the path of the root
itself leads to an early return.

## Main definitions

* `inodeGetLog`, `searched` — a lookup with its log.
* `RootGranted` — the root grants the mode, if the path is the one of the root.
-/
namespace OxKernel.Fs

open Lib (Call)

/-- A path function that logs the directories it searches. -/
abbrev LogM (σ : Type) := Call InodeRtvl (Names σ × List Inode)

section Log
variable {σ : Type} (L : BlockLayer σ) (dev : DevNo)

/-- `enterDir`. -/
def enterDirLog (readlink : BlockNo → LogM σ BlockNo) (parent : BlockNo) :
    LogM σ (BlockNo × Inode) := do
  let inode ← Call.logged (readInode L dev parent)
  if inode.isDirectory ≠ 0 ∨ inode.isSymlink ≠ 0 then
    if inode.isSymlink ≠ 0 then do
      let block ← readlink inode.self
      Call.logged (Call.require (block ≠ inodeNull) .fail)
      let inode ← Call.logged (readInode L dev block)
      Call.logged (Call.require (inode.isDirectory ≠ 0) .fail)
      pure (inode.self, inode)
    else pure (parent, inode)
  else Call.fail .fail

/-- `stepDir`, which searches the entries of a directory. -/
def stepDirLog (p : Cred) (readlink : BlockNo → LogM σ BlockNo) (fuel : ℕ) (name : CStr)
    (parent : BlockNo) : LogM σ (BlockNo × Inode) := do
  let a ← enterDirLog L dev readlink parent
  Call.logged (Call.require (inodeCheckPermissions a.2 p .rx) .fail)
  Call.logged (Call.require (a.2.next ≠ inodeNull) .fileNotFound)
  Call.note a.2
  match ← Call.logged (scanChain L dev name fuel a.2.next) with
  | some r => pure r
  | none => Call.fail .fileNotFound

/-- `walk`. -/
def walkLog (p : Cred) (readlink : BlockNo → LogM σ BlockNo) (fuel : ℕ) :
    List CStr → BlockNo → LogM σ BlockNo
  | [], parent => pure parent
  | name :: names, parent => do
    let a ← stepDirLog L dev p readlink fuel name parent
    walkLog p readlink fuel names a.1

/-- `linkTarget`. -/
def linkTargetLog (root : BlockNo) (fuel : ℕ) (get : BlockNo → CStr → LogM σ Inode)
    (currentDir : BlockNo) : LogM σ Inode := do
  let inode ← Call.logged (readInode L dev currentDir)
  Call.logged (Call.require (inode.isSymlink ≠ 0 ∨ inode.isHardlink ≠ 0) .fail)
  let link ← Call.logged (readLink L dev inode.next)
  let _ ← Call.logged (krealpath L dev root fuel currentDir (cstr link.path))
  get currentDir (cstr link.path)

/-- `kreadlink`. -/
def kreadlinkLog (root : BlockNo) (fuel : ℕ) (get : BlockNo → CStr → LogM σ Inode)
    (currentDir : BlockNo) : LogM σ BlockNo := do
  Call.logged (Call.modify fun s => { s with nrRecursion := s.nrRecursion + 1 })
  let s ← Call.logged Call.get
  if maxRecursion < s.nrRecursion then do
    Call.logged (Call.modify fun s => { s with nrRecursion := s.nrRecursion - 1 })
    pure inodeNull
  else
    Call.recover (do
      let n ← linkTargetLog L dev root fuel get currentDir
      Call.logged (Call.modify fun s => { s with nrRecursion := s.nrRecursion - 1 })
      pure n.self) inodeNull

/-- `finishGet`. -/
def finishGetLog (p : Cred) (readlink : BlockNo → LogM σ BlockNo) (doReadlink : Bool)
    (mode : InodeMode) (tnode : Inode) : LogM σ Inode := do
  let tnode ←
    if (tnode.isSymlink ≠ 0 ∨ tnode.isHardlink ≠ 0) ∧ doReadlink then do
      let block ← readlink tnode.self
      Call.logged (Call.require (block ≠ inodeNull) .fail)
      Call.logged (readInode L dev block)
    else pure tnode
  Call.logged (Call.require (inodeCheckPermissions tnode p mode) .fail)
  pure tnode

/-- `getFrom`. -/
def getFromLog (p : Cred) (now root : BlockNo) (readlink : BlockNo → LogM σ BlockNo) (fuel : ℕ)
    (currentDir : BlockNo) (path : CStr) (doReadlink : Bool) (mode : InodeMode) :
    LogM σ Inode := do
  Call.logged (Call.require (path.length ≤ maxPath) .fail)
  let path ← Call.logged (krealpath L dev root fuel currentDir path)
  let inode ← Call.logged (rootInode L dev now root)
  match components path with
  | [] => Call.fail .fail
  | [c] => if c = [] then pure inode else Call.fail .fail
  | _ :: name :: names => do
    let parent ← walkLog L dev p readlink fuel (name :: names).dropLast inode.self
    let a ← stepDirLog L dev p readlink fuel ((name :: names).getLast (List.cons_ne_nil _ _)) parent
    finishGetLog L dev p readlink doReadlink mode a.2

/-- `inode_get`. -/
def inodeGetLog (p : Cred) (now : BlockNo) :
    ℕ → BlockNo → CStr → Bool → InodeMode → LogM σ Inode
  | 0, _, _, _, _ => Call.loop
  | fuel + 1, currentDir, path, doReadlink, mode => do
    let s ← Call.logged Call.get
    let root ← Call.logged (ofOption (rootBlock dev s.fs))
    let readlink := kreadlinkLog L dev root fuel fun currentDir path =>
      inodeGetLog p now fuel currentDir path true .dontCheckPerms
    getFromLog L dev p now root readlink fuel currentDir path doReadlink mode

/-- The directories whose entries a call of `inode_get` searches. -/
def searched (p : Cred) (now : BlockNo) (fuel : ℕ) (currentDir : BlockNo) (path : CStr)
    (doReadlink : Bool) (mode : InodeMode) (s : Names σ) : List Inode :=
  match inodeGetLog L dev p now fuel currentDir path doReadlink mode (s, []) with
  | some (_, _, dirs) => dirs
  | none => []

end Log

/-! ## The log of a lookup -/

section Traces
variable {σ : Type} {L : BlockLayer σ} {dev : DevNo} {p : Cred} {now root : BlockNo} {fuel : ℕ}

/-- A copy of a path function, all of whose directories may be searched by the process. -/
abbrev Logs {α : Type} (p : Cred) (y : LogM σ α) (x : NameM σ α) : Prop :=
  Call.Traces (fun n => inodeCheckPermissions n p .rx) y x

theorem logs_linkTarget {get : BlockNo → CStr → NameM σ Inode} {get' : BlockNo → CStr → LogM σ Inode}
    (hget : ∀ b path, Logs p (get' b path) (get b path)) (b : BlockNo) :
    Logs p (linkTargetLog L dev root fuel get' b) (linkTarget L dev root fuel get b) := by
  rw [linkTarget, linkTargetLog]
  refine Call.Traces.bind (Call.Traces.logged _) fun n => ?_
  refine Call.Traces.bind (Call.Traces.logged _) fun _ => ?_
  refine Call.Traces.bind (Call.Traces.logged _) fun l => ?_
  exact Call.Traces.bind (Call.Traces.logged _) fun _ => hget b _

theorem logs_kreadlink {get : BlockNo → CStr → NameM σ Inode} {get' : BlockNo → CStr → LogM σ Inode}
    (hget : ∀ b path, Logs p (get' b path) (get b path)) (b : BlockNo) :
    Logs p (kreadlinkLog L dev root fuel get' b) (kreadlink L dev root fuel get b) := by
  rw [kreadlink, kreadlinkLog]
  refine Call.Traces.bind (Call.Traces.logged _) fun _ => ?_
  refine Call.Traces.bind (Call.Traces.logged _) fun s => ?_
  split
  · exact Call.Traces.bind (Call.Traces.logged _) fun _ => Call.Traces.pure _
  · refine Call.Traces.recover ?_ _
    refine Call.Traces.bind (logs_linkTarget hget b) fun n => ?_
    exact Call.Traces.bind (Call.Traces.logged _) fun _ => Call.Traces.pure _

section Links
variable {readlink : BlockNo → NameM σ BlockNo} {readlink' : BlockNo → LogM σ BlockNo}
  (hl : ∀ b, Logs p (readlink' b) (readlink b))
include hl

theorem logs_enterDir (b : BlockNo) :
    Logs p (enterDirLog L dev readlink' b) (enterDir L dev readlink b) := by
  rw [enterDir, enterDirLog]
  refine Call.Traces.bind (Call.Traces.logged _) fun n => ?_
  split
  · split
    · refine Call.Traces.bind (hl _) fun a => ?_
      refine Call.Traces.bind (Call.Traces.logged _) fun _ => ?_
      refine Call.Traces.bind (Call.Traces.logged _) fun m => ?_
      exact Call.Traces.bind (Call.Traces.logged _) fun _ => Call.Traces.pure _
    · exact Call.Traces.pure _
  · exact Call.Traces.fail _

/-- **A directory is checked before it is searched.** -/
theorem logs_stepDir (name : CStr) (b : BlockNo) :
    Logs p (stepDirLog L dev p readlink' fuel name b) (stepDir L dev p readlink fuel name b) := by
  rw [stepDir, stepDirLog]
  refine Call.Traces.bind (logs_enterDir hl b) fun a => ?_
  refine Call.Traces.require_bind fun hrx => ?_
  refine Call.Traces.bind (Call.Traces.logged _) fun _ => ?_
  refine Call.Traces.note_bind hrx ?_
  refine Call.Traces.bind (Call.Traces.logged _) fun o => ?_
  split
  · exact Call.Traces.pure _
  · exact Call.Traces.fail _

theorem logs_walk (names : List CStr) (b : BlockNo) :
    Logs p (walkLog L dev p readlink' fuel names b) (walk L dev p readlink fuel names b) := by
  induction names generalizing b with
  | nil => exact Call.Traces.pure b
  | cons name names ih =>
      rw [walk, walkLog]
      exact Call.Traces.bind (logs_stepDir hl name b) fun a => ih a.1

theorem logs_finishGet (doReadlink : Bool) (mode : InodeMode) (n : Inode) :
    Logs p (finishGetLog L dev p readlink' doReadlink mode n)
      (finishGet L dev p readlink doReadlink mode n) := by
  have hend : ∀ n : Inode, Logs p
      (do
        Call.logged (Call.require (inodeCheckPermissions n p mode) .fail)
        pure n : LogM σ Inode)
      (do
        Call.require (inodeCheckPermissions n p mode) .fail
        pure n : NameM σ Inode) :=
    fun n => Call.Traces.bind (Call.Traces.logged _) fun _ => Call.Traces.pure _
  rw [finishGet, finishGetLog]
  split
  · refine Call.Traces.bind (hl _) fun a => ?_
    refine Call.Traces.bind (Call.Traces.logged _) fun _ => ?_
    exact Call.Traces.bind (Call.Traces.logged _) hend
  · exact hend n

theorem logs_getFrom (cwd : BlockNo) (path : CStr) (doReadlink : Bool) (mode : InodeMode) :
    Logs p (getFromLog L dev p now root readlink' fuel cwd path doReadlink mode)
      (getFrom L dev p now root readlink fuel cwd path doReadlink mode) := by
  rw [getFrom, getFromLog]
  refine Call.Traces.bind (Call.Traces.logged _) fun _ => ?_
  refine Call.Traces.bind (Call.Traces.logged _) fun path => ?_
  refine Call.Traces.bind (Call.Traces.logged _) fun n => ?_
  rcases components path with _ | ⟨c, _ | ⟨name, names⟩⟩
  · exact Call.Traces.fail _
  · dsimp only
    split
    · exact Call.Traces.pure _
    · exact Call.Traces.fail _
  · refine Call.Traces.bind (logs_walk hl _ _) fun b => ?_
    refine Call.Traces.bind (logs_stepDir hl _ b) fun a => ?_
    exact logs_finishGet hl doReadlink mode a.2

end Links

/-- **The log of a lookup**: the copy does what `inode_get` does, and the process may search
every directory in the log. -/
theorem logs_inodeGet (fuel : ℕ) (cwd : BlockNo) (path : CStr) (doReadlink : Bool)
    (mode : InodeMode) :
    Logs p (inodeGetLog L dev p now fuel cwd path doReadlink mode)
      (inodeGet L dev p now fuel cwd path doReadlink mode) := by
  induction fuel generalizing cwd path doReadlink mode with
  | zero => exact Call.Traces.loop
  | succ fuel ih =>
      rw [inodeGet, inodeGetLog]
      refine Call.Traces.bind (Call.Traces.logged _) fun s => ?_
      refine Call.Traces.bind (Call.Traces.logged _) fun root => ?_
      exact logs_getFrom (logs_kreadlink fun b path => ih b path true .dontCheckPerms)
        cwd path doReadlink mode

/-- Every directory that a lookup searches grants the search. -/
theorem searched_granted (cwd : BlockNo) (path : CStr) (doReadlink : Bool) (mode : InodeMode)
    (s : Names σ) : ∀ n ∈ searched L dev p now fuel cwd path doReadlink mode s,
      inodeCheckPermissions n p .rx := by
  have hlogs : Logs p (inodeGetLog L dev p now fuel cwd path doReadlink mode)
      (inodeGet L dev p now fuel cwd path doReadlink mode) :=
    logs_inodeGet fuel cwd path doReadlink mode
  obtain ⟨hnone, hsome⟩ := hlogs s []
  intro n hn
  rw [searched] at hn
  rcases hx : inodeGet L dev p now fuel cwd path doReadlink mode s with _ | ⟨r, s'⟩
  · rw [hnone hx] at hn
    cases hn
  · obtain ⟨l, hy, hP⟩ := hsome r s' hx
    rw [hy] at hn
    exact hP n hn

end Traces

/-! ## The inode that is returned -/

section Granted
variable {σ : Type} {L : BlockLayer σ} {dev : DevNo} {p : Cred} {now root cwd : BlockNo} {fuel : ℕ}
  {path : CStr} {doReadlink : Bool} {mode : InodeMode} {s s' : Names σ} {n : Inode}

theorem finishGet_granted {readlink : BlockNo → NameM σ BlockNo} {tnode : Inode}
    (h : finishGet L dev p readlink doReadlink mode tnode s = some (.ok n, s')) :
    inodeCheckPermissions n p mode := by
  have hend : ∀ (m : Inode) (s₁ : Names σ),
      (do
        Call.require (inodeCheckPermissions m p mode) .fail
        pure m : NameM σ Inode) s₁ = some (.ok n, s') → inodeCheckPermissions n p mode := by
    intro m s₁ hrun
    obtain ⟨hcheck, hrun⟩ := Call.require_bind_eq_ok.mp hrun
    cases hrun
    exact hcheck
  rw [finishGet] at h
  split at h
  · obtain ⟨a, s₁, _, h⟩ := Call.bind_eq_ok.mp h
    obtain ⟨_, h⟩ := Call.require_bind_eq_ok.mp h
    obtain ⟨m, s₂, _, h⟩ := Call.bind_eq_ok.mp h
    exact hend m s₂ h
  · exact hend tnode s h

/-- If the path is the one of the root, the inode of the root grants the mode. -/
def RootGranted (L : BlockLayer σ) (dev : DevNo) (p : Cred) (now : BlockNo) (fuel : ℕ)
    (cwd : BlockNo) (path : CStr) (mode : InodeMode) (s : Names σ) : Prop :=
  ∀ root abs s₁ n s₂, path.length ≤ maxPath → rootBlock dev s.fs = some root →
    krealpath L dev root fuel cwd path s = some (.ok abs, s₁) → components abs = [[]] →
    rootInode L dev now root s₁ = some (.ok n, s₂) → inodeCheckPermissions n p mode

theorem getFrom_granted {readlink : BlockNo → NameM σ BlockNo}
    (hmount : rootBlock dev s.fs = some root)
    (hroot : RootGranted L dev p now fuel cwd path mode s)
    (h : getFrom L dev p now root readlink fuel cwd path doReadlink mode s = some (.ok n, s')) :
    inodeCheckPermissions n p mode := by
  rw [getFrom] at h
  obtain ⟨hlen, h⟩ := Call.require_bind_eq_ok.mp h
  obtain ⟨abs, s₁, habs, h⟩ := Call.bind_eq_ok.mp h
  obtain ⟨inode, s₂, hinode, h⟩ := Call.bind_eq_ok.mp h
  rcases hcomp : components abs with _ | ⟨c, _ | ⟨name, names⟩⟩
  · rw [hcomp] at h
    cases h
  · rw [hcomp] at h
    dsimp only at h
    split at h
    · rename_i hc
      subst hc
      cases h
      exact hroot root abs s₁ n s' hlen hmount habs hcomp hinode
    · cases h
  · rw [hcomp] at h
    obtain ⟨b, s₃, _, h⟩ := Call.bind_eq_ok.mp h
    obtain ⟨a, s₄, _, h⟩ := Call.bind_eq_ok.mp h
    exact finishGet_granted h

/-- **Permission soundness of a lookup.** The copy that notes what it searches does what the lookup
does; and a lookup that succeeds has searched only directories that grant it, and returns an
inode that grants the mode, just when the root grants the mode in case the path is the one of
the root. -/
theorem inodeGet_granted_iff :
    (inodeGetLog L dev p now (fuel + 1) cwd path doReadlink mode (s, [])).map
        (fun a => (a.1, a.2.1)) =
      inodeGet L dev p now (fuel + 1) cwd path doReadlink mode s ∧
    ((∀ n s', inodeGet L dev p now (fuel + 1) cwd path doReadlink mode s = some (.ok n, s') →
      (∀ d ∈ searched L dev p now (fuel + 1) cwd path doReadlink mode s,
        inodeCheckPermissions d p .rx) ∧ inodeCheckPermissions n p mode) ↔
    RootGranted L dev p now fuel cwd path mode s) := by
  refine ⟨(logs_inodeGet (fuel + 1) cwd path doReadlink mode).forget s [], ?_⟩
  have hmounted : ∀ root : BlockNo,
      (ofOption (some root) : NameM σ BlockNo) s = some (.ok root, s) := fun _ => rfl
  constructor
  · intro h root abs s₁ n s₂ hlen hmount habs hcomp hinode
    refine (h n s₂ ?_).2
    rw [inodeGet, Call.get_bind_apply, hmount, Call.bind_of_ok (hmounted root), getFrom,
      Call.bind_of_ok (Call.require_of_pos hlen), Call.bind_of_ok habs, Call.bind_of_ok hinode, hcomp]
    rfl
  · intro hroot n s' h
    refine ⟨searched_granted cwd path doReadlink mode s, ?_⟩
    rw [inodeGet, Call.get_bind_apply] at h
    obtain ⟨root, s₁, hmount, h⟩ := Call.bind_eq_ok.mp h
    cases hopt : rootBlock dev s.fs with
    | none =>
        rw [hopt] at hmount
        cases hmount
    | some root' =>
        rw [hopt] at hmount
        cases hmount
        exact getFrom_granted hopt hroot h

end Granted

/-! ## A private root -/

/-- A root directory that only its owner may use. -/
def privateRoot : Inode := inodeSetPermissions (Inode.zero.asRoot 0 0 4100) 448 0

/-- A volume with such a root. -/
def privateVolume : FsState Disk := emptyVolume.write 0 4100 (Inode.layout privateRoot)

theorem rootBlock_write (fs : FsState Disk) (dev : DevNo) (b : BlockNo) (data : Sector) :
    rootBlock dev (fs.write dev b data) = rootBlock dev fs := rfl

/-- Another process gets the root inode for reading, although the root does not grant it. -/
theorem inodeGet_root_unchecked :
    ∃ s s' : Names Disk, ∃ n,
      inodeGet flatStore 0 ⟨1, 1⟩ 0 1 4100 [slash] true .read s = some (.ok n, s') ∧
        ¬ inodeCheckPermissions n ⟨1, 1⟩ .read := by
  have hnode : inodeAt (privateVolume.store 0) 4100 = privateRoot := by
    rw [privateVolume, FsState.write_store, inodeAt, Function.update_self, Equiv.symm_apply_apply]
  have hname : (inodeAt (privateVolume.store 0) 4100).name = [slash] := by
    rw [hnode]
    exact cstr_strcpy (.of_all (by decide) (by decide))
  have hmount : rootBlock 0 privateVolume = some 4100 := by
    rw [privateVolume, rootBlock_write]
    exact emptyVolume_rootBlock
  refine ⟨⟨privateVolume, 0⟩, ⟨privateVolume, 0⟩, privateRoot, ?_, by decide⟩
  rw [← hnode]
  exact inodeGet_root (s := ⟨privateVolume, 0⟩) hmount hname true .read

end OxKernel.Fs
