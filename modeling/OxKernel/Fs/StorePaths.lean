import OxKernel.Fs.LinkCount
import OxKernel.Fs.Stores

/-!
# Path functions over two stores

A lookup, a creation and a removal over one store have the results they have over another
one that answers alike, and so has a run of them: its replies are the same, and its states
differ in the stores only. The functions take the same number of rounds over both.

## Main definitions

* `Names.Alike` — states that differ in the stores only.
* `PathTracks` — path functions with the same results over two stores.
* `PathCall.reply`, `pathRun` — the reply of a call, and the replies of a run.
-/
namespace OxKernel.Fs

open Lib (Call Tracked)

variable {σ τ α : Type}

/-- The tables and the counter with another store below. -/
def Names.over (s : Names σ) (st : τ) : Names τ := ⟨s.fs.over st, s.nrRecursion⟩

/-- Two states with the same tables and counter over related stores. -/
def Names.Alike (S : σ → τ → Prop) (s : Names σ) (t : Names τ) : Prop :=
  ∃ st, t = s.over st ∧ S s.fs.store st

/-- Path functions of which one does over its store what the other one does over its own. -/
abbrev PathTracks (good : σ → Prop) (S : σ → τ → Prop) (x : NameM σ α) (y : NameM τ α) : Prop :=
  Call.Tracks (fun s => good s.fs.store) (Names.Alike S) x y

variable {good : σ → Prop} {S : σ → τ → Prop}

theorem Names.tracked {s s' : Names σ} {P : τ → τ → Prop} {Q : Names τ → Names τ → Prop}
    (h : Tracked good S s.fs.store s'.fs.store P)
    (hQ : ∀ st st', P st st' → Q (s.over st) (s'.over st')) :
    Tracked (fun s => good s.fs.store) (Names.Alike S) s s' Q := by
  intro hgood
  obtain ⟨hs, hsim⟩ := h hgood
  refine ⟨hs, ?_⟩
  rintro t ⟨st, rfl, hst⟩
  obtain ⟨st', hP, hst'⟩ := hsim st hst
  exact ⟨s'.over st', hQ st st' hP, st', rfl, hst'⟩

section Blocks
variable {L : BlockLayer σ} {L' : BlockLayer τ} (hL : L.Tracks good S L') {dev : DevNo}
include hL

theorem tracks_readSector (b : BlockNo) :
    PathTracks good S (readSector L dev b) (readSector L' dev b) := by
  intro s r s' h
  have hread := hL.read dev b Sector.zero s.fs.store
  rw [readSector] at h
  rcases hr : L.blockRead dev b Sector.zero s.fs.store with ⟨r', data, st₁⟩
  rw [hr] at h hread
  cases r' with
  | _ =>
      cases h
      refine Names.tracked hread fun st st' h => ?_
      have h' : L'.blockRead dev b Sector.zero (s.over st).fs.store = _ := h
      rw [readSector, h']
      rfl

theorem tracks_writeSector (b : BlockNo) (data : Sector) :
    PathTracks good S (writeSector L dev b data) (writeSector L' dev b data) := by
  intro s r s' h
  have hwrite := hL.write dev b data s.fs.store
  rw [writeSector] at h
  rcases hr : L.blockWrite dev b data s.fs.store with ⟨r', st₁⟩
  rw [hr] at h hwrite
  cases r' with
  | _ =>
      cases h
      refine Names.tracked hwrite fun st st' h => ?_
      have h' : L'.blockWrite dev b data (s.over st).fs.store = _ := h
      rw [writeSector, h']
      rfl

theorem tracks_takeBlock (k : MapKind) :
    PathTracks good S (takeBlock L dev k) (takeBlock L' dev k) := by
  intro s r s' h
  have hget := tracked_getBlock hL k dev 0 s.fs
  rw [takeBlock] at h
  rcases hr : getBlock L k dev 0 s.fs with ⟨r', b, fs₁⟩
  rw [hr] at h hget
  cases r' with
  | _ =>
      cases h
      refine Names.tracked hget fun st st' h => ?_
      have h' : getBlock L' k dev 0 (s.over st).fs = _ := h
      rw [takeBlock, h']
      rfl

theorem tracks_giveBlock (k : MapKind) (b : BlockNo) :
    PathTracks good S (giveBlock L dev k b) (giveBlock L' dev k b) := by
  intro s r s' h
  have hfree := tracked_freeBlock hL k dev b s.fs
  rw [giveBlock] at h
  rcases hr : freeBlock L k dev b s.fs with ⟨r', fs₁⟩
  rw [hr] at h hfree
  cases r' with
  | _ =>
      cases h
      refine Names.tracked hfree fun st st' h => ?_
      have h' : freeBlock L' k dev b (s.over st).fs = _ := h
      rw [giveBlock, h']
      rfl

/-! ## Lookups -/

theorem tracks_readInode (b : BlockNo) :
    PathTracks good S (readInode L dev b) (readInode L' dev b) :=
  Call.Tracks.bind (tracks_readSector hL b) fun _ => Call.Tracks.pure _

theorem tracks_readBmap (b : BlockNo) : PathTracks good S (readBmap L dev b) (readBmap L' dev b) :=
  Call.Tracks.bind (tracks_readSector hL b) fun _ => Call.Tracks.pure _

theorem tracks_readLink (b : BlockNo) : PathTracks good S (readLink L dev b) (readLink L' dev b) :=
  Call.Tracks.bind (tracks_readSector hL b) fun _ => Call.Tracks.pure _

omit hL in
theorem tracks_ofOption (o : Option α) :
    PathTracks good S (ofOption o : NameM σ α) (ofOption o) := by
  cases o with
  | none => exact Call.Tracks.fail _
  | some a => exact Call.Tracks.pure a

variable {root now : BlockNo} {p : Cred} {fuel : ℕ}

theorem tracks_cwdPath (fuel : ℕ) (dir : BlockNo) (tmp : CStr) :
    PathTracks good S (cwdPath L dev root fuel dir tmp) (cwdPath L' dev root fuel dir tmp) := by
  induction fuel generalizing dir tmp with
  | zero => exact Call.Tracks.loop
  | succ fuel ih =>
      rw [cwdPath, cwdPath]
      split
      · exact Call.Tracks.pure tmp
      · refine Call.Tracks.bind (tracks_readInode hL dir) fun n => ?_
        refine Call.Tracks.bind (tracks_ofOption _) fun _ => ?_
        exact Call.Tracks.bind (tracks_ofOption _) fun _ => ih _ _

theorem tracks_krealpath (dir : BlockNo) (path : CStr) :
    PathTracks good S (krealpath L dev root fuel dir path) (krealpath L' dev root fuel dir path) := by
  have hend : ∀ front : CStr, PathTracks good S
      (do
        Call.require (front.length + path.length ≤ maxPath) .fail
        pure (normalize (front ++ path)) : NameM σ CStr)
      (do
        Call.require (front.length + path.length ≤ maxPath) .fail
        pure (normalize (front ++ path)) : NameM τ CStr) :=
    fun front => Call.Tracks.bind Call.Tracks.require fun _ => Call.Tracks.pure _
  rw [krealpath, krealpath]
  split
  · exact hend []
  · refine Call.Tracks.bind (tracks_cwdPath hL fuel dir []) fun _ => ?_
    refine Call.Tracks.bind Call.Tracks.require fun _ => ?_
    exact Call.Tracks.bind (tracks_ofOption _) hend

theorem tracks_scanEntries (name : CStr) (bmap : BlockMap) (js : List (Fin bmapBlocks)) :
    PathTracks good S (scanEntries L dev name bmap js) (scanEntries L' dev name bmap js) := by
  induction js with
  | nil => exact Call.Tracks.pure none
  | cons j js ih =>
      rw [scanEntries, scanEntries]
      split
      · exact ih
      · refine Call.Tracks.bind (tracks_readInode hL _) fun n => ?_
        split
        · exact Call.Tracks.pure _
        · exact ih

theorem tracks_scanChain (name : CStr) (fuel : ℕ) (next : BlockNo) :
    PathTracks good S (scanChain L dev name fuel next) (scanChain L' dev name fuel next) := by
  induction fuel generalizing next with
  | zero => exact Call.Tracks.loop
  | succ fuel ih =>
      rw [scanChain, scanChain]
      refine Call.Tracks.bind (tracks_readBmap hL next) fun bmap => ?_
      refine Call.Tracks.bind (tracks_scanEntries hL _ _ _) fun o => ?_
      split
      · exact Call.Tracks.pure _
      · split
        · exact Call.Tracks.pure _
        · exact ih _

theorem tracks_rootInode :
    PathTracks good S (rootInode L dev now root) (rootInode L' dev now root) := by
  rw [rootInode, rootInode]
  refine Call.Tracks.bind (tracks_readInode hL root) fun n => ?_
  split
  · exact Call.Tracks.pure n
  · refine Call.Tracks.bind (tracks_takeBlock hL .imap) fun b => ?_
    refine Call.Tracks.bind Call.Tracks.require fun _ => ?_
    exact Call.Tracks.bind (tracks_writeSector hL _ _) fun _ => Call.Tracks.pure _

theorem tracks_linkTarget {get : BlockNo → CStr → NameM σ Inode}
    {get' : BlockNo → CStr → NameM τ Inode}
    (hget : ∀ b path, PathTracks good S (get b path) (get' b path)) (b : BlockNo) :
    PathTracks good S (linkTarget L dev root fuel get b) (linkTarget L' dev root fuel get' b) := by
  rw [linkTarget, linkTarget]
  refine Call.Tracks.bind (tracks_readInode hL b) fun n => ?_
  refine Call.Tracks.bind Call.Tracks.require fun _ => ?_
  refine Call.Tracks.bind (tracks_readLink hL _) fun l => ?_
  exact Call.Tracks.bind (tracks_krealpath hL b _) fun _ => hget b _

omit hL in
/-- The counter does not depend on the store. -/
theorem tracks_count (f : Int32 → Int32) :
    PathTracks good S
      (Call.modify fun s : Names σ => { s with nrRecursion := f s.nrRecursion } : NameM σ Unit)
      (Call.modify fun s => { s with nrRecursion := f s.nrRecursion }) := by
  refine Call.Tracks.modify (fun _ h => h) ?_
  rintro s t ⟨st, rfl, hst⟩
  exact ⟨st, rfl, hst⟩

omit hL in
theorem tracks_limit {x y : NameM σ α} {x' y' : NameM τ α} (hx : PathTracks good S x x')
    (hy : PathTracks good S y y') :
    PathTracks good S (Call.get >>= fun s => if maxRecursion < s.nrRecursion then x else y)
      (Call.get >>= fun t => if maxRecursion < t.nrRecursion then x' else y') := by
  refine Call.Tracks.get_bind (p := Names.nrRecursion) (q := Names.nrRecursion)
    (f := fun c => if maxRecursion < c then x else y)
    (g := fun c => if maxRecursion < c then x' else y') ?_ fun c => ?_
  · rintro s t ⟨st, rfl, -⟩
    rfl
  · split
    · exact hx
    · exact hy

omit hL in
/-- The root does not depend on the store. -/
theorem tracks_root {f : BlockNo → NameM σ α} {g : BlockNo → NameM τ α}
    (h : ∀ root, PathTracks good S (f root) (g root)) :
    PathTracks good S (Call.get >>= fun s => ofOption (rootBlock dev s.fs) >>= f)
      (Call.get >>= fun t => ofOption (rootBlock dev t.fs) >>= g) := by
  refine Call.Tracks.get_bind (p := fun s : Names σ => rootBlock dev s.fs)
    (q := fun t : Names τ => rootBlock dev t.fs) (f := fun r => ofOption r >>= f)
    (g := fun r => ofOption r >>= g) ?_ fun r => Call.Tracks.bind (tracks_ofOption r) h
  rintro s t ⟨st, rfl, -⟩
  rfl

theorem tracks_kreadlink {get : BlockNo → CStr → NameM σ Inode}
    {get' : BlockNo → CStr → NameM τ Inode}
    (hget : ∀ b path, PathTracks good S (get b path) (get' b path)) (b : BlockNo) :
    PathTracks good S (kreadlink L dev root fuel get b) (kreadlink L' dev root fuel get' b) := by
  rw [kreadlink, kreadlink]
  refine Call.Tracks.bind (tracks_count (· + 1)) fun _ => tracks_limit ?_ ?_
  · exact Call.Tracks.bind (tracks_count (· - 1)) fun _ => Call.Tracks.pure _
  · refine Call.Tracks.recover ?_ _
    refine Call.Tracks.bind (tracks_linkTarget hL hget b) fun n => ?_
    exact Call.Tracks.bind (tracks_count (· - 1)) fun _ => Call.Tracks.pure _

section Links
variable {readlink : BlockNo → NameM σ BlockNo} {readlink' : BlockNo → NameM τ BlockNo}
  (hl : ∀ b, PathTracks good S (readlink b) (readlink' b))
include hl

theorem tracks_enterDir (b : BlockNo) :
    PathTracks good S (enterDir L dev readlink b) (enterDir L' dev readlink' b) := by
  rw [enterDir, enterDir]
  refine Call.Tracks.bind (tracks_readInode hL b) fun n => ?_
  split
  · split
    · refine Call.Tracks.bind (hl _) fun a => ?_
      refine Call.Tracks.bind Call.Tracks.require fun _ => ?_
      refine Call.Tracks.bind (tracks_readInode hL a) fun m => ?_
      exact Call.Tracks.bind Call.Tracks.require fun _ => Call.Tracks.pure _
    · exact Call.Tracks.pure _
  · exact Call.Tracks.fail _

theorem tracks_stepDir (name : CStr) (b : BlockNo) :
    PathTracks good S (stepDir L dev p readlink fuel name b)
      (stepDir L' dev p readlink' fuel name b) := by
  rw [stepDir, stepDir]
  refine Call.Tracks.bind (tracks_enterDir hL hl b) fun a => ?_
  refine Call.Tracks.bind Call.Tracks.require fun _ => ?_
  refine Call.Tracks.bind Call.Tracks.require fun _ => ?_
  refine Call.Tracks.bind (tracks_scanChain hL name fuel _) fun o => ?_
  split
  · exact Call.Tracks.pure _
  · exact Call.Tracks.fail _

theorem tracks_walk (names : List CStr) (b : BlockNo) :
    PathTracks good S (walk L dev p readlink fuel names b)
      (walk L' dev p readlink' fuel names b) := by
  induction names generalizing b with
  | nil => exact Call.Tracks.pure b
  | cons name names ih =>
      rw [walk, walk]
      exact Call.Tracks.bind (tracks_stepDir hL hl name b) fun a => ih a.1

theorem tracks_finishGet (doReadlink : Bool) (mode : InodeMode) (n : Inode) :
    PathTracks good S (finishGet L dev p readlink doReadlink mode n)
      (finishGet L' dev p readlink' doReadlink mode n) := by
  have hend : ∀ n : Inode, PathTracks good S
      (do
        Call.require (inodeCheckPermissions n p mode) .fail
        pure n : NameM σ Inode)
      (do
        Call.require (inodeCheckPermissions n p mode) .fail
        pure n : NameM τ Inode) :=
    fun n => Call.Tracks.bind Call.Tracks.require fun _ => Call.Tracks.pure _
  rw [finishGet, finishGet]
  split
  · refine Call.Tracks.bind (hl _) fun a => ?_
    refine Call.Tracks.bind Call.Tracks.require fun _ => ?_
    exact Call.Tracks.bind (tracks_readInode hL a) hend
  · exact hend n

theorem tracks_getFrom (cwd : BlockNo) (path : CStr) (doReadlink : Bool) (mode : InodeMode) :
    PathTracks good S (getFrom L dev p now root readlink fuel cwd path doReadlink mode)
      (getFrom L' dev p now root readlink' fuel cwd path doReadlink mode) := by
  rw [getFrom, getFrom]
  refine Call.Tracks.bind Call.Tracks.require fun _ => ?_
  refine Call.Tracks.bind (tracks_krealpath hL cwd path) fun path => ?_
  refine Call.Tracks.bind (tracks_rootInode hL) fun n => ?_
  split
  · exact Call.Tracks.fail _
  · split
    · exact Call.Tracks.pure _
    · exact Call.Tracks.fail _
  · refine Call.Tracks.bind (tracks_walk hL hl _ _) fun b => ?_
    refine Call.Tracks.bind (tracks_stepDir hL hl _ b) fun a => ?_
    exact tracks_finishGet hL hl doReadlink mode a.2

end Links

/-- **A lookup over two stores.** -/
theorem tracks_inodeGet (fuel : ℕ) (cwd : BlockNo) (path : CStr) (doReadlink : Bool)
    (mode : InodeMode) :
    PathTracks good S (inodeGet L dev p now fuel cwd path doReadlink mode)
      (inodeGet L' dev p now fuel cwd path doReadlink mode) := by
  induction fuel generalizing cwd path doReadlink mode with
  | zero => exact Call.Tracks.loop
  | succ fuel ih =>
      rw [inodeGet, inodeGet]
      refine tracks_root fun root => tracks_getFrom hL ?_ cwd path doReadlink mode
      exact tracks_kreadlink hL fun b path => ih b path true .dontCheckPerms

/-! ## Creation -/

theorem tracks_placeInChain (fuel : ℕ) (current : BlockNo) :
    PathTracks good S (placeInChain L dev fuel current) (placeInChain L' dev fuel current) := by
  induction fuel generalizing current with
  | zero => exact Call.Tracks.loop
  | succ fuel ih =>
      rw [placeInChain, placeInChain]
      refine Call.Tracks.bind (tracks_readBmap hL current) fun bmap => ?_
      split
      · refine Call.Tracks.bind (tracks_takeBlock hL .imap) fun b => ?_
        refine Call.Tracks.bind (tracks_writeSector hL _ _) fun _ => ?_
        split
        · exact Call.Tracks.pure _
        · split
          · exact Call.Tracks.pure _
          · exact ih _
      · split
        · exact Call.Tracks.pure _
        · exact ih _

theorem tracks_placeInNewMap {link : BlockNo → NameM σ Unit} {link' : BlockNo → NameM τ Unit}
    (hlink : ∀ b, PathTracks good S (link b) (link' b)) :
    PathTracks good S (placeInNewMap L dev link) (placeInNewMap L' dev link') := by
  rw [placeInNewMap, placeInNewMap]
  refine Call.Tracks.bind (tracks_takeBlock hL .bmap) fun next => ?_
  refine Call.Tracks.bind (hlink next) fun _ => ?_
  refine Call.Tracks.bind (tracks_takeBlock hL .imap) fun b => ?_
  exact Call.Tracks.bind (tracks_writeSector hL _ _) fun _ => Call.Tracks.pure _

theorem tracks_placeEntry (dir : Inode) :
    PathTracks good S (placeEntry L dev fuel dir) (placeEntry L' dev fuel dir) := by
  rw [placeEntry, placeEntry]
  split
  · exact tracks_placeInNewMap hL fun _ => tracks_writeSector hL _ _
  · refine Call.Tracks.bind (tracks_placeInChain hL fuel _) fun a => ?_
    split
    · exact Call.Tracks.pure _
    · exact tracks_placeInNewMap hL fun _ => tracks_writeSector hL _ _

theorem tracks_writeLink (linkPath : CStr) (n : Inode) :
    PathTracks good S (writeLink L dev linkPath n) (writeLink L' dev linkPath n) := by
  rw [writeLink, writeLink]
  refine Call.Tracks.bind (tracks_takeBlock hL .bmap) fun next => ?_
  exact Call.Tracks.bind (tracks_writeSector hL _ _) fun _ => tracks_writeSector hL _ _

theorem tracks_makeNode {get : BlockNo → CStr → NameM σ Inode}
    {get' : BlockNo → CStr → NameM τ Inode}
    (hget : ∀ b path, PathTracks good S (get b path) (get' b path)) (mode : InodeMode)
    (linkPath : CStr) (n : Inode) :
    PathTracks good S (makeNode L dev get mode linkPath n)
      (makeNode L' dev get' mode linkPath n) := by
  have hparent : PathTracks good S (readInode L dev n.parent) (readInode L' dev n.parent) :=
    tracks_readInode hL n.parent
  cases mode with
  | createFile => exact Call.Tracks.bind hparent fun _ => tracks_writeSector hL _ _
  | createDir => exact Call.Tracks.bind hparent fun _ => tracks_writeSector hL _ _
  | createSymlink => exact Call.Tracks.bind hparent fun _ => tracks_writeLink hL _ _
  | createHardlink =>
      refine Call.Tracks.bind hparent fun _ => ?_
      refine Call.Tracks.bind (Call.Tracks.orFail (hget _ _) _) fun _ => ?_
      refine Call.Tracks.bind Call.Tracks.require fun _ => ?_
      refine Call.Tracks.bind Call.Tracks.require fun _ => ?_
      refine Call.Tracks.bind Call.Tracks.require fun _ => ?_
      exact Call.Tracks.bind (tracks_writeSector hL _ _) fun _ => tracks_writeLink hL _ _
  | _ => exact Call.Tracks.fail _

section Directory
variable {readlink : BlockNo → NameM σ BlockNo} {readlink' : BlockNo → NameM τ BlockNo}
  (hl : ∀ b, PathTracks good S (readlink b) (readlink' b))
include hl

theorem tracks_createDirectory (name : CStr) (parent : BlockNo) :
    PathTracks good S (createDirectory L dev p readlink fuel name parent)
      (createDirectory L' dev p readlink' fuel name parent) := by
  rw [createDirectory, createDirectory]
  refine Call.Tracks.bind (tracks_enterDir hL hl parent) fun a => ?_
  refine Call.Tracks.bind Call.Tracks.require fun _ => ?_
  have hend : ∀ found : Option (BlockNo × Inode), PathTracks good S
      (do
        Call.require (found.isNone = true) .fail
        let dir ← readInode L dev a.1
        pure (a.1, dir) : NameM σ (BlockNo × Inode))
      (do
        Call.require (found.isNone = true) .fail
        let dir ← readInode L' dev a.1
        pure (a.1, dir) : NameM τ (BlockNo × Inode)) := by
    intro found
    refine Call.Tracks.bind Call.Tracks.require fun _ => ?_
    exact Call.Tracks.bind (tracks_readInode hL _) fun _ => Call.Tracks.pure _
  split
  · exact hend none
  · exact Call.Tracks.bind (tracks_scanChain hL name fuel _) hend

variable {get : BlockNo → CStr → NameM σ Inode} {get' : BlockNo → CStr → NameM τ Inode}
  (hget : ∀ b path, PathTracks good S (get b path) (get' b path))
include hget

theorem tracks_createAt (path linkPath : CStr) (a : NewNode) :
    PathTracks good S (createAt L dev p now root readlink get fuel path linkPath a)
      (createAt L' dev p now root readlink' get' fuel path linkPath a) := by
  rw [createAt, createAt]
  refine Call.Tracks.bind (tracks_rootInode hL) fun n => ?_
  split
  · exact Call.Tracks.pure _
  · exact Call.Tracks.pure _
  · refine Call.Tracks.bind (tracks_walk hL hl _ _) fun b => ?_
    refine Call.Tracks.bind (tracks_createDirectory hL hl _ b) fun d => ?_
    refine Call.Tracks.bind (tracks_placeEntry hL _) fun block => ?_
    exact tracks_makeNode hL hget _ _ _

theorem tracks_createFrom (cwd : BlockNo) (path : CStr) (a : NewNode) :
    PathTracks good S (createFrom L dev p now root readlink get fuel cwd path a)
      (createFrom L' dev p now root readlink' get' fuel cwd path a) := by
  rw [createFrom, createFrom]
  refine Call.Tracks.bind Call.Tracks.require fun _ => ?_
  refine Call.Tracks.bind Call.Tracks.require fun _ => ?_
  refine Call.Tracks.bind Call.Tracks.require fun _ => ?_
  refine Call.Tracks.bind (tracks_krealpath hL cwd path) fun path => ?_
  split
  · exact Call.Tracks.bind (tracks_krealpath hL cwd _) fun linkPath =>
      tracks_createAt hL hl hget path linkPath a
  · exact Call.Tracks.bind (Call.Tracks.pure _) fun linkPath =>
      tracks_createAt hL hl hget path linkPath a

end Directory

/-- **A creation over two stores.** -/
theorem tracks_inodeCreate (cwd : BlockNo) (path : CStr) (a : NewNode) :
    PathTracks good S (inodeCreate L dev p now fuel cwd path a)
      (inodeCreate L' dev p now fuel cwd path a) := by
  rw [inodeCreate_eq, inodeCreate_eq]
  refine tracks_root fun root => tracks_createFrom hL ?_ ?_ cwd path a
  · exact tracks_kreadlink hL fun b path => tracks_inodeGet hL fuel b path true .dontCheckPerms
  · exact fun b path => tracks_inodeGet hL fuel b path false .dontCheckPerms

/-! ## Removal -/

theorem tracks_giveEntries (bmap : BlockMap) (js : List (Fin bmapBlocks)) :
    PathTracks good S (giveEntries L dev bmap js) (giveEntries L' dev bmap js) := by
  induction js with
  | nil => exact Call.Tracks.pure _
  | cons j js ih =>
      rw [giveEntries, giveEntries]
      split
      · exact Call.Tracks.bind (tracks_giveBlock hL _ _) fun _ => ih
      · exact ih

theorem tracks_giveChain (fuel : ℕ) (next : BlockNo) :
    PathTracks good S (giveChain L dev fuel next) (giveChain L' dev fuel next) := by
  induction fuel generalizing next with
  | zero => exact Call.Tracks.loop
  | succ fuel ih =>
      rw [giveChain, giveChain]
      split
      · exact Call.Tracks.pure _
      · refine Call.Tracks.bind (tracks_readBmap hL next) fun bmap => ?_
        refine Call.Tracks.bind (tracks_giveEntries hL _ _) fun _ => ?_
        exact Call.Tracks.bind (tracks_giveBlock hL _ _) fun _ => ih _

theorem tracks_releaseNode {get : CStr → NameM σ Inode} {get' : CStr → NameM τ Inode}
    (hget : ∀ path, PathTracks good S (get path) (get' path)) (n : Inode) :
    PathTracks good S (releaseNode L dev fuel get n) (releaseNode L' dev fuel get' n) := by
  rw [releaseNode, releaseNode]
  split
  · exact tracks_giveChain hL fuel _
  split
  · exact Call.Tracks.pure _
  split
  · split
    · exact tracks_giveBlock hL _ _
    · exact Call.Tracks.pure _
  split
  · split
    · refine Call.Tracks.bind (tracks_readLink hL _) fun l => ?_
      exact Call.Tracks.bind (Call.Tracks.orFail (hget _) _) fun _ => tracks_writeSector hL _ _
    · exact Call.Tracks.fail _
  · exact Call.Tracks.pure _

theorem tracks_fixParent (parent : Inode) (fuel : ℕ) (prev current : BlockNo) :
    PathTracks good S (fixParent L dev parent fuel prev current)
      (fixParent L' dev parent fuel prev current) := by
  induction fuel generalizing prev current with
  | zero => exact Call.Tracks.loop
  | succ fuel ih =>
      rw [fixParent, fixParent]
      split
      · exact Call.Tracks.pure _
      · refine Call.Tracks.bind (tracks_readBmap hL current) fun bmap => ?_
        split
        · split
          · exact Call.Tracks.bind (tracks_giveBlock hL _ _) fun _ => tracks_writeSector hL _ _
          · refine Call.Tracks.bind (tracks_readBmap hL prev) fun pnode => ?_
            refine Call.Tracks.bind (tracks_writeSector hL _ _) fun _ => ?_
            exact Call.Tracks.bind (tracks_giveBlock hL _ _) fun _ => tracks_writeSector hL _ _
        · exact ih _ _

theorem tracks_findEntry (self : BlockNo) (fuel : ℕ) (current : BlockNo) :
    PathTracks good S (findEntry L dev self fuel current) (findEntry L' dev self fuel current) := by
  induction fuel generalizing current with
  | zero => exact Call.Tracks.loop
  | succ fuel ih =>
      rw [findEntry, findEntry]
      refine Call.Tracks.bind (tracks_readBmap hL current) fun bmap => ?_
      split
      · exact Call.Tracks.pure _
      · split
        · exact Call.Tracks.fail _
        · exact ih _

theorem tracks_freeFrom {get get₂ : CStr → NameM σ Inode} {get' get₂' : CStr → NameM τ Inode}
    (hget : ∀ path, PathTracks good S (get path) (get' path))
    (hget₂ : ∀ path, PathTracks good S (get₂ path) (get₂' path)) (path : CStr)
    (newnode : Option Inode) :
    PathTracks good S (freeFrom L dev get get₂ fuel path newnode)
      (freeFrom L' dev get' get₂' fuel path newnode) := by
  rw [freeFrom, freeFrom]
  refine Call.Tracks.bind Call.Tracks.require fun _ => ?_
  refine Call.Tracks.bind (hget path) fun n => ?_
  refine Call.Tracks.bind Call.Tracks.require fun _ => ?_
  refine Call.Tracks.bind Call.Tracks.require fun _ => ?_
  refine Call.Tracks.bind (tracks_readInode hL _) fun parent => ?_
  refine Call.Tracks.bind (tracks_readInode hL _) fun _ => ?_
  refine Call.Tracks.bind (tracks_findEntry hL _ fuel _) fun a => ?_
  refine Call.Tracks.bind (tracks_giveBlock hL _ _) fun _ => ?_
  refine Call.Tracks.bind (tracks_writeSector hL _ _) fun _ => ?_
  split
  · exact Call.Tracks.bind (tracks_fixParent hL parent fuel _ _) fun _ => Call.Tracks.pure _
  · refine Call.Tracks.bind (tracks_releaseNode hL hget₂ n) fun _ => ?_
    exact Call.Tracks.bind (tracks_fixParent hL parent fuel _ _) fun _ => Call.Tracks.pure _

/-- **A removal over two stores.** -/
theorem tracks_inodeFree (cwd : BlockNo) (path : CStr) (newnode : Option Inode) :
    PathTracks good S (inodeFree L dev p now fuel cwd path newnode)
      (inodeFree L' dev p now fuel cwd path newnode) := by
  rw [inodeFree_eq, inodeFree_eq]
  refine tracks_freeFrom hL ?_ ?_ path newnode
  · exact fun path => tracks_inodeGet hL fuel cwd path false .dontCheckPerms
  · exact fun path => tracks_inodeGet hL fuel cwd path false .rw

end Blocks

/-! ## Runs -/

/-- What a call gives back. -/
inductive PathReply
  | inode (r : Except InodeRtvl Inode)
  | created (r : Except InodeRtvl Unit)
  | freed (r : Except InodeRtvl (Option Inode))

section Runs

/-- A call with its reply. -/
def PathCall.reply (L : BlockLayer σ) : PathCall → NameM σ PathReply
  | .inodeGet dev p now fuel cwd path doReadlink mode => do
    let r ← Call.attempt (Fs.inodeGet L dev p now fuel cwd path doReadlink mode)
    pure (.inode r)
  | .inodeCreate dev p now fuel cwd path a => do
    let r ← Call.attempt (Fs.inodeCreate L dev p now fuel cwd path a)
    pure (.created r)
  | .inodeFree dev p now fuel cwd path newnode => do
    let r ← Call.attempt (Fs.inodeFree L dev p now fuel cwd path newnode)
    pure (.freed r)

/-- A run with the replies of its calls. -/
def pathRun (L : BlockLayer σ) : List PathCall → NameM σ (List PathReply)
  | [] => pure []
  | c :: cs => do
    let r ← c.reply L
    let rs ← pathRun L cs
    pure (r :: rs)

variable {L : BlockLayer σ} {L' : BlockLayer τ} (hL : L.Tracks good S L')
include hL

theorem PathCall.tracks_reply (c : PathCall) : PathTracks good S (c.reply L) (c.reply L') := by
  cases c with
  | inodeGet dev p now fuel cwd path doReadlink mode =>
      exact Call.Tracks.bind (tracks_inodeGet hL fuel cwd path doReadlink mode).attempt
        fun _ => Call.Tracks.pure _
  | inodeCreate dev p now fuel cwd path a =>
      exact Call.Tracks.bind (tracks_inodeCreate hL cwd path a).attempt fun _ => Call.Tracks.pure _
  | inodeFree dev p now fuel cwd path newnode =>
      exact Call.Tracks.bind (tracks_inodeFree hL cwd path newnode).attempt
        fun _ => Call.Tracks.pure _

/-- **A run over two stores.** -/
theorem tracks_pathRun (cs : List PathCall) :
    PathTracks good S (pathRun L cs) (pathRun L' cs) := by
  induction cs with
  | nil => exact Call.Tracks.pure _
  | cons c cs ih =>
      rw [pathRun, pathRun]
      refine Call.Tracks.bind (c.tracks_reply hL) fun r => ?_
      exact Call.Tracks.bind ih fun rs => Call.Tracks.pure _

end Runs

end OxKernel.Fs
