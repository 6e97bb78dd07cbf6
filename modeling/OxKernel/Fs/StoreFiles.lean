import OxKernel.Fs.FileRuns
import OxKernel.Fs.Stores

/-!
# File calls over two stores

`kread`, `kwrite` and `klseek` over one store have the results they have over another one that
answers alike, and so has a run of them on any descriptors.

## Main definitions

* `FileIo.over`, `Sys.over` — the state of a file function, and of the system, over another store.
* `FileTracks` — file functions with the same results over two stores.
* `FileOp.execOver`, `filesOver` — the calls over a store.
-/
namespace OxKernel.Fs

open Lib (Attempt Machine Tracked)

variable {σ τ α : Type}

/-- The state of a file function with another store below. -/
def FileIo.over (s : FileIo σ) (st : τ) : FileIo τ := ⟨s.fs.over st, s.inode, s.data⟩

/-- Two states with the same tables, inode and buffer over related stores. -/
def FileIo.Alike (S : σ → τ → Prop) (s : FileIo σ) (t : FileIo τ) : Prop :=
  ∃ st, t = s.over st ∧ S s.fs.store st

/-- File functions of which one does over its store what the other one does over its own. -/
abbrev FileTracks (good : σ → Prop) (S : σ → τ → Prop) (x : FileM σ α) (y : FileM τ α) : Prop :=
  Attempt.Tracks (fun s => good s.fs.store) (FileIo.Alike S) x y

variable {good : σ → Prop} {S : σ → τ → Prop}

theorem FileIo.tracked {s s' : FileIo σ} {P : τ → τ → Prop} {Q : FileIo τ → FileIo τ → Prop}
    (h : Tracked good S s.fs.store s'.fs.store P)
    (hQ : ∀ st st', P st st' → Q (s.over st) (s'.over st')) :
    Tracked (fun s => good s.fs.store) (FileIo.Alike S) s s' Q := by
  intro hgood
  obtain ⟨hs, hsim⟩ := h hgood
  refine ⟨hs, ?_⟩
  rintro t ⟨st, rfl, hst⟩
  obtain ⟨st', hP, hst'⟩ := hsim st hst
  exact ⟨s'.over st', hQ st st' hP, st', rfl, hst'⟩

theorem tracks_getInode_bind {f : Inode → FileM σ α} {g : Inode → FileM τ α}
    (h : ∀ n, FileTracks good S (f n) (g n)) : FileTracks good S (getInode >>= f) (getInode >>= g) :=
  Attempt.Tracks.get_bind (p := fun s : FileIo σ => s.inode) (q := fun t : FileIo τ => t.inode)
    (fun _ _ ⟨_, ht, _⟩ => by rw [ht]; rfl) h

theorem tracks_modifyInode (f : Inode → Inode) :
    FileTracks good S (modifyInode f : FileM σ Unit) (modifyInode f) := by
  refine Attempt.Tracks.modify (fun _ h => h) ?_
  rintro s t ⟨st, rfl, hst⟩
  exact ⟨st, rfl, hst⟩

section Blocks
variable {L : BlockLayer σ} {L' : BlockLayer τ} (hL : L.Tracks good S L') {dev : DevNo}
include hL

theorem tracks_readBlock (b : BlockNo) :
    FileTracks good S (readBlock L dev b) (readBlock L' dev b) := by
  intro s
  have hread := hL.read dev b Sector.zero s.fs.store
  rw [readBlock]
  rcases hr : L.blockRead dev b Sector.zero s.fs.store with ⟨r, data, st₁⟩
  rw [hr] at hread
  cases r with
  | _ =>
      refine FileIo.tracked hread fun st st' h => ?_
      have h' : L'.blockRead dev b Sector.zero (s.over st).fs.store = _ := h
      rw [readBlock, h']
      rfl

theorem tracks_writeBlock (b : BlockNo) (data : Sector) :
    FileTracks good S (writeBlock L dev b data) (writeBlock L' dev b data) := by
  intro s
  have hwrite := hL.write dev b data s.fs.store
  rw [writeBlock]
  rcases hr : L.blockWrite dev b data s.fs.store with ⟨r, st₁⟩
  rw [hr] at hwrite
  cases r with
  | _ =>
      refine FileIo.tracked hwrite fun st st' h => ?_
      have h' : L'.blockWrite dev b data (s.over st).fs.store = _ := h
      rw [writeBlock, h']
      rfl

theorem tracks_getDataBlock : FileTracks good S (getDataBlock L dev) (getDataBlock L' dev) := by
  intro s
  have hget := tracked_getBlock hL .bmap dev 0 s.fs
  rw [getDataBlock, inodeGetDataBlock]
  rcases hr : getBlock L .bmap dev 0 s.fs with ⟨r, b, fs₁⟩
  rw [hr] at hget
  cases r with
  | _ =>
      refine FileIo.tracked hget fun st st' h => ?_
      have h' : getBlock L' .bmap dev 0 (s.over st).fs = _ := h
      rw [getDataBlock, inodeGetDataBlock, h']
      rfl

theorem tracks_readMap (b : BlockNo) : FileTracks good S (readMap L dev b) (readMap L' dev b) :=
  (tracks_readBlock hL b).bind fun _ => Attempt.Tracks.pure _

/-! ## The transfer engine -/

theorem tracks_fileAddOneBmapBlock (current : BlockNo) (bmap : BlockMap) :
    FileTracks good S (fileAddOneBmapBlock L dev current bmap)
      (fileAddOneBmapBlock L' dev current bmap) := by
  refine (tracks_getDataBlock hL).bind fun block => ?_
  refine (tracks_writeBlock hL _ _).bind fun _ => ?_
  exact (tracks_writeBlock hL _ _).bind fun _ => Attempt.Tracks.pure _

theorem tracks_fileAddOneDataBlock (current : BlockNo) (bmap : BlockMap) (iblock : BlockNo) :
    FileTracks good S (fileAddOneDataBlock L dev current bmap iblock)
      (fileAddOneDataBlock L' dev current bmap iblock) := by
  refine (tracks_getDataBlock hL).bind fun block => ?_
  refine (tracks_writeBlock hL _ _).bind fun _ => ?_
  exact (tracks_writeBlock hL _ _).bind fun _ => Attempt.Tracks.pure _

theorem tracks_locateFresh : FileTracks good S (locateFresh L dev) (locateFresh L' dev) := by
  refine (tracks_getDataBlock hL).bind fun block => ?_
  refine (tracks_modifyInode _).bind fun _ => tracks_getInode_bind fun n => ?_
  refine (tracks_writeBlock hL _ _).bind fun _ => (tracks_writeBlock hL _ _).bind fun _ => ?_
  refine (tracks_readMap hL _).bind fun bmap => (tracks_getDataBlock hL).bind fun block => ?_
  exact (tracks_writeBlock hL _ _).bind fun _ => Attempt.Tracks.pure _

theorem tracks_chainStep (a : BlockNo × BlockMap) :
    FileTracks good S (chainStep L dev a) (chainStep L' dev a) :=
  (tracks_readMap hL _).bind fun _ => Attempt.Tracks.pure _

theorem tracks_locate (pos : UInt64) : FileTracks good S (locate L dev pos) (locate L' dev pos) := by
  refine tracks_getInode_bind fun n => ?_
  split
  · exact tracks_locateFresh hL
  · split
    · exact (tracks_readMap hL _).bind fun _ => Attempt.Tracks.pure _
    · split
      · exact (tracks_readMap hL _).bind fun _ => Attempt.Tracks.pure _
      · exact (Attempt.Tracks.iterate (tracks_chainStep hL) _ _).bind fun _ => Attempt.Tracks.pure _

theorem tracks_nextMap (t : Spot) (iblock : BlockNo) :
    FileTracks good S (nextMap L dev t iblock) (nextMap L' dev t iblock) := by
  have hread : ∀ bmap : BlockMap, FileTracks good S
      (readMap L dev bmap.next >>= fun tmp => pure (bmap.next, tmp))
      (readMap L' dev bmap.next >>= fun tmp => pure (bmap.next, tmp)) :=
    fun bmap => (tracks_readMap hL _).bind fun _ => Attempt.Tracks.pure _
  rw [nextMap, nextMap]
  split
  · dsimp only
    split
    · exact (tracks_fileAddOneBmapBlock hL _ _).bind hread
    · exact hread _
  · exact Attempt.Tracks.pure _

theorem tracks_ensureBlock (current : BlockNo) (bmap : BlockMap) (iblock : BlockNo) :
    FileTracks good S (ensureBlock L dev current bmap iblock)
      (ensureBlock L' dev current bmap iblock) := by
  rw [ensureBlock, ensureBlock]
  split
  · exact tracks_fileAddOneDataBlock hL _ _ _
  · exact Attempt.Tracks.pure _

theorem tracks_nextBlock (t : Spot) : FileTracks good S (nextBlock L dev t) (nextBlock L' dev t) := by
  refine (tracks_nextMap hL t _).bind fun a => (tracks_ensureBlock hL _ _ _).bind fun bmap => ?_
  exact (tracks_readBlock hL _).bind fun _ => Attempt.Tracks.pure _

omit hL in
theorem tracks_copyByte (reading : Bool) (t : Transfer) :
    FileTracks good S (copyByte reading t : FileM σ Transfer) (copyByte reading t) := by
  intro s
  have hsame : Tracked good S s.fs.store s.fs.store Eq := Tracked.refl fun _ => rfl
  cases reading with
  | false =>
      refine FileIo.tracked hsame ?_
      rintro st st' rfl
      rfl
  | true =>
      by_cases hsize : s.inode.size ≤ t.i.toUInt64
      · have hcopy : ∀ {υ : Type} (s : FileIo υ), s.inode.size ≤ t.i.toUInt64 → copyByte true t s =
            (some { t with dptr := Function.update t.dptr (sectorIndex t.byte) 0 },
              { s with data := Function.update s.data t.i.toNat 0 }) := by
          intro υ s hs
          simp only [copyByte, Attempt.get_bind_apply, if_true, if_pos hs]
          rfl
        rw [hcopy s hsize]
        refine FileIo.tracked hsame ?_
        rintro st st' rfl
        exact hcopy (s.over st) hsize
      · have hcopy : ∀ {υ : Type} (s : FileIo υ), ¬ s.inode.size ≤ t.i.toUInt64 →
            copyByte true t s = (some t,
              { s with data := Function.update s.data t.i.toNat (t.dptr (sectorIndex t.byte)) }) := by
          intro υ s hs
          simp only [copyByte, Attempt.get_bind_apply, if_true, if_neg hs]
          rfl
        rw [hcopy s hsize]
        refine FileIo.tracked hsame ?_
        rintro st st' rfl
        exact hcopy (s.over st) hsize

theorem tracks_endBlock (reading : Bool) (t : Transfer) :
    FileTracks good S (endBlock L dev reading t) (endBlock L' dev reading t) := by
  refine tracks_getInode_bind fun n => ?_
  dsimp only
  split
  · exact (tracks_writeBlock hL _ _).bind fun _ =>
      (tracks_nextBlock hL _).bind fun _ => Attempt.Tracks.pure _
  · exact (tracks_nextBlock hL _).bind fun _ => Attempt.Tracks.pure _

theorem tracks_transferByte (reading : Bool) (t : Transfer) :
    FileTracks good S (transferByte L dev reading t) (transferByte L' dev reading t) := by
  refine (tracks_copyByte reading t).bind fun t => ?_
  dsimp only
  split
  · exact tracks_endBlock hL _ _
  · exact Attempt.Tracks.pure _

theorem tracks_endTransfer (pos : UInt64) (t : Transfer) :
    FileTracks good S (endTransfer L dev pos t) (endTransfer L' dev pos t) := by
  refine Attempt.Tracks.bind ?_ fun _ => ?_
  · rw [flushBlock, flushBlock]
    split
    · exact tracks_writeBlock hL _ _
    · exact Attempt.Tracks.pure _
  · refine (tracks_modifyInode _).bind fun _ => tracks_getInode_bind fun n => ?_
    exact (tracks_writeBlock hL _ _).bind fun _ => Attempt.Tracks.pure _

/-- **A transfer over two stores.** -/
theorem tracks_fileReadWrite (pos length : UInt64) (reading : Bool) :
    FileTracks good S (fileReadWrite L pos length reading) (fileReadWrite L' pos length reading) := by
  rw [fileReadWrite, fileReadWrite]
  split
  · exact Attempt.Tracks.pure _
  · refine tracks_getInode_bind fun n => (tracks_locate hL _).bind fun spot => ?_
    refine (tracks_readBlock hL _).bind fun dptr => ?_
    refine (Attempt.Tracks.iterate (tracks_transferByte hL reading) _ _).bind fun t => ?_
    exact tracks_endTransfer hL _ _

omit hL in
theorem tracks_withZeroBuffer {x : FileM σ α} {y : FileM τ α} (h : FileTracks good S x y) :
    FileTracks good S (withZeroBuffer x) (withZeroBuffer y) := by
  intro s hgood
  obtain ⟨hs, hsim⟩ := h { s with data := fun _ => 0 } hgood
  refine ⟨hs, ?_⟩
  rintro t ⟨st, rfl, hst⟩
  obtain ⟨t', hy, st', rfl, hst'⟩ := hsim _ ⟨st, rfl, hst⟩
  have hover : withZeroBuffer y (s.over st) =
      ((y (FileIo.over { s with data := fun _ => 0 } st)).1,
        { (y (FileIo.over { s with data := fun _ => 0 } st)).2 with data := s.data }) := rfl
  rw [hy] at hover
  exact ⟨_, hover, st', rfl, hst'⟩

theorem tracks_fillStep (length : UInt64) (reading : Bool) (bytes : UInt64) :
    FileTracks good S (fillStep L length reading bytes) (fillStep L' length reading bytes) :=
  tracks_getInode_bind fun _ => (tracks_fileReadWrite hL _ _ _).bind fun _ => Attempt.Tracks.pure _

theorem tracks_fillGap (reading : Bool) :
    FileTracks good S (fillGap L reading) (fillGap L' reading) := by
  refine tracks_getInode_bind fun n => ?_
  refine (Attempt.Tracks.iterate (tracks_fillStep hL 512 reading) _ _).bind fun bytes => ?_
  split
  · exact Attempt.Tracks.pure _
  · exact tracks_fillStep hL _ _ _

theorem tracks_transferCall (count : UInt32) (reading : Bool) :
    FileTracks good S (transferCall L count reading) (transferCall L' count reading) := by
  have hrest : ∀ gap : UInt64, FileTracks good S
      (getInode >>= fun n => fileReadWrite L n.pos count.toUInt64 reading >>= fun bytes =>
        pure (bytes + gap))
      (getInode >>= fun n => fileReadWrite L' n.pos count.toUInt64 reading >>= fun bytes =>
        pure (bytes + gap)) := fun gap =>
    tracks_getInode_bind fun n => (tracks_fileReadWrite hL _ _ _).bind fun _ => Attempt.Tracks.pure _
  refine tracks_getInode_bind fun n => ?_
  dsimp only
  split
  · exact (tracks_withZeroBuffer (tracks_fillGap hL reading)).bind hrest
  · exact hrest 0

end Blocks

/-! ## Calls on descriptors -/

/-- The system with another store below. -/
def Sys.over (s : Sys σ) (st : τ) : Sys τ where
  toNames := ⟨s.fs.over st, s.nrRecursion⟩
  proc := s.proc
  masterDevTab := s.masterDevTab

@[simp] theorem Sys.over_store (s : Sys σ) (st : τ) : (s.over st).fs.store = st := rfl

@[simp] theorem Sys.over_over {υ : Type} (s : Sys σ) (st : τ) (st' : υ) :
    (s.over st).over st' = s.over st' := rfl

/-- Two systems that differ in related stores only. -/
def Sys.Alike (S : σ → τ → Prop) (s : Sys σ) (t : Sys τ) : Prop :=
  ∃ st, t = s.over st ∧ S s.fs.store st

theorem Sys.tracked {s s' : Sys σ} {P : τ → τ → Prop} {Q : Sys τ → Sys τ → Prop}
    (h : Tracked good S s.fs.store s'.fs.store P)
    (hQ : ∀ st st', P st st' → Q (s.over st) (s'.over st')) :
    Tracked (fun s => good s.fs.store) (Sys.Alike S) s s' Q := by
  intro hgood
  obtain ⟨hs, hsim⟩ := h hgood
  refine ⟨hs, ?_⟩
  rintro t ⟨st, rfl, hst⟩
  obtain ⟨st', hP, hst'⟩ := hsim st hst
  exact ⟨s'.over st', hQ st st' hP, st', rfl, hst'⟩

/-- Make one call over a store. -/
def FileOp.execOver (L : BlockLayer σ) (fd : Int32) : FileOp → Sys σ → FileReply × Sys σ
  | .read now buf count, s =>
    match kread L now fd buf count s with
    | ((r, buf), s) => (.read r buf, s)
  | .write now buf count, s =>
    match kwrite L now fd buf count s with
    | (r, s) => (.write r, s)
  | .seek offset whence, s =>
    match klseek L fd offset whence s with
    | (r, s) => (.seek r, s)

theorem FileOp.execOver_flat (fd : Int32) (op : FileOp) (s : Sys Disk) :
    op.execOver flatStore fd s = op.exec fd s := by
  cases op <;> rfl

/-- The calls of a process on its open files, over a store. -/
def filesOver {I : Type} (L : BlockLayer σ) (fd : I → Int32) :
    Machine (Sys σ) (I × FileOp) FileReply where
  step call s := call.2.execOver L (fd call.1) s

/-- What a file function over one store does over the other one. -/
theorem FileTracks.store {x : FileM σ α} {y : FileM τ α} (h : FileTracks good S x y)
    (io : FileIo σ) : Tracked good S io.fs.store (x io).2.fs.store fun st st' =>
      y (io.over st) = ((x io).1, (x io).2.over st') := by
  intro hgood
  obtain ⟨hs, hsim⟩ := h io hgood
  refine ⟨hs, fun st hst => ?_⟩
  obtain ⟨t', hy, st', rfl, hst'⟩ := hsim _ ⟨st, rfl, hst⟩
  exact ⟨st', hy, hst'⟩

/-- A seek that moves writes the inode, whether this succeeds or not. -/
theorem klseek_pos (L : BlockLayer σ) {fd : Int32} {t : Fin maxFiles} {s : Sys σ} {offset : UInt32}
    {whence : Whence} {pos : UInt64} {n : Inode} (hd : s.proc.descriptor fd = some t)
    (hn : s.proc.fileTab t = n) (hseek : n.seek offset whence = some pos) :
    klseek L fd offset whence s =
      (if (L.blockWrite n.dev n.self (Inode.layout (n.sought pos)) s.fs.store).1 = .ok
        then pos.toUInt32 else offMinusOne,
        { s with
          proc := s.proc.setInode t (n.sought pos)
          fs := { s.fs with
            store := (L.blockWrite n.dev n.self (Inode.layout (n.sought pos)) s.fs.store).2 } }) := by
  subst hn
  rcases hw : L.blockWrite (s.proc.fileTab t).dev (s.proc.fileTab t).self
    (Inode.layout { s.proc.fileTab t with pos := pos, iblock := iblockNopos }) s.fs.store with ⟨r, st⟩
  have hsought : L.blockWrite (s.proc.fileTab t).dev (s.proc.fileTab t).self
      (Inode.layout ((s.proc.fileTab t).sought pos)) s.fs.store = (r, st) := hw
  rw [hsought]
  simp only [klseek, hd, hseek, hw]
  cases r <;> rfl

section Calls
variable {L : BlockLayer σ} {L' : BlockLayer τ} (hL : L.Tracks good S L')
include hL

/-- **A call over two stores.** -/
theorem FileOp.tracked_execOver (fd : Int32) (op : FileOp) (s : Sys σ) :
    Tracked (fun s => good s.fs.store) (Sys.Alike S) s (op.execOver L fd s).2 fun t t' =>
      op.execOver L' fd t = ((op.execOver L fd s).1, t') := by
  have hsame : Tracked good S s.fs.store s.fs.store Eq := Tracked.refl fun _ => rfl
  have hproc : ∀ st : τ, (s.over st).proc = s.proc := fun _ => rfl
  cases op with
  | read now buf count =>
      simp only [FileOp.execOver, kread]
      cases hd : s.proc.descriptor fd with
      | none =>
          refine Sys.tracked hsame ?_
          rintro st st' rfl
          simp only [hproc, hd]
      | some t =>
          have hx := (tracks_transferCall hL count true).store
            ⟨s.fs, { s.proc.fileTab t with accessedTime := now }, buf⟩
          refine Sys.tracked hx fun st st' hy => ?_
          have hy' : transferCall L' count true
            ⟨(s.over st).fs, { s.proc.fileTab t with accessedTime := now }, buf⟩ = _ := hy
          simp only [hproc, hd, hy']
          rfl
  | write now buf count =>
      simp only [FileOp.execOver, kwrite]
      cases hd : s.proc.descriptor fd with
      | none =>
          refine Sys.tracked hsame ?_
          rintro st st' rfl
          simp only [hproc, hd]
      | some t =>
          have hx := (tracks_transferCall hL count false).store
            ⟨s.fs, { s.proc.fileTab t with modifiedTime := now }, buf⟩
          refine Sys.tracked hx fun st st' hy => ?_
          have hy' : transferCall L' count false
            ⟨(s.over st).fs, { s.proc.fileTab t with modifiedTime := now }, buf⟩ = _ := hy
          simp only [hproc, hd, hy']
          rfl
  | seek offset whence =>
      cases hd : s.proc.descriptor fd with
      | none =>
          have hnone : ∀ {υ : Type} (M : BlockLayer υ) (u : Sys υ), u.proc.descriptor fd = none →
              (FileOp.seek offset whence).execOver M fd u = (.seek offMinusOne, u) := by
            intro υ M u hu
            simp only [FileOp.execOver, klseek, hu]
          rw [hnone L s hd]
          refine Sys.tracked hsame ?_
          rintro st st' rfl
          exact hnone L' (s.over st) hd
      | some t =>
          cases hseek : (s.proc.fileTab t).seek offset whence with
          | none =>
              simp only [FileOp.execOver, klseek_other hd hseek]
              refine Sys.tracked hsame ?_
              rintro st st' rfl
              have hover : (s.over st).proc.descriptor fd = some t := hd
              rw [klseek_other hover hseek]
          | some pos =>
              have hwrite := hL.write (s.proc.fileTab t).dev (s.proc.fileTab t).self
                (Inode.layout ((s.proc.fileTab t).sought pos)) s.fs.store
              simp only [FileOp.execOver, klseek_pos L hd rfl hseek]
              refine Sys.tracked hwrite fun st st' h => ?_
              have hover : (s.over st).proc.descriptor fd = some t := hd
              rw [klseek_pos L' hover rfl hseek]
              have h' : L'.blockWrite (s.proc.fileTab t).dev (s.proc.fileTab t).self
                (Inode.layout ((s.proc.fileTab t).sought pos)) (s.over st).fs.store = _ := h
              have hinode : (s.over st).proc.fileTab t = s.proc.fileTab t := rfl
              rw [hinode, h']
              rfl

/-- **A run of calls over two stores.** -/
theorem tracked_filesOver {I : Type} (fd : I → Int32) (calls : List (I × FileOp)) (s : Sys σ) :
    Tracked (fun s => good s.fs.store) (Sys.Alike S) s ((filesOver L fd).exec calls s) fun t t' =>
      (filesOver L' fd).trace calls t = (filesOver L fd).trace calls s ∧
        (filesOver L' fd).exec calls t = t' :=
  Machine.tracked_run (fun call s => call.2.tracked_execOver hL (fd call.1) s) calls s

end Calls

end OxKernel.Fs
