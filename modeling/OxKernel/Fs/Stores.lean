import OxKernel.Fs.Lookup
import OxKernel.Lib.Tracks

/-!
# The allocators over two stores

The file system reaches its storage through `block_read` and `block_write` only, once it is
mounted. If what one store answers is answered by another one too, a get and a free over the
first one have the results they have over the second one, and the tables are the same.

A run is judged by the store it ends with, which was good all along if it is good then.

## Main definitions

* `FsState.over` — the tables with another store below.
* `BlockLayer.Tracks` — what one store answers, another one answers too.
* `tracked_getBlock`, `tracked_freeBlock` — the two allocators.
-/
namespace OxKernel.Fs

open Lib (Tracked)

variable {σ τ : Type}

/-- The tables with another store below. -/
def FsState.over (fs : FsState σ) (st : τ) : FsState τ where
  store := st
  masterTab := fs.masterTab
  window := fs.window
  initMaster := fs.initMaster
  windowAddr := fs.windowAddr

@[simp] theorem FsState.over_store (fs : FsState σ) (st : τ) : (fs.over st).store = st := rfl
@[simp] theorem FsState.over_masterTab (fs : FsState σ) (st : τ) :
    (fs.over st).masterTab = fs.masterTab := rfl
@[simp] theorem FsState.over_window (fs : FsState σ) (st : τ) :
    (fs.over st).window = fs.window := rfl
@[simp] theorem FsState.over_windowAddr (fs : FsState σ) (st : τ) :
    (fs.over st).windowAddr = fs.windowAddr := rfl
@[simp] theorem FsState.over_setMaster (fs : FsState σ) (st : τ) (row : Fin inodeNrDev)
    (m : Master) : (fs.over st).setMaster row m = (fs.setMaster row m).over st := rfl
@[simp] theorem FsState.over_setWindow (fs : FsState σ) (st : τ) (k : MapKind)
    (row : Fin inodeNrDev) (data : Sector) :
    (fs.over st).setWindow k row data = (fs.setWindow k row data).over st := rfl
@[simp] theorem masterGet_over (dev : DevNo) (fs : FsState σ) (st : τ) :
    masterGet dev (fs.over st) = masterGet dev fs := rfl
@[simp] theorem masterGetMemPtr_over (dev : DevNo) (fs : FsState σ) (st : τ) :
    masterGetMemPtr dev (fs.over st) = masterGetMemPtr dev fs := rfl

/-- A read and a write of `L` that end well were good at the start, and `L'` answers them in
the same way from a related state. -/
structure BlockLayer.Tracks (good : σ → Prop) (S : σ → τ → Prop) (L : BlockLayer σ)
    (L' : BlockLayer τ) : Prop where
  read : ∀ dev block data s, Tracked good S s (L.blockRead dev block data s).2.2 fun t t' =>
    L'.blockRead dev block data t =
      ((L.blockRead dev block data s).1, (L.blockRead dev block data s).2.1, t')
  write : ∀ dev block data s, Tracked good S s (L.blockWrite dev block data s).2 fun t t' =>
    L'.blockWrite dev block data t = ((L.blockWrite dev block data s).1, t')

/-- A free, once its map is loaded. -/
def freeBit (L : BlockLayer σ) (k : MapKind) (dev : DevNo) (row : Fin inodeNrDev) (block : BlockNo)
    (fs : FsState σ) : InodeRtvl × FsState σ :=
  let m := fs.masterTab row
  let block := block - m.regionStart k
  let ptr := block / 512 + m.mapStart k
  let bit := block % 512
  match (if ptr ≠ m.ptr k then loadWindow L k dev row ptr (fs.setMaster row (m.setBit bit k))
    else (.ok, fs.setMaster row (m.setBit bit k))) with
  | (.ok, fs) =>
    if bitGet (fs.window k row) bit.toNat = 0 then (.ok, fs)
    else (.ok, fs.setWindow k row (bitSet (fs.window k row) bit.toNat 0))
  | (_, fs) => (.fail, fs)

/-- What `initMap` answers, by what the window that it loads answers. -/
theorem initMap_eq (L : BlockLayer σ) (k : MapKind) (checked : Bool) (dev : DevNo)
    (row : Fin inodeNrDev) (fs : FsState σ) :
    initMap L k checked dev row fs =
      if (fs.masterTab row).ptr k = 0 then
        if checked ∧ (fs.masterTab row).initFs = 0 then (some .fail, fs) else
        let m := (fs.masterTab row).setPtr ((fs.masterTab row).mapStart k) k
        (masterGetMemPtr dev (fs.setMaster row m)).elim (some .fail, fs.setMaster row m) fun i =>
          let r := loadWindow L k dev row (m.ptr k)
            (fs.setMaster row (m.setWindow (fs.windowAddr k i) k))
          (if r.1 = .ok then none else some .fail, r.2)
      else (none, fs) := by
  rw [initMap]
  refine if_congr Iff.rfl (if_congr Iff.rfl rfl ?_) rfl
  dsimp only
  set m := (fs.masterTab row).setPtr ((fs.masterTab row).mapStart k) k
  cases hi : masterGetMemPtr dev (fs.setMaster row m) with
  | none => simp only [Option.elim_none]
  | some i =>
      simp only [Option.elim_some]
      rcases loadWindow L k dev row (m.ptr k)
        (fs.setMaster row (m.setWindow (fs.windowAddr k i) k)) with ⟨r, s⟩
      cases r <;> rfl

section Allocators
variable {good : σ → Prop} {S : σ → τ → Prop} {L : BlockLayer σ} {L' : BlockLayer τ}
  (hL : L.Tracks good S L') (k : MapKind) (dev : DevNo) (row : Fin inodeNrDev)
include hL

theorem tracked_loadWindow (p : BlockNo) (fs : FsState σ) :
    Tracked good S fs.store (loadWindow L k dev row p fs).2.store fun st st' =>
      loadWindow L' k dev row p (fs.over st) =
        ((loadWindow L k dev row p fs).1, (loadWindow L k dev row p fs).2.over st') := by
  refine (hL.read dev p (fs.window k row) fs.store).imp fun st st' hread => ?_
  simp only [loadWindow, FsState.over_masterTab, FsState.over_setMaster, FsState.over_window,
    FsState.over_store, FsState.setMaster_window, hread]
  rfl

/-! ## The scan -/

/-- A round of the scan, or its result, over another store. -/
def MapScan.over (a : MapScan σ) (st : τ) : MapScan τ := ⟨a.ptr, a.bit, a.pass, a.fs.over st⟩

/-- A result of a get over another store. -/
def GetResult.over (r : GetResult σ) (st : τ) : GetResult τ := (r.1, r.2.1, r.2.2.over st)

/-- The store after a round of the scan. -/
def roundStore (a : MapScan σ ⊕ GetResult σ) : σ := a.elim (·.fs.store) (·.2.2.store)

theorem tracked_takeBit (a : MapScan σ) :
    Tracked good S a.fs.store (takeBit L k dev row a).2.2.store fun st st' =>
      takeBit L' k dev row (a.over st) = GetResult.over (takeBit L k dev row a) st' := by
  set fs := a.fs.setWindow k row (bitSet (a.fs.window k row) a.bit.toNat 1) with hfs
  set m := (fs.masterTab row).setBit a.bit k with hm
  have hstore : (fs.setMaster row m).store = a.fs.store := rfl
  have hfirst := hL.write dev m.blockStart (Master.layout m) a.fs.store
  rcases hw : L.blockWrite dev m.blockStart (Master.layout m) a.fs.store with ⟨r, st₁⟩
  rw [hw] at hfirst
  have hsecond := hL.write dev a.ptr (fs.window k row) st₁
  rcases hw' : L.blockWrite dev a.ptr (fs.window k row) st₁ with ⟨r', st₂⟩
  rw [hw'] at hsecond
  cases r with
  | ok =>
      have htake : takeBit L k dev row a = (if r' = .ok then .ok else .fail,
          if r' = .ok then m.regionStart k + (a.ptr - m.mapStart k) * 512 + a.bit else inodeNopos,
          { fs.setMaster row m with store := st₂ }) := by
        rw [takeBit]
        simp only [← hfs, ← hm, hstore, hw, FsState.setMaster_window, hw']
        cases r' <;> rfl
      rw [htake]
      refine hfirst.trans hsecond fun t t' t'' h h' => ?_
      simp only [takeBit, MapScan.over, FsState.over_window, FsState.over_setWindow, ← hfs,
        FsState.over_masterTab, ← hm, FsState.over_setMaster, FsState.over_store,
        FsState.setMaster_window, h, h']
      cases r' <;> rfl
  | _ =>
      have htake : takeBit L k dev row a =
          (.fail, inodeNopos, { fs.setMaster row m with store := st₁ }) := by
        rw [takeBit]
        simp only [← hfs, ← hm, hstore, hw]
      rw [htake]
      refine hfirst.imp fun t t' h => ?_
      simp only [takeBit, MapScan.over, FsState.over_window, FsState.over_setWindow, ← hfs,
        FsState.over_masterTab, ← hm, FsState.over_setMaster, FsState.over_store, h]
      rfl

/-- A round of the scan over another store. -/
def roundOver (x : MapScan σ ⊕ GetResult σ) (st : τ) : MapScan τ ⊕ GetResult τ :=
  x.map (·.over st) (GetResult.over · st)

omit hL in
@[simp] theorem roundStore_next (a : MapScan σ) : roundStore a.next = a.fs.store := by
  rw [MapScan.next]
  split <;> rfl

omit hL in
@[simp] theorem next_over (a : MapScan σ) (st : τ) : (a.over st).next = roundOver a.next st := by
  rw [MapScan.next, MapScan.next]
  show (if a.pass < inodeNrPass then _ else _) = _
  split <;> rfl

theorem tracked_scanBlock (p : BlockNo) (pass : ℕ) (fs : FsState σ) :
    Tracked good S fs.store (roundStore (scanBlock L k dev row p pass fs)) fun st st' =>
      scanBlock L' k dev row p pass (fs.over st) =
        roundOver (scanBlock L k dev row p pass fs) st' := by
  have hload := tracked_loadWindow hL k dev row p fs
  rcases hl : loadWindow L k dev row p fs with ⟨r, fs₁⟩
  rw [hl] at hload
  rw [scanBlock, hl]
  cases r with
  | ok =>
      simp only [roundStore_next]
      refine hload.imp fun t t' h => ?_
      rw [scanBlock, h, ← next_over]
      rfl
  | _ =>
      refine hload.imp fun t t' h => ?_
      rw [scanBlock, h]
      rfl

theorem tracked_scanBody (a : MapScan σ) :
    Tracked good S a.fs.store (roundStore (scanBody L k dev row a)) fun st st' =>
      scanBody L' k dev row (a.over st) = roundOver (scanBody L k dev row a) st' := by
  have hbody : ∀ st : τ, scanBody L' k dev row (a.over st) =
      if bitGet (a.fs.window k row) a.bit.toNat = 0 then .inr (takeBit L' k dev row (a.over st))
      else
        let bit := (a.bit + 1) % 512
        let m := (a.fs.masterTab row).setBit bit k
        let fs := (a.fs.setMaster row m).over st
        if bit = 0 then
          if a.ptr + 1 < m.mapEnd k then scanBlock L' k dev row (a.ptr + 1) a.pass fs
          else scanBlock L' k dev row (m.mapStart k) (a.pass + 1) fs
        else MapScan.next ⟨a.ptr, bit, a.pass, fs⟩ := fun _ => rfl
  simp only [hbody]
  rw [scanBody]
  simp only
  split
  · exact (tracked_takeBit hL k dev row a).imp fun _ _ h => congrArg _ h
  · split
    · split
      · exact tracked_scanBlock hL k dev row _ _ _
      · exact tracked_scanBlock hL k dev row _ _ _
    · rw [roundStore_next]
      exact Tracked.refl fun st => next_over ⟨a.ptr, (a.bit + 1) % 512, a.pass,
        a.fs.setMaster row ((a.fs.masterTab row).setBit ((a.bit + 1) % 512) k)⟩ st

theorem tracked_scanLoop (a : MapScan σ) :
    Tracked good S a.fs.store ((scanLoop L k dev row).run a).2.2.store fun st st' =>
      (scanLoop L' k dev row).run (a.over st) =
        GetResult.over ((scanLoop L k dev row).run a) st' := by
  induction a using (scanLoop L k dev row).induction with
  | _ a ih =>
      have hround := tracked_scanBody hL k dev row a
      cases hb : scanBody L k dev row a with
      | inl a' =>
          rw [hb] at hround
          rw [Lib.Loop.run_of_inl (L := scanLoop L k dev row) hb]
          refine hround.trans (ih a' hb) fun t t' t'' h h' => ?_
          rw [Lib.Loop.run_of_inl (L := scanLoop L' k dev row) h, h']
      | inr r =>
          rw [hb] at hround
          rw [Lib.Loop.run_of_inr (L := scanLoop L k dev row) hb]
          exact hround.imp fun t t' h => Lib.Loop.run_of_inr (L := scanLoop L' k dev row) h

/-! ## The allocators -/

theorem tracked_initMap (checked : Bool) (fs : FsState σ) :
    Tracked good S fs.store (initMap L k checked dev row fs).2.store fun st st' =>
      initMap L' k checked dev row (fs.over st) =
        ((initMap L k checked dev row fs).1, (initMap L k checked dev row fs).2.over st') := by
  have hinit : ∀ st : τ, initMap L' k checked dev row (fs.over st) =
      if (fs.masterTab row).ptr k = 0 then
        if checked ∧ (fs.masterTab row).initFs = 0 then (some .fail, fs.over st) else
        let m := (fs.masterTab row).setPtr ((fs.masterTab row).mapStart k) k
        (masterGetMemPtr dev (fs.setMaster row m)).elim (some .fail, (fs.setMaster row m).over st)
          fun i =>
            let r := loadWindow L' k dev row (m.ptr k)
              ((fs.setMaster row (m.setWindow (fs.windowAddr k i) k)).over st)
            (if r.1 = .ok then none else some .fail, r.2)
      else (none, fs.over st) := fun st => initMap_eq L' k checked dev row (fs.over st)
  simp only [hinit]
  rw [initMap_eq]
  by_cases hp : (fs.masterTab row).ptr k = 0
  · simp only [if_pos hp]
    by_cases hc : checked = true ∧ (fs.masterTab row).initFs = 0
    · simp only [if_pos hc]
      exact Tracked.refl fun _ => rfl
    · simp only [if_neg hc]
      set m := (fs.masterTab row).setPtr ((fs.masterTab row).mapStart k) k
      cases masterGetMemPtr dev (fs.setMaster row m) with
      | none => exact Tracked.refl fun _ => rfl
      | some i =>
          simp only [Option.elim_some]
          refine (tracked_loadWindow hL k dev row (m.ptr k)
            (fs.setMaster row (m.setWindow (fs.windowAddr k i) k))).imp fun t t' h => ?_
          rw [h]
  · simp only [if_neg hp]
    exact Tracked.refl fun _ => rfl

/-- **A get over another store.** -/
theorem tracked_getBlock (block : BlockNo) (fs : FsState σ) :
    Tracked good S fs.store (getBlock L k dev block fs).2.2.store fun st st' =>
      getBlock L' k dev block (fs.over st) = GetResult.over (getBlock L k dev block fs) st' := by
  simp only [getBlock, masterGet_over, FsState.over_masterTab]
  cases hrow : masterGet dev fs with
  | none => exact Tracked.refl fun _ => rfl
  | some row =>
      simp only
      have hinit := tracked_initMap hL k dev row true fs
      rcases hi : initMap L k true dev row fs with ⟨r, fs₁⟩
      rw [hi] at hinit
      cases r with
      | some r =>
          refine hinit.imp fun t t' h => ?_
          rw [h]
          rfl
      | none =>
          refine hinit.trans (tracked_scanLoop hL k dev row _) fun t t' t'' h h' => ?_
          rw [h]
          exact h'

/-- A window that is loaded if it has to be. -/
theorem tracked_window {c : Prop} [Decidable c] (p : BlockNo) (fs : FsState σ) :
    Tracked good S fs.store
      (if c then loadWindow L k dev row p fs else (.ok, fs)).2.store fun st st' =>
      (if c then loadWindow L' k dev row p (fs.over st) else (.ok, fs.over st)) =
        ((if c then loadWindow L k dev row p fs else (.ok, fs)).1,
          (if c then loadWindow L k dev row p fs else (.ok, fs)).2.over st') := by
  split
  · exact tracked_loadWindow hL k dev row p fs
  · exact Tracked.refl fun _ => rfl

omit hL in
variable (L) in
theorem freeBlock_eq (block : BlockNo) (fs : FsState σ) :
    freeBlock L k dev block fs =
      match masterGet dev fs with
      | none => (.fail, fs)
      | some row =>
        match initMap L k false dev row fs with
        | (some r, fs) => (r, fs)
        | (none, fs) => freeBit L k dev row block fs := rfl

theorem tracked_freeBit (block : BlockNo) (fs : FsState σ) :
    Tracked good S fs.store (freeBit L k dev row block fs).2.store fun st st' =>
      freeBit L' k dev row block (fs.over st) =
        ((freeBit L k dev row block fs).1, (freeBit L k dev row block fs).2.over st') := by
  set m := fs.masterTab row with hm
  set ptr := (block - m.regionStart k) / 512 + m.mapStart k with hptr
  set bit := (block - m.regionStart k) % 512 with hbit
  have hfree : ∀ st : τ, freeBit L' k dev row block (fs.over st) =
      match (if ptr ≠ m.ptr k then loadWindow L' k dev row ptr
          ((fs.setMaster row (m.setBit bit k)).over st)
        else (.ok, (fs.setMaster row (m.setBit bit k)).over st)) with
      | (.ok, fs) =>
        if bitGet (fs.window k row) bit.toNat = 0 then (.ok, fs)
        else (.ok, fs.setWindow k row (bitSet (fs.window k row) bit.toNat 0))
      | (_, fs) => (.fail, fs) := fun _ => rfl
  simp only [hfree]
  rw [freeBit]
  simp only [← hm, ← hptr, ← hbit]
  have hload := tracked_window hL k dev row (c := ptr ≠ m.ptr k) ptr
    (fs.setMaster row (m.setBit bit k))
  rcases hl : (if ptr ≠ m.ptr k then loadWindow L k dev row ptr
    (fs.setMaster row (m.setBit bit k)) else (.ok, fs.setMaster row (m.setBit bit k)))
    with ⟨r, fs₁⟩
  rw [hl] at hload
  cases r with
  | ok =>
      by_cases hb : bitGet (fs₁.window k row) bit.toNat = 0
      · simp only [if_pos hb]
        refine hload.imp fun t t' h => ?_
        rw [h]
        exact if_pos hb
      · simp only [if_neg hb]
        refine hload.imp fun t t' h => ?_
        rw [h]
        exact if_neg hb
  | _ =>
      refine hload.imp fun t t' h => ?_
      rw [h]

/-- **A free over another store.** -/
theorem tracked_freeBlock (block : BlockNo) (fs : FsState σ) :
    Tracked good S fs.store (freeBlock L k dev block fs).2.store fun st st' =>
      freeBlock L' k dev block (fs.over st) =
        ((freeBlock L k dev block fs).1, (freeBlock L k dev block fs).2.over st') := by
  simp only [freeBlock_eq, masterGet_over]
  cases hrow : masterGet dev fs with
  | none => exact Tracked.refl fun _ => rfl
  | some row =>
      simp only
      have hinit := tracked_initMap hL k dev row false fs
      rcases hi : initMap L k false dev row fs with ⟨r, fs₁⟩
      rw [hi] at hinit
      cases r with
      | some r =>
          refine hinit.imp fun t t' h => ?_
          rw [h]
      | none =>
          refine hinit.trans (tracked_freeBit hL k dev row block fs₁) fun t t' t'' h h' => ?_
          rw [h]
          exact h'

end Allocators

end OxKernel.Fs
