import OxKernel.Fs.AllocatorRecord
import OxKernel.Lib.Reach

/-!
# Unmounting and mounting again

`inode_dev_close` writes the two windows and then the master, and gives the row of the mount
table back; `inode_dev_open` reads the master and loads the windows where it points to. The
master and the two map blocks are three different blocks, so what is read is what was
written, wherever the cursors are. The table that maps paths to devices, which a close
clears, is left out.

## Main definitions

* `blockClose`, `inodeDevClose` — closing a device.
* `DeviceCall`, `deviceSystem` — what can happen to a mounted device, and its runs.
* `Remountable` — the invariant of these runs.
-/
namespace OxKernel.Fs

open Lib (System)

/-! ## Closing -/

section Close
variable {σ : Type} (L : BlockLayer σ)

/-- `block_close`. Where the source has no return statement it returns `BLOCK_OK`. -/
def blockClose (dev : DevNo) (st : σ) : BlockRtvl × σ :=
  let a := L.blockSync dev st
  let b := L.devClose dev a.2
  (if a.1 ≠ .ok ∨ b.1 ≠ .ok then .fail else .ok, b.2)

/-- `inode_dev_close`. -/
def inodeDevClose (dev : DevNo) (s : FsState σ) : InodeRtvl × FsState σ :=
  match masterGet dev s with
  | none => (.fail, s)
  | some row =>
    let m := s.masterTab row
    match L.blockWrite dev m.imapPtr (s.window .imap row) s.store with
    | (.ok, st) =>
      match L.blockWrite dev m.bmapPtr (s.window .bmap row) st with
      | (.ok, st) =>
        match L.blockWrite dev m.blockStart (Master.layout m) st with
        | (.ok, st) =>
          match blockClose L dev st with
          | (.ok, st) => (.ok, masterFree dev { s with store := st })
          | (_, st) => (.fail, { s with store := st })
        | (_, st) => (.fail, { s with store := st })
      | (_, st) => (.fail, { s with store := st })
    | (_, st) => (.fail, { s with store := st })

end Close

/-! ## The round trip -/

/-- A device that can be unmounted and mounted again: it is mounted, its master is at
`BLOCK_START`, and the master says that there is a file system. -/
structure Remountable (g : Shape) (row : Fin inodeNrDev) (s : FsState Disk) : Prop
    extends MapsOk g 0 row s where
  blockStart : g.blockStart = blockStart
  dev : g.dev = 0
  magic : (s.masterTab row).magic = inodeMagic
  initFs : (s.masterTab row).initFs = 1
  init : s.initMaster = true

section Trip
variable {g : Shape} {row row' : Fin inodeNrDev} {s s' : FsState Disk} {k : MapKind}

/-- The store after closing. -/
def closedStore (row : Fin inodeNrDev) (s : FsState Disk) : Disk :=
  ((s.store.set 0 ((s.masterTab row).ptr .imap) (s.window .imap row)).set 0
    ((s.masterTab row).ptr .bmap) (s.window .bmap row)).set 0 (s.masterTab row).blockStart
    (Master.layout (s.masterTab row))

/-- The state after closing. -/
def closed (row : Fin inodeNrDev) (s : FsState Disk) : FsState Disk :=
  { s.setMaster row { Master.zero with dev := inodeNopos } with store := closedStore row s }

/-- **Closing a mounted device** succeeds. -/
theorem inodeDevClose_flat (h : masterGet 0 s = some row) :
    inodeDevClose flatStore 0 s = (.ok, closed row s) := by
  have hget : masterGet 0 { s with store := closedStore row s } = some row := h
  have hfree : masterFree 0 { s with store := closedStore row s } = closed row s := by
    rw [masterFree, hget]
    rfl
  rw [inodeDevClose, h, ← hfree]
  rfl

namespace Remountable

theorem blockStart_eq (h : Remountable g row s) : (s.masterTab row).blockStart = Fs.blockStart := by
  have hshape := congrArg Shape.blockStart h.shape
  exact hshape.trans h.blockStart

/-- The master is written last. -/
theorem closedStore_master (h : Remountable g row s) :
    closedStore row s 0 Fs.blockStart = Master.layout (s.masterTab row) := by
  rw [closedStore, h.blockStart_eq, Disk.set_self]

/-- A map block after closing is as in the window, or as before. -/
theorem closedStore_map (h : Remountable g row s) {p : BlockNo} (hp : g.InMap k p) :
    closedStore row s 0 p = mapContents 0 row s k p := by
  have hmaster : p ≠ Fs.blockStart := by
    rw [← h.blockStart]
    exact InMap.ne_blockStart h.sound hp
  have hother : ∀ k', k' ≠ k → p ≠ (s.masterTab row).ptr k' := fun k' hk =>
    InMap.ne_of_ne h.sound (h.ptr k') hp hk.symm
  rw [closedStore, h.blockStart_eq, Disk.set_of_ne fun he => hmaster he.2, mapContents]
  cases k with
  | imap =>
      rw [Disk.set_of_ne fun he => hother .bmap (by decide) he.2]
      split
      · rename_i heq
        rw [heq, Disk.set_self]
      · rename_i hne
        rw [Disk.set_of_ne fun he => hne he.2]
  | bmap =>
      split
      · rename_i heq
        rw [heq, Disk.set_self]
      · rename_i hne
        rw [Disk.set_of_ne fun he => hne he.2, Disk.set_of_ne fun he => hother .imap (by decide) he.2]

end Remountable

/-- A master with its cursors set keeps them. -/
theorem loaded_of_ptr {m : Master} (hptr : ∀ k, m.ptr k ≠ 0) (s : FsState Disk)
    (row : Fin inodeNrDev) :
    m.loaded s row =
      { m with
        imap := s.windowAddr .imap row
        bmap := s.windowAddr .bmap row } := by
  have hbmap : m.loadedMap (s.windowAddr .bmap row) .bmap =
      { m with bmap := s.windowAddr .bmap row } := by
    rw [Master.loadedMap, if_neg (hptr .bmap)]
    rfl
  have himap : ({ m with bmap := s.windowAddr .bmap row } : Master).ptr .imap ≠ 0 := hptr .imap
  rw [Master.loaded, hbmap, Master.loadedMap, if_neg himap]
  rfl

namespace Remountable

/-- There is a row for the device after closing it. -/
theorem exists_rowFor_closed : ∃ row', RowFor (closed row s) row' := by
  refine exists_rowFor (i := row) (Or.inr ?_)
  rw [closed]
  exact congrArg Master.dev (FsState.setMaster_masterTab ..)

/-- **Closing and opening**: the master is as before apart from where its windows are, and so
are the contents of the maps. -/
theorem reopen (h : Remountable g row s) (path : String) (dev : DevNo) :
    ∃ s' row', inodeDevOpen flatStore path dev (closed row s) = (.ok, 0, s') ∧
      s'.masterTab row' = { s.masterTab row with
        imap := s'.windowAddr .imap row'
        bmap := s'.windowAddr .bmap row' } ∧
      Remountable g row' s' ∧
      ∀ k p, g.InMap k p → mapContents 0 row' s' k p = mapContents 0 row s k p := by
  obtain ⟨row', hrow⟩ := @exists_rowFor_closed row s
  have hdev : (s.masterTab row).dev = 0 := (congrArg Shape.dev h.shape).trans h.dev
  have hmap : ∀ k p, g.InMap k p → (closed row s).store 0 p = mapContents 0 row s k p := fun k p hp =>
    h.closedStore_map hp
  have hopen := @inodeDevOpen_flat (closed row s) row' (s.masterTab row) h.init hrow
    h.closedStore_master hdev h.magic h.initFs path dev
  have htab : (opened row' (s.masterTab row) (closed row s)).masterTab row' = { s.masterTab row with
      imap := (closed row s).windowAddr .imap row'
      bmap := (closed row s).windowAddr .bmap row' } :=
    opened_masterTab.trans (loaded_of_ptr (fun k => h.ptr_ne_zero) _ _)
  have hptr : ∀ k, ((s.masterTab row).loaded (closed row s) row').ptr k = (s.masterTab row).ptr k := by
    intro k
    rw [loaded_ptr, if_neg h.ptr_ne_zero]
  refine ⟨_, row', hopen, htab, ⟨⟨h.sound, ?_, ?_, ?_, ?_⟩, h.blockStart, h.dev, ?_, ?_, h.init⟩, ?_⟩
  · exact masterGet_setMaster hrow ((congrArg Shape.dev (loaded_shape ..)).trans hdev)
  · rw [opened_masterTab, loaded_shape, h.shape]
  · intro k
    rw [opened_masterTab, hptr]
    exact h.ptr k
  · intro k
    rw [opened_masterTab, loaded_bit, if_neg h.ptr_ne_zero]
    exact h.bit k
  · rw [opened_masterTab, (loaded_head ..).1, h.magic]
  · rw [opened_masterTab, (loaded_head ..).2, h.initFs]
  · intro k p hp
    rw [mapContents, opened_masterTab, hptr, opened_window, hptr]
    split
    · rename_i heq
      rw [← heq]
      exact hmap k p hp
    · exact hmap k p hp

end Remountable

/-! ## Runs of a mounted device -/

/-- What happens to a mounted device: blocks are taken, given back and written, and it is
unmounted and mounted again. -/
inductive DeviceCall
  | get (k : MapKind) (block : BlockNo)
  | free (k : MapKind) (b : BlockNo)
  | write (dev : DevNo) (b : BlockNo) (data : Sector)
  | remount (path : String) (dev : DevNo)

/-- The state after a call. -/
def DeviceCall.run (s : FsState Disk) : DeviceCall → FsState Disk
  | .get k block => (inodeGetBlock k 0 block s).2.2
  | .free k b => (inodeFreeBlock k 0 b s).2
  | .write dev b data => s.write dev b data
  | .remount path dev => (inodeDevOpen flatStore path dev (inodeDevClose flatStore 0 s).2).2.2

/-- A block that is given back is one that the map has a bit for, as every block is that has
been taken. -/
def DeviceCall.Proper (s : FsState Disk) : DeviceCall → Prop
  | .free k b => ∀ row, masterGet 0 s = some row → (s.masterTab row).shape.Covers k b
  | _ => True

/-- A device from its first mount on, after `inode_mkfs`. -/
def deviceSystem : System (FsState Disk) DeviceCall where
  init s := ∃ path size s₀ s₁ path' dev, inodeMkfs flatStore path size s₀ = (.ok, s₁) ∧
    inodeDevOpen flatStore path' dev s₁ = (.ok, 0, s)
  step c s s' := s' = c.run s

namespace Remountable

/-- Another cursor and another window. -/
theorem scanned (h : Remountable g row s) {p b : BlockNo} {w : Sector} (hp : g.InMap k p)
    (hb : b.toNat < 512) : Remountable g row (scanned s k row p b w) where
  toMapsOk := h.toMapsOk.scanned hp hb
  blockStart := h.blockStart
  dev := h.dev
  magic := by
    rw [scanned_masterTab]
    cases k <;> exact h.magic
  initFs := by
    rw [scanned_masterTab]
    cases k <;> exact h.initFs
  init := h.init

/-- Another store. -/
theorem setStore (h : Remountable g row s) (st : Disk) : Remountable g row { s with store := st } :=
  ⟨⟨h.sound, h.mounted, h.shape, h.ptr, h.bit⟩, h.blockStart, h.dev, h.magic, h.initFs, h.init⟩

/-- **One call** keeps the device so that it can be mounted again. -/
theorem run (h : Remountable g row s) {c : DeviceCall} (hc : c.Proper s) :
    ∃ row', Remountable g row' (c.run s) := by
  cases c with
  | get k block =>
      refine ⟨row, ?_⟩
      rw [DeviceCall.run, inodeGetBlock_eq]
      rcases getBlock_flat (k := k) h.toMapsOk block with ht | ⟨-, -, hr⟩
      · obtain ⟨p, i, w, hp, hi, -, -, -, hr⟩ := ht
        rw [hr]
        exact (h.scanned hp hi).setStore _
      · rw [hr]
        exact h.scanned ⟨le_rfl, h.sound.nonempty k⟩ (by decide)
  | free k b =>
      refine ⟨row, ?_⟩
      have hcov : g.Covers k b := by
        rw [← h.shape]
        exact hc row h.mounted
      obtain ⟨w, hr, -⟩ := freeBlock_flat h.toMapsOk hcov
      rw [DeviceCall.run, inodeFreeBlock_eq, hr]
      exact h.scanned (Shape.inMap_ptrOf h.sound hcov) (Shape.bitOf_lt hcov)
  | write dev b data => exact ⟨row, h.setStore _⟩
  | remount path dev =>
      obtain ⟨s', row', hopen, -, hs', -⟩ := h.reopen path dev
      refine ⟨row', ?_⟩
      rw [DeviceCall.run, inodeDevClose_flat h.mounted, hopen]
      exact hs'

end Remountable

/-- **A device stays mountable** over every run. -/
theorem deviceSystem_remountable (h : deviceSystem.Reach DeviceCall.Proper s) :
    ∃ g row, Remountable g row s := by
  refine System.Reach.invariant (P := fun s => ∃ g row, Remountable g row s) ?_ ?_ h
  · rintro s ⟨path, size, s₀, s₁, path', dev, hmk, hopen⟩
    obtain ⟨row, hrow⟩ := exists_rowFor_made hmk
    obtain ⟨s', hs', hfresh, hinit, hmagic, hfs⟩ := mount_fresh hmk hrow dev
    have hnumbers := volumeShape_numbers (volumeSize_lt (size - 2097152))
    have hpath : inodeDevOpen flatStore path' dev s₁ = inodeDevOpen flatStore path dev s₁ := rfl
    rw [hpath, hs'] at hopen
    cases hopen
    exact ⟨_, row, hfresh.ok, rfl, hnumbers.dev, hmagic, hfs, hinit⟩
  · rintro s c s' ⟨g, row, hs⟩ hc rfl
    obtain ⟨row', hs'⟩ := hs.run hc
    exact ⟨g, row', hs'⟩

/-- **Unmounting and mounting again keeps the state of the allocators.** From every state that
a device made by `inode_mkfs` reaches, both calls succeed, the master is as before apart from
the addresses of its windows, and each map records the same blocks as allocated. -/
theorem remount_keeps (h : deviceSystem.Reach DeviceCall.Proper s) (path : String) (dev : DevNo) :
    ∃ s₁ s₂ row row', inodeDevClose flatStore 0 s = (.ok, s₁) ∧
      inodeDevOpen flatStore path dev s₁ = (.ok, 0, s₂) ∧
      masterGet 0 s = some row ∧ masterGet 0 s₂ = some row' ∧
      s₂.masterTab row' = { s.masterTab row with
        imap := s₂.windowAddr .imap row'
        bmap := s₂.windowAddr .bmap row' } ∧
      ∀ k b, (s.masterTab row).shape.Covers k b →
        recorded (s.masterTab row).shape 0 row' s₂ k b = recorded (s.masterTab row).shape 0 row s k b := by
  obtain ⟨g, row, hs⟩ := deviceSystem_remountable h
  obtain ⟨s₂, row', hopen, htab, hs₂, hmaps⟩ := hs.reopen path dev
  refine ⟨closed row s, s₂, row, row', inodeDevClose_flat hs.mounted, hopen, hs.mounted, hs₂.mounted,
    htab, fun k b hb => ?_⟩
  rw [hs.shape] at hb ⊢
  rw [recorded, recorded, hmaps k _ (Shape.inMap_ptrOf hs.sound hb)]

end Trip

/-- On a volume of 10240 blocks, with a data block taken. -/
theorem remount_keeps_get :
    ∃ s₁ s₂ row row',
      inodeDevClose flatStore 0 (DeviceCall.run (mountedVolume 5242880) (.get .bmap 0)) = (.ok, s₁) ∧
      inodeDevOpen flatStore "/" 0 s₁ = (.ok, 0, s₂) ∧
      masterGet 0 (DeviceCall.run (mountedVolume 5242880) (.get .bmap 0)) = some row ∧
      masterGet 0 s₂ = some row' ∧
      s₂.masterTab row' =
        { (DeviceCall.run (mountedVolume 5242880) (.get .bmap 0)).masterTab row with
          imap := s₂.windowAddr .imap row'
          bmap := s₂.windowAddr .bmap row' } := by
  have hmade : inodeMkfs flatStore "/" 7340032 (FsState.boot fun _ _ => Sector.zero) =
      (.ok, madeVolume 5242880) := madeVolume_eq rfl
  have hinit : deviceSystem.init (mountedVolume 5242880) :=
    ⟨"/", 7340032, _, _, "/", 0, hmade, (mountedVolume_spec rfl).1⟩
  have hreach : deviceSystem.Reach DeviceCall.Proper
      (DeviceCall.run (mountedVolume 5242880) (.get .bmap 0)) :=
    .step (c := .get .bmap 0) (.init hinit) trivial rfl
  obtain ⟨s₁, s₂, row, row', hclose, hopen, hget, hget', htab, -⟩ := remount_keeps hreach "/" 0
  exact ⟨s₁, s₂, row, row', hclose, hopen, hget, hget', htab⟩

end OxKernel.Fs
