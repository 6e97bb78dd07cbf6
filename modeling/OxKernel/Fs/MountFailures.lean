import OxKernel.Fs.AllocatorSpec

/-!
# What a failed mount leaves in the mount table

`inode_dev_open` takes a row with `master_alloc` and lets the reads of `BLOCK_START` fill
it. Of its failure exits two never give the row back, those after a failed read; the
others call `master_free`, which looks for the row by its `dev` field, and that field has
been read from the disk by then. A row that is given back holds the zeroed record, so a
mounted device that is opened again and fails loses its row as well.

The table is the same after a failed mount exactly in the cases of `RestoresTable`. The
storage below is any `BlockLayer`: every call of it may fail and deliver any bytes.

## Main definitions

* `RowTaken` — the row that `master_alloc` gives.
* `startRecord` — what the reads of `BLOCK_START` leave in the row.
* `FreedAlike`, `RestoresTable` — the exact condition.
-/
namespace OxKernel.Fs

/-- The record of a free row. -/
def Master.free : Master := { Master.zero with dev := inodeNopos }

section Table
variable {σ : Type} {s s₁ : FsState σ} {dev : DevNo} {row : Fin inodeNrDev} {x : Master}

/-! ## Taking a row and giving it back -/

/-- The row of `dev`, or, if it has none, a free one. -/
structure RowTaken (dev : DevNo) (row : Fin inodeNrDev) (s : FsState σ) : Prop where
  first : ∀ i < row, (s.masterTab i).dev ≠ dev.toUInt32
  own : (s.masterTab row).dev = dev.toUInt32 ∨
    (∀ i, (s.masterTab i).dev ≠ dev.toUInt32) ∧ (s.masterTab row).dev = inodeNopos

/-- The search finds the first row of the device. -/
theorem masterGet_eq_some : masterGet dev s = some row ↔
    (s.masterTab row).dev = dev.toUInt32 ∧ ∀ i < row, (s.masterTab i).dev ≠ dev.toUInt32 := by
  constructor
  · intro h
    have hrow := List.find?_some h
    refine ⟨by simpa using hrow, fun i hi he => ?_⟩
    obtain ⟨-, j, hj, hrow', hbefore⟩ := List.find?_eq_some_iff_getElem.mp h
    have hval : (row : ℕ) = j := by
      rw [← hrow']
      simp
    have hi' := hbefore i (by rw [← hval]; exact hi)
    simp [he] at hi'
  · intro h
    exact Lib.find?_finRange_eq_some (by simpa using h.1) fun i hi => by simpa using h.2 i hi

theorem masterGet_eq_none :
    masterGet dev s = none ↔ ∀ i, (s.masterTab i).dev ≠ dev.toUInt32 := by
  simp [masterGet]

/-- `master_alloc` gives a row as soon as one is free. -/
theorem masterAlloc_of_free {i : Fin inodeNrDev} (hi : (s.masterTab i).dev = inodeNopos) :
    ∃ row, RowTaken dev row s ∧
      masterAlloc dev s =
        (some row, s.setMaster row { s.masterTab row with dev := dev.toUInt32 }) := by
  cases hget : masterGet dev s with
  | some row =>
      obtain ⟨hrow, hfirst⟩ := masterGet_eq_some.mp hget
      have hself : s.setMaster row { s.masterTab row with dev := dev.toUInt32 } = s := by
        rw [← hrow]
        simp [FsState.setMaster]
      exact ⟨row, ⟨hfirst, .inl hrow⟩, by simp only [masterAlloc, hget, hself]⟩
  | none =>
      have hnone := masterGet_eq_none.mp hget
      cases hfind : (List.finRange inodeNrDev).find? fun i => (s.masterTab i).dev = inodeNopos with
      | some row =>
          have hrow : (s.masterTab row).dev = inodeNopos := by simpa using List.find?_some hfind
          exact ⟨row, ⟨fun i _ => hnone i, .inr ⟨hnone, hrow⟩⟩,
            by simp only [masterAlloc, hget, hfind]⟩
      | none =>
          rw [List.find?_eq_none] at hfind
          exact absurd hi (by simpa using hfind i (List.mem_finRange i))

/-- Giving back the row that now holds `x` leaves the table of `s`: the lookup finds the
row and it held the record of a free row, or the lookup misses and `x` was there before. -/
def FreedAlike (dev : DevNo) (row : Fin inodeNrDev) (x : Master) (s : FsState σ) : Prop :=
  x.dev = dev.toUInt32 ∧ s.masterTab row = Master.free ∨
    x.dev ≠ dev.toUInt32 ∧ x = s.masterTab row

/-- A lookup that misses the row finds another one only if the device had two. -/
theorem RowTaken.own_of_masterGet {i : Fin inodeNrDev} (h : RowTaken dev row s)
    (htab : s₁.masterTab = Function.update s.masterTab row x) (hx : x.dev ≠ dev.toUInt32)
    (hget : masterGet dev s₁ = some i) : i ≠ row ∧ (s.masterTab row).dev = dev.toUInt32 := by
  obtain ⟨hi, -⟩ := masterGet_eq_some.mp hget
  rw [htab] at hi
  have hne : i ≠ row := by
    intro he
    simp [he, hx] at hi
  refine ⟨hne, h.own.resolve_right fun hfree => ?_⟩
  rw [Function.update_of_ne hne] at hi
  exact hfree.1 i hi

/-- **`master_free` after the row was filled with `x`** restores the table exactly when
`FreedAlike` says so. -/
theorem masterFree_restores_iff (h : RowTaken dev row s)
    (htab : s₁.masterTab = Function.update s.masterTab row x) :
    (masterFree dev s₁).masterTab = s.masterTab ↔ FreedAlike dev row x s := by
  by_cases hx : x.dev = dev.toUInt32
  · have hget : masterGet dev s₁ = some row := by
      refine masterGet_eq_some.mpr ⟨by simpa [htab] using hx, fun i hi => ?_⟩
      rw [htab, Function.update_of_ne hi.ne]
      exact h.first i hi
    simp only [masterFree, hget, FsState.setMaster, htab, Function.update_idem, FreedAlike, hx]
    simp [Master.free, eq_comm]
  · cases hget : masterGet dev s₁ with
    | some i =>
        obtain ⟨hne, hown⟩ := h.own_of_masterGet htab hx hget
        have hnot : x ≠ s.masterTab row := by
          intro he
          exact hx (by rw [he, hown])
        simp only [FreedAlike, hx, hnot, false_and, and_false, or_self, iff_false]
        intro he
        have hrow := congrFun he row
        simp only [masterFree, hget, FsState.setMaster, htab, Function.update_of_ne hne.symm,
          Function.update_self] at hrow
        exact hnot hrow
    | none =>
        simp [masterFree, hget, htab, FreedAlike, hx]

end Table

/-! ## The reads of a mount -/

section Mount
variable {σ : Type} {L : BlockLayer σ} {s s₁ : FsState σ} {dev : DevNo} {row : Fin inodeNrDev}
  {x : Master}

/-- Closing the device does not touch the table. -/
theorem mountFail_masterTab (r : InodeRtvl) (dev : DevNo) (free : Bool) (s : FsState σ) :
    (mountFail L r dev free s).2.2.masterTab =
      if free then (masterFree dev s).masterTab else s.masterTab := by
  cases free <;> rfl

theorem loadWindow_row (k : MapKind) (p : BlockNo)
    (htab : s₁.masterTab = Function.update s.masterTab row x) :
    ∃ r s₂, loadWindow L k dev row p s₁ = (r, s₂) ∧
      s₂.masterTab = Function.update s.masterTab row (x.setPtr p k) := by
  refine ⟨_, _, rfl, ?_⟩
  simp [FsState.setMaster, FsState.setWindow, htab]

/-- Loading a map changes the row of the master and not its `dev` field. -/
theorem mountMap_row (k : MapKind) (i : Fin inodeNrDev)
    (htab : s₁.masterTab = Function.update s.masterTab row x) :
    ∃ r s₂ x', mountMap L k dev row i s₁ = (r, s₂) ∧
      s₂.masterTab = Function.update s.masterTab row x' ∧ x'.dev = x.dev := by
  have hset : ∀ m, (s₁.setMaster row m).masterTab = Function.update s.masterTab row m := by
    intro m
    simp [FsState.setMaster, htab]
  have hrow : s₁.masterTab row = x := by simp [htab]
  rw [mountMap]
  simp only [hrow]
  split
  · obtain ⟨r, s₂, heq, htab₂⟩ := @loadWindow_row σ L s _ dev row _ k
      ((x.setWindow (s₁.windowAddr k i) k).mapStart k) (hset _)
    exact ⟨r, s₂, _, heq, htab₂, by cases k <;> rfl⟩
  · obtain ⟨r, s₂, heq, htab₂⟩ := @loadWindow_row σ L s _ dev row _ k
      ((x.setWindow (s₁.windowAddr k i) k).ptr k) (hset _)
    exact ⟨r, s₂, _, heq, htab₂, by cases k <;> rfl⟩

/-- The end of a mount, when it fails, gives the row back. -/
theorem mountMaps_restores_iff (h : RowTaken dev row s)
    (htab : s₁.masterTab = Function.update s.masterTab row x)
    (hfail : (mountMaps L dev row s₁).1 ≠ .ok) :
    (mountMaps L dev row s₁).2.2.masterTab = s.masterTab ↔ FreedAlike dev row x s := by
  -- A map that is loaded does not change what the lookup of the row depends on.
  have hmap : ∀ {i : Fin inodeNrDev} {x' : Master} {s₂ : FsState σ},
      masterGet dev s₁ = some i → s₂.masterTab = Function.update s.masterTab row x' →
      x'.dev = x.dev → ((masterFree dev s₂).masterTab = s.masterTab ↔ FreedAlike dev row x s) := by
    intro i x' s₂ hget htab' hdev
    rw [masterFree_restores_iff h htab', FreedAlike, FreedAlike, hdev]
    by_cases hx : x.dev = dev.toUInt32
    · simp [hx]
    · obtain ⟨-, hown⟩ := h.own_of_masterGet htab hx hget
      have hne : ∀ y : Master, y.dev = x.dev → y ≠ s.masterTab row := by
        intro y hy he
        exact hx (by rw [← hy, he, hown])
      simp [hx, hne x rfl, hne x' hdev]
  rw [mountMaps] at hfail ⊢
  split
  · rw [mountFail_masterTab]
    exact masterFree_restores_iff h htab
  · rename_i hinit
    rw [if_neg hinit] at hfail
    cases hget : masterGetMemPtr dev s₁ with
    | none =>
        simp only [mountFail_masterTab, if_true]
        exact masterFree_restores_iff h htab
    | some i =>
        obtain ⟨r, s₂, x₂, heq, htab₂, hdev₂⟩ := @mountMap_row σ L s s₁ dev row x .bmap i htab
        simp only [hget, heq] at hfail ⊢
        cases r with
        | ok =>
            obtain ⟨r', s₃, x₃, heq', htab₃, hdev₃⟩ :=
              @mountMap_row σ L s s₂ dev row x₂ .imap i htab₂
            simp only [heq'] at hfail ⊢
            cases r' with
            | ok => exact absurd rfl hfail
            | _ =>
                simp only [mountFail_masterTab, if_true]
                exact hmap hget htab₃ (hdev₃.trans hdev₂)
        | _ =>
            simp only [mountFail_masterTab, if_true]
            exact hmap hget htab₂ hdev₂

/-- What the reads of `BLOCK_START` leave in a row that held `m`, and whether the last of
them succeeded. A block without the magic number is read once more past the cache. -/
def startRecord (L : BlockLayer σ) (dev : DevNo) (m : Master) (st : σ) : Bool × Master :=
  match L.blockRead dev blockStart (Master.layout m) st with
  | (.ok, data, st) =>
    if (Master.layout.symm data).magic = inodeMagic then (true, Master.layout.symm data)
    else
      match L.devRead dev blockStart data st with
      | (.ok, data, _) => (true, Master.layout.symm data)
      | (_, data, _) => (false, Master.layout.symm data)
  | (_, data, _) => (false, Master.layout.symm data)

/-- When a failed mount leaves the table as it was: the device did not open; or a read of
`BLOCK_START` failed and left in the row the record that was there before; or the row
was given back and that made no difference. -/
def RestoresTable (L : BlockLayer σ) (path : String) (dev : DevNo) (s : FsState σ) : Prop :=
  match L.blockOpen path dev s.store with
  | (.ok, dev, st) =>
    match masterAlloc dev { s with store := st } with
    | (some row, s') =>
      match startRecord L dev (s'.masterTab row) st with
      | (true, x) => FreedAlike dev row x s
      | (false, x) => x = s.masterTab row
    | (none, _) => True
  | _ => True

/-- `inode_dev_open` once it has a row. -/
def mountRow (L : BlockLayer σ) (dev : DevNo) (row : Fin inodeNrDev) (s : FsState σ) :
    InodeRtvl × DevNo × FsState σ :=
  match L.blockRead dev blockStart (Master.layout (s.masterTab row)) s.store with
  | (.ok, data, st) =>
    let s := { s.setMaster row (Master.layout.symm data) with store := st }
    if (s.masterTab row).magic = inodeMagic then mountMaps L dev row s
    else
      match L.devRead dev blockStart (Master.layout (s.masterTab row)) s.store with
      | (.ok, data, st) =>
        let s := { s.setMaster row (Master.layout.symm data) with store := st }
        if (s.masterTab row).magic = inodeMagic then mountMaps L dev row s
        else mountFail L .init dev true s
      | (_, data, st) =>
        mountFail L .init dev false { s.setMaster row (Master.layout.symm data) with store := st }
  | (_, data, st) =>
    mountFail L .fail dev false { s.setMaster row (Master.layout.symm data) with store := st }

theorem inodeDevOpen_eq {path : String} {d : DevNo} {st : σ}
    (hopen : L.blockOpen path dev s.store = (.ok, d, st)) :
    inodeDevOpen L path dev s =
      match masterAlloc d (masterInit { s with store := st }) with
      | (none, s) => mountFail L .fail d false s
      | (some row, s) => mountRow L d row s := by
  rw [inodeDevOpen, hopen]
  rfl

/-- The row after the reads of `BLOCK_START`, and what becomes of it. -/
theorem mountRow_restores_iff {m : Master} (h : RowTaken dev row s)
    (htab : s₁.masterTab = Function.update s.masterTab row m)
    (hfail : (mountRow L dev row s₁).1 ≠ .ok) :
    (mountRow L dev row s₁).2.2.masterTab = s.masterTab ↔
      match startRecord L dev m s₁.store with
      | (true, x) => FreedAlike dev row x s
      | (false, x) => x = s.masterTab row := by
  have hrow : s₁.masterTab row = m := by simp [htab]
  have hset : ∀ x, (s₁.setMaster row x).masterTab = Function.update s.masterTab row x := by
    intro x
    simp [FsState.setMaster, htab]
  simp only [mountRow, hrow, startRecord] at hfail ⊢
  obtain ⟨r, data, st, hread⟩ : ∃ r data st,
      L.blockRead dev blockStart (Master.layout m) s₁.store = (r, data, st) := ⟨_, _, _, rfl⟩
  simp only [hread] at hfail ⊢
  cases r with
  | ok =>
      simp only [FsState.setMaster_masterTab] at hfail ⊢
      by_cases hmagic : (Master.layout.symm data).magic = inodeMagic
      · simp only [hmagic, if_true] at hfail ⊢
        exact mountMaps_restores_iff h (hset _) hfail
      · simp only [hmagic, if_false, Equiv.apply_symm_apply] at hfail ⊢
        obtain ⟨r', data', st', hread'⟩ : ∃ r' data' st',
            L.devRead dev blockStart data st = (r', data', st') := ⟨_, _, _, rfl⟩
        simp only [hread'] at hfail ⊢
        cases r' with
        | ok =>
            simp only at hfail ⊢
            by_cases hmagic' : (Master.layout.symm data').magic = inodeMagic
            · simp only [hmagic', if_true] at hfail ⊢
              refine mountMaps_restores_iff h ?_ hfail
              simp [FsState.setMaster, htab]
            · simp only [hmagic', if_false, mountFail_masterTab, if_true]
              refine masterFree_restores_iff h ?_
              simp [FsState.setMaster, htab]
        | _ => simp [mountFail_masterTab, FsState.setMaster, htab]
  | _ => simp [mountFail_masterTab, hset]

/-- **A failed mount leaves the mount table as it was exactly when `RestoresTable` holds.**
For every table with a free row, every device, and whatever the reads of the storage
below deliver. -/
theorem inodeDevOpen_restores_iff (hinit : s.initMaster = true)
    (hfree : ∃ i, (s.masterTab i).dev = inodeNopos) (path : String) (dev : DevNo)
    (hfail : (inodeDevOpen L path dev s).1 ≠ .ok) :
    (inodeDevOpen L path dev s).2.2.masterTab = s.masterTab ↔ RestoresTable L path dev s := by
  obtain ⟨i, hi⟩ := hfree
  rw [RestoresTable]
  cases hopen : L.blockOpen path dev s.store with
  | mk r a =>
      obtain ⟨d, st⟩ := a
      cases r with
      | ok =>
          have hinit' : masterInit { s with store := st } = { s with store := st } := by
            simp [masterInit, hinit]
          obtain ⟨row, hrow, halloc⟩ :=
            @masterAlloc_of_free σ { s with store := st } d i hi
          rw [inodeDevOpen_eq hopen] at hfail ⊢
          simp only [hinit', halloc, FsState.setMaster_masterTab] at hfail ⊢
          exact mountRow_restores_iff ⟨hrow.first, hrow.own⟩ rfl hfail
      | _ => simp [inodeDevOpen, hopen]

end Mount

/-! ## A device without the file system -/

/-- An initialized table without a mounted device, over a store that holds `m` at
`BLOCK_START`. -/
def unmounted (m : Master) : FsState Disk where
  store _ _ := Master.layout m
  masterTab _ := Master.free
  window _ _ := Sector.zero
  initMaster := true
  windowAddr _ _ := 0

/-- A block of another format with the number `d` where the master has its device. -/
def alienMaster (d : BlockNo) : Master := { Master.zero with magic := 0, dev := d }

theorem unmounted_open (m : Master) (path : String) :
    inodeDevOpen flatStore path 0 (unmounted m) =
      mountRow flatStore 0 0 ((unmounted m).setMaster 0 { Master.free with dev := 0 }) := by
  rw [inodeDevOpen_eq rfl]
  rfl

theorem unmounted_alloc (m : Master) :
    masterAlloc 0 { unmounted m with store := (unmounted m).store } =
      (some 0, (unmounted m).setMaster 0 { Master.free with dev := 0 }) := rfl

theorem unmounted_rowTaken (m : Master) : RowTaken 0 0 (unmounted m) where
  first i hi := absurd hi (Fin.not_lt_zero i)
  own := .inr ⟨fun _ => (by decide : inodeNopos ≠ 0), rfl⟩

theorem alienMaster_startRecord (d : BlockNo) (m : Master) :
    startRecord flatStore 0 m (unmounted (alienMaster d)).store = (true, alienMaster d) := by
  have hmagic : (alienMaster d).magic ≠ inodeMagic := (by decide : (0 : Int16) ≠ 1925)
  simp [startRecord, flatStore, kernelDev, unmounted, hmagic]

theorem alienMaster_fails (d : BlockNo) (path : String) :
    (inodeDevOpen flatStore path 0 (unmounted (alienMaster d))).1 = .init := by
  have hmagic : (alienMaster d).magic ≠ inodeMagic := (by decide : (0 : Int16) ≠ 1925)
  rw [unmounted_open, mountRow]
  simp [flatStore, kernelDev, unmounted, FsState.setMaster, hmagic, mountFail]

/-- Mounting a device without the magic number fails, and its bytes stay in the table
when they do not name the device. -/
theorem alienMaster_stays :
    (∃ i, ((unmounted (alienMaster 7)).masterTab i).dev = inodeNopos) ∧
      (inodeDevOpen flatStore "/dev/hdb" 0 (unmounted (alienMaster 7))).1 ≠ .ok ∧
      (inodeDevOpen flatStore "/dev/hdb" 0 (unmounted (alienMaster 7))).2.2.masterTab ≠
        (unmounted (alienMaster 7)).masterTab := by
  have hfail := alienMaster_fails 7 "/dev/hdb"
  refine ⟨⟨0, rfl⟩, by simp [hfail], ?_⟩
  rw [unmounted_open] at hfail ⊢
  intro htab
  have hfreed := (mountRow_restores_iff (unmounted_rowTaken _) rfl (by simp [hfail])).mp htab
  simp only [FsState.setMaster, alienMaster_startRecord] at hfreed
  rcases hfreed with ⟨hdev, -⟩ | ⟨-, hsame⟩
  · exact absurd hdev (by decide)
  · exact absurd (congrArg Master.dev hsame) (by decide)

/-- When they do name it, the row is found and given back. -/
theorem inodeDevOpen_restores_alien :
    (inodeDevOpen flatStore "/dev/hdb" 0 (unmounted (alienMaster 0))).2.2.masterTab =
      (unmounted (alienMaster 0)).masterTab := by
  have hfail : (inodeDevOpen flatStore "/dev/hdb" 0 (unmounted (alienMaster 0))).1 ≠ .ok := by
    simp [alienMaster_fails]
  refine (inodeDevOpen_restores_iff rfl ⟨0, rfl⟩ "/dev/hdb" 0 hfail).mpr ?_
  have hopen : flatStore.blockOpen "/dev/hdb" 0 (unmounted (alienMaster 0)).store =
      (.ok, 0, (unmounted (alienMaster 0)).store) := rfl
  simp only [RestoresTable, hopen, unmounted_alloc, FsState.setMaster_masterTab,
    alienMaster_startRecord]
  exact .inl ⟨rfl, rfl⟩

end OxKernel.Fs
