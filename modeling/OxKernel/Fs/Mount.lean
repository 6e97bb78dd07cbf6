import OxKernel.Fs.AllocatorSpec

/-!
# A freshly made and mounted volume

`inode_create_fs` at `BLOCK_START` followed by `inode_dev_open` on the flat store: the
mount succeeds, the shape of the volume is a function of its size alone, both maps are
clear on disk and in their windows, and the cursors are at the first bit. (A file
system made at another block is not found by `inode_dev_open`, which looks at
`BLOCK_START` only.)

## Main definitions

* `volumeShape` — the shape of a volume of `n` blocks.
* `RowFor` — the mount table has a row for the device.
* `Fresh` — a mounted volume nothing has been allocated on.
* `mountedVolume` — such a volume of a given size.
-/
namespace OxKernel.Fs

/-! ## The shape of a volume -/

/-- The shape of a volume of `n` blocks on device 0. -/
def volumeShape (n : BlockNo) : Shape :=
  ({ Master.zero with dev := 0 } : Master).format blockStart n |>.shape

/-- The inodes of a volume of `n` blocks. -/
def volumeInodes (n : ℕ) : ℕ := n * 20 / 100

/-- The data blocks of a volume of `n` blocks. -/
def volumeBlocks (n : ℕ) : ℕ := n * 80 / 100

/-- The number of map blocks for `n` bits: a map block is counted as 4096 bits, and
there is at least one. -/
def mapBlocks (n : ℕ) : ℕ := max 1 (n / 4096)

/-- The number of inodes or data blocks. -/
def volumeCount (n : ℕ) : MapKind → ℕ
  | .imap => volumeInodes n
  | .bmap => volumeBlocks n

section Shape
variable {n : BlockNo}

theorem mapBlocks_toNat {x : BlockNo} :
    (if x / 8 / 512 = 0 then x / 8 / 512 + 1 else x / 8 / 512).toNat = mapBlocks x.toNat := by
  have hx := x.toNat_lt
  have hdiv : (x / 8 / 512).toNat = x.toNat / 4096 := by
    simp only [UInt32.toNat_div, UInt32.toNat_ofNat, Nat.reducePow, Nat.reduceMod]
    omega
  simp only [Nat.reducePow] at hx
  split
  · rename_i h0
    have h0' := congrArg UInt32.toNat h0
    simp only [hdiv, UInt32.toNat_ofNat, Nat.reducePow, Nat.reduceMod] at h0'
    simp only [mapBlocks, UInt32.toNat_add, hdiv, UInt32.toNat_ofNat, Nat.reducePow, Nat.reduceMod]
    omega
  · rename_i h0
    have h0' : ¬ x.toNat / 4096 = 0 := by
      intro he
      exact h0 (UInt32.toNat_inj.mp (by rw [hdiv, he]; rfl))
    rw [hdiv, mapBlocks]
    omega

/-- The numbers of a volume whose size fits in 32 bits. -/
structure ShapeNumbers (g : Shape) (n : ℕ) : Prop where
  blockStart : g.blockStart.toNat = 4096
  mapStart : ∀ k, (g.mapStart k).toNat = match k with
    | .imap => 4097
    | .bmap => 4097 + mapBlocks (volumeInodes n)
  mapEnd : ∀ k, (g.mapEnd k).toNat = (g.mapStart k).toNat + mapBlocks (volumeCount n k)
  regionStart : ∀ k, (g.regionStart k).toNat = match k with
    | .imap => 4097 + mapBlocks (volumeInodes n) + mapBlocks (volumeBlocks n)
    | .bmap => 4097 + mapBlocks (volumeInodes n) + mapBlocks (volumeBlocks n) + volumeInodes n
  regionEnd : ∀ k, (g.regionEnd k).toNat = (g.regionStart k).toNat + volumeCount n k
  count : ∀ k, (g.count k).toNat = volumeCount n k
  dev : g.dev = 0

theorem volumeShape_numbers (hn : n.toNat < 8388608) : ShapeNumbers (volumeShape n) n.toNat := by
  have hi : (n * 20 / 100).toNat = volumeInodes n.toNat := by
    simp only [UInt32.toNat_div, UInt32.toNat_mul, UInt32.toNat_ofNat, Nat.reducePow, Nat.reduceMod,
      volumeInodes]
    omega
  have hb : (n * 80 / 100).toNat = volumeBlocks n.toNat := by
    simp only [UInt32.toNat_div, UInt32.toNat_mul, UInt32.toNat_ofNat, Nat.reducePow, Nat.reduceMod,
      volumeBlocks]
    omega
  have hmi := @mapBlocks_toNat (n * 20 / 100)
  have hmb := @mapBlocks_toNat (n * 80 / 100)
  rw [hi] at hmi
  rw [hb] at hmb
  have hil : volumeInodes n.toNat < 8388608 := by simp only [volumeInodes]; omega
  have hbl : volumeBlocks n.toNat < 8388608 := by simp only [volumeBlocks]; omega
  have hmil : mapBlocks (volumeInodes n.toNat) ≤ 4096 := by simp only [mapBlocks]; omega
  have hmbl : mapBlocks (volumeBlocks n.toNat) ≤ 4096 := by simp only [mapBlocks]; omega
  constructor
  · rfl
  · intro k
    cases k
    · rfl
    · simp only [volumeShape, Master.shape, Master.mapStart, Master.format, blockStart,
        UInt32.toNat_add, hmi, UInt32.toNat_ofNat, Nat.reducePow, Nat.reduceMod]
      omega
  · intro k
    cases k <;>
      (simp only [volumeShape, Master.shape, Master.mapStart, Master.mapEnd, Master.format, blockStart,
        UInt32.toNat_add, hmi, hmb, UInt32.toNat_ofNat, Nat.reducePow, Nat.reduceMod, volumeCount]
       omega)
  · intro k
    cases k <;>
      (simp only [volumeShape, Master.shape, Master.regionStart, Master.format, blockStart,
        UInt32.toNat_add, hmi, hmb, hi, UInt32.toNat_ofNat, Nat.reducePow, Nat.reduceMod]
       omega)
  · intro k
    cases k <;>
      (simp only [volumeShape, Master.shape, Master.regionStart, Master.regionEnd, Master.format,
        blockStart, UInt32.toNat_add, hmi, hmb, hi, hb, UInt32.toNat_ofNat, Nat.reducePow,
        Nat.reduceMod, volumeCount]
       omega)
  · intro k
    cases k
    · exact hi
    · exact hb
  · rfl

theorem volumeShape_sound (hn : n.toNat < 8388608) : (volumeShape n).Sound := by
  have H := volumeShape_numbers hn
  have hil : volumeInodes n.toNat < 8388608 := by simp only [volumeInodes]; omega
  have hmil : mapBlocks (volumeInodes n.toNat) ≤ 4096 ∧ 1 ≤ mapBlocks (volumeInodes n.toNat) := by
    simp only [mapBlocks]; omega
  have hbl : volumeBlocks n.toNat < 8388608 := by simp only [volumeBlocks]; omega
  have hmbl : mapBlocks (volumeBlocks n.toNat) ≤ 4096 ∧ 1 ≤ mapBlocks (volumeBlocks n.toNat) := by
    simp only [mapBlocks]; omega
  constructor
  · intro k
    cases k <;> (rw [H.mapStart]; simp only; omega)
  · intro k
    rw [H.mapEnd]
    cases k <;> (simp only [volumeCount]; omega)
  · intro k
    simp only [Shape.mapLen, H.mapEnd, H.regionStart]
    cases k <;> (simp only [volumeCount]; omega)
  · intro p h1 h2
    simp only [Shape.InMap, H.mapEnd, H.mapStart, volumeCount] at h1 h2
    omega
  · intro k h
    simp only [Shape.InMap, H.mapStart, H.blockStart] at h
    cases k <;> simp only at h <;> omega

end Shape

/-! ## Making the file system -/

theorem devPut_flat (dev : DevNo) (block : BlockNo) (data : Sector) (d : Disk) :
    devPut flatStore dev block data d = d.set dev block data := rfl

/-- The loop that zeroes a range of blocks zeroes these and no others. -/
theorem zeroBlocks_flat (dev : DevNo) (lo hi b : BlockNo) (d : Disk) :
    zeroBlocks flatStore dev lo hi d dev b =
      if lo.toNat ≤ b.toNat ∧ b.toNat < hi.toNat then Sector.zero else d dev b := by
  have hrange : ∀ m, lo.toNat + m ≤ 2 ^ 32 →
      (List.range m).foldl
          (fun st j => devPut flatStore dev (lo + UInt32.ofNat j) Sector.zero st) d dev b =
        if lo.toNat ≤ b.toNat ∧ b.toNat < lo.toNat + m then Sector.zero else d dev b := by
    intro m
    induction m with
    | zero =>
        intro _
        rw [if_neg (by omega)]
        rfl
    | succ m ih =>
        intro hm
        have hto : (UInt32.ofNat m).toNat = m :=
          UInt32.toNat_ofNat_of_lt' (by rw [UInt32.size]; omega)
        have hadd : (lo + UInt32.ofNat m).toNat = lo.toNat + m := by
          rw [Lib.toNat_add_of_lt (by omega), hto]
        rw [List.range_succ, List.foldl_append]
        rw [List.foldl_cons, List.foldl_nil, devPut_flat]
        by_cases hb : b = lo + UInt32.ofNat m
        · rw [hb, Disk.set_self, if_pos (by omega)]
        · have hne : b.toNat ≠ lo.toNat + m := by
            rw [← hadd]
            exact fun he => hb (UInt32.toNat_inj.mp he)
          rw [Disk.set_of_ne (fun he => hb he.2), ih (by omega)]
          by_cases hin : lo.toNat ≤ b.toNat ∧ b.toNat < lo.toNat + m
          · rw [if_pos hin, if_pos (by omega)]
          · rw [if_neg hin, if_neg (by omega)]
  have hhi := hi.toNat_lt
  have hlo := lo.toNat_lt
  rw [zeroBlocks, hrange _ (by omega)]
  by_cases hin : lo.toNat ≤ b.toNat ∧ b.toNat < hi.toNat
  · rw [if_pos hin, if_pos (by omega)]
  · rw [if_neg hin, if_neg (by omega)]

section Table
variable {s s' : FsState Disk} {row : Fin inodeNrDev}

@[simp] theorem toUInt32_zero : (0 : DevNo).toUInt32 = 0 := rfl

/-- The row that `master_alloc` finds for device 0: its own row, or, without one, the first
free row. -/
def RowFor (s : FsState Disk) (row : Fin inodeNrDev) : Prop :=
  (∀ i, i < row → (s.masterTab i).dev ≠ 0) ∧
    ((s.masterTab row).dev = 0 ∨
      (∀ i, (s.masterTab i).dev ≠ 0) ∧ (s.masterTab row).dev = inodeNopos ∧
        ∀ i, i < row → (s.masterTab i).dev ≠ inodeNopos)

/-- There is a row for device 0 as soon as one is its own or free. -/
theorem exists_rowFor {i : Fin inodeNrDev}
    (hi : (s.masterTab i).dev = 0 ∨ (s.masterTab i).dev = inodeNopos) : ∃ row, RowFor s row := by
  by_cases h0 : ∃ j, (s.masterTab j).dev = 0
  · have hmin := Fin.find_spec h0
    exact ⟨Fin.find _ h0, fun j hj => Fin.find_min h0 hj, Or.inl hmin⟩
  · have hne : ∀ j, (s.masterTab j).dev ≠ 0 := fun j hj => h0 ⟨j, hj⟩
    have hfree : ∃ j, (s.masterTab j).dev = inodeNopos := ⟨i, hi.resolve_left (hne i)⟩
    exact ⟨Fin.find _ hfree, fun j _ => hne j,
      Or.inr ⟨hne, Fin.find_spec hfree, fun j hj => Fin.find_min hfree hj⟩⟩

/-- A row for device 0 is the one that is found. -/
theorem masterGet_setMaster (h : RowFor s row) {m : Master} (hm : m.dev = 0) :
    masterGet 0 (s.setMaster row m) = some row := by
  refine Lib.find?_finRange_eq_some ?_ fun j hj => ?_
  · rw [FsState.setMaster_masterTab, hm]
    rfl
  · have hne : j ≠ row := fun he => absurd hj (by rw [he]; exact lt_irrefl _)
    simpa [FsState.setMaster, Function.update_of_ne hne] using h.1 j hj

theorem masterAlloc_rowFor (h : RowFor s row) :
    masterAlloc 0 s = (some row, s.setMaster row { s.masterTab row with dev := 0 }) := by
  rcases h.2 with hown | ⟨hnone, hnopos, hmin⟩
  · have hself : { s.masterTab row with dev := 0 } = s.masterTab row := by rw [← hown]
    have hget : masterGet 0 s = some row := by
      have hset := masterGet_setMaster h hown
      rwa [FsState.setMaster, Function.update_eq_self] at hset
    simp only [masterAlloc, hget, hself, FsState.setMaster, Function.update_eq_self]
  · have hget : masterGet 0 s = none := by
      rw [masterGet, List.find?_eq_none]
      intro i _
      simpa using hnone i
    have hfind : ((List.finRange inodeNrDev).find? fun i => (s.masterTab i).dev = inodeNopos) =
        some row :=
      Lib.find?_finRange_eq_some (by simpa using hnopos) (fun j hj => by simpa using hmin j hj)
    simp only [masterAlloc, hget, hfind]
    rfl

/-- Without a row there is none to be found afterwards. -/
theorem masterGet_masterAlloc_none (h : ∀ row, ¬ RowFor s row) :
    masterGet 0 (masterAlloc 0 s).2 = none := by
  have hrow : ∀ i, (s.masterTab i).dev ≠ 0 ∧ (s.masterTab i).dev ≠ inodeNopos := by
    intro i
    constructor <;> intro hi
    · obtain ⟨row, hr⟩ := exists_rowFor (Or.inl hi)
      exact h row hr
    · obtain ⟨row, hr⟩ := exists_rowFor (Or.inr hi)
      exact h row hr
  have hget : masterGet 0 s = none := by
    rw [masterGet, List.find?_eq_none]
    intro i _
    simpa using (hrow i).1
  have hfind : ((List.finRange inodeNrDev).find? fun i => (s.masterTab i).dev = inodeNopos) =
      none := by
    rw [List.find?_eq_none]
    intro i _
    simpa using (hrow i).2
  simp only [masterAlloc, hget, hfind]

theorem setMaster_setMaster (s : FsState Disk) (row : Fin inodeNrDev) (m m' : Master) :
    (s.setMaster row m).setMaster row m' = s.setMaster row m' := by
  simp [FsState.setMaster]

/-- Giving the row of device 0 back. -/
theorem masterFree_setMaster (h : RowFor s row) {m m' : Master} (hm : m'.dev = 0) {st : Disk} :
    masterFree 0 { (s.setMaster row m).setMaster row m' with store := st } =
      { s.setMaster row { Master.zero with dev := inodeNopos } with store := st } := by
  have hget : masterGet 0 { s.setMaster row m' with store := st } = some row :=
    masterGet_setMaster h hm
  rw [setMaster_setMaster, masterFree, hget]
  simp [FsState.setMaster]

/-- The master record of a freshly made volume of `n` blocks. -/
structure FreshMaster (m : Master) (n : BlockNo) : Prop where
  shape : m.shape = volumeShape n
  magic : m.magic = inodeMagic
  initFs : m.initFs = 1
  ptr : ∀ k, m.ptr k = 0

theorem freshMaster_format {m : Master} (hm : m.dev = 0) (n : BlockNo) :
    FreshMaster (m.format blockStart n) n where
  shape := by
    simp only [volumeShape, Master.shape, Shape.mk.injEq]
    refine ⟨rfl, ?_, ?_, ?_, ?_, ?_, hm⟩ <;> (funext k; cases k <;> rfl)
  magic := rfl
  initFs := rfl
  ptr k := by cases k <;> rfl

/-- The store after `inode_create_fs`: the master is in its block, and the maps and the inode
blocks are clear. -/
theorem format_store {m : Master} {n : BlockNo} (hm : FreshMaster m n) (hn : n.toNat < 8388608)
    (d : Disk) :
    let st := zeroBlocks flatStore 0 m.inodeStart m.inodeEnd
      (zeroBlocks flatStore 0 m.bmapMapStart m.bmapMapEnd
        (zeroBlocks flatStore 0 m.inodeMapStart m.inodeMapEnd
          (devPut flatStore 0 blockStart (Master.layout m) d)))
    st 0 blockStart = Master.layout m ∧
      (∀ k p, (volumeShape n).InMap k p → st 0 p = Sector.zero) ∧
      ∀ b, ((volumeShape n).regionStart .imap).toNat ≤ b.toNat →
        b.toNat < ((volumeShape n).regionEnd .imap).toNat → st 0 b = Sector.zero := by
  have H := volumeShape_numbers hn
  have hS : m.inodeMapStart = (volumeShape n).mapStart .imap := by rw [← hm.shape]; rfl
  have hE : m.inodeMapEnd = (volumeShape n).mapEnd .imap := by rw [← hm.shape]; rfl
  have hS' : m.bmapMapStart = (volumeShape n).mapStart .bmap := by rw [← hm.shape]; rfl
  have hE' : m.bmapMapEnd = (volumeShape n).mapEnd .bmap := by rw [← hm.shape]; rfl
  have hI : m.inodeStart = (volumeShape n).regionStart .imap := by rw [← hm.shape]; rfl
  have hI' : m.inodeEnd = (volumeShape n).regionEnd .imap := by rw [← hm.shape]; rfl
  have hbs : blockStart.toNat = 4096 := rfl
  simp only [zeroBlocks_flat, devPut_flat, hS, hE, hS', hE', hI, hI']
  refine ⟨?_, ?_, ?_⟩
  · have h1 := H.mapStart .imap
    have h2 := H.mapStart .bmap
    have h3 := H.regionStart .imap
    simp only at h1 h2 h3
    rw [if_neg (by omega), if_neg (by omega), if_neg (by omega), Disk.set_self]
  · intro k p hp
    simp only [Shape.InMap] at hp
    split
    · rfl
    · split
      · rfl
      · split
        · rfl
        · cases k <;> contradiction
  · intro b hlo hhi
    rw [if_pos ⟨hlo, hhi⟩]

theorem volumeSize_lt (size : BlockNo) : (size / 512).toNat < 8388608 := by
  have hlt := size.toNat_lt
  simp only [UInt32.toNat_div, UInt32.toNat_ofNat, Nat.reducePow, Nat.reduceMod] at hlt ⊢
  omega

/-- **`inode_create_fs` on the flat store**, when it succeeds: the size is a multiple of the
block size, the master and the clear maps are on disk, and the row has been given back. -/
theorem inodeCreateFs_flat {path : String} {size : BlockNo}
    (h : inodeCreateFs flatStore path blockStart size s = (.ok, s')) :
    size % 512 = 0 ∧ s'.initMaster = true ∧
      (∃ row, s'.masterTab = ((masterInit s).setMaster row
        { Master.zero with dev := inodeNopos }).masterTab) ∧
      ∃ m : Master, FreshMaster m (size / 512) ∧ m.dev = 0 ∧
        s'.store 0 blockStart = Master.layout m ∧
        (∀ k p, (volumeShape (size / 512)).InMap k p → s'.store 0 p = Sector.zero) ∧
        ∀ b, ((volumeShape (size / 512)).regionStart .imap).toNat ≤ b.toNat →
          b.toNat < ((volumeShape (size / 512)).regionEnd .imap).toNat →
          s'.store 0 b = Sector.zero := by
  have hinit : (masterInit s).initMaster = true := by
    rw [masterInit]
    split
    · assumption
    · rfl
  have hopen : flatStore.devOpen path 0 (masterInit s).store = (.ok, 0, (masterInit s).store) := rfl
  by_cases hsize : size % 512 = 0
  · simp only [inodeCreateFs, hsize, ne_eq, not_true_eq_false, if_false, hopen] at h
    by_cases hrow : ∃ row, RowFor (masterInit s) row
    · obtain ⟨row, hrow⟩ := hrow
      have hget := masterGet_setMaster hrow (m := { (masterInit s).masterTab row with dev := 0 }) rfl
      have hm := freshMaster_format (m := { (masterInit s).masterTab row with dev := 0 }) rfl
        (size / 512)
      obtain ⟨hstart, hmaps, hinodes⟩ := format_store hm (volumeSize_lt size) (masterInit s).store
      simp only [masterAlloc_rowFor hrow, hget, FsState.setMaster_masterTab,
        FsState.setMaster_store] at h
      rw [masterFree_setMaster hrow rfl] at h
      have hs' := (Prod.mk.inj h).2
      subst hs'
      exact ⟨hsize, hinit, ⟨row, rfl⟩, _, hm, rfl, hstart, hmaps, hinodes⟩
    · have hnone : masterGet 0 (masterAlloc 0 (masterInit s)).2 = none :=
        masterGet_masterAlloc_none (not_exists.mp hrow)
      rw [hnone] at h
      simp at h
  · simp only [inodeCreateFs, if_pos hsize] at h
    simp at h

/-- So there is a row for the mount. -/
theorem exists_rowFor_made {path : String} {size : BlockNo}
    (h : inodeCreateFs flatStore path blockStart size s = (.ok, s')) : ∃ row, RowFor s' row := by
  obtain ⟨-, -, ⟨row, htab⟩, -⟩ := inodeCreateFs_flat h
  refine exists_rowFor (i := row) (Or.inr ?_)
  rw [htab, FsState.setMaster_masterTab]

/-- It does succeed when there is a row. -/
theorem inodeCreateFs_ok (hrow : RowFor (masterInit s) row) (path : String) {size : BlockNo}
    (hsize : size % 512 = 0) :
    (inodeCreateFs flatStore path blockStart size s).1 = .ok := by
  have hopen : flatStore.devOpen path 0 (masterInit s).store = (.ok, 0, (masterInit s).store) := rfl
  have hget := masterGet_setMaster hrow (m := { (masterInit s).masterTab row with dev := 0 }) rfl
  simp only [inodeCreateFs, hsize, ne_eq, not_true_eq_false, if_false, hopen,
    masterAlloc_rowFor hrow, hget]

/-! ## Mounting it -/

/-- A volume of shape `g` mounted on device 0 in `row` on which nothing is allocated: the
cursors are at the start of the maps, and the maps and the inode blocks are clear. -/
structure Fresh (g : Shape) (row : Fin inodeNrDev) (s : FsState Disk) : Prop where
  ok : MapsOk g 0 row s
  disk : ∀ k p, g.InMap k p → s.store 0 p = Sector.zero
  window : ∀ k, s.window k row = Sector.zero
  ptr : ∀ k, (s.masterTab row).ptr k = g.mapStart k
  bit : ∀ k, (s.masterTab row).bit k = 0
  inodes : ∀ b, (g.regionStart .imap).toNat ≤ b.toNat → b.toNat < (g.regionEnd .imap).toNat →
    s.store 0 b = Sector.zero

/-- The record after a map has been loaded. -/
def Master.loadedMap (m : Master) (a : UInt32) (k : MapKind) : Master :=
  if m.ptr k = 0 then ((m.setWindow a k).setBit 0 k).setPtr (m.mapStart k) k else m.setWindow a k

/-- The record after both maps have been loaded into the windows of `row`. -/
def Master.loaded (m : Master) (s : FsState Disk) (row : Fin inodeNrDev) : Master :=
  (m.loadedMap (s.windowAddr .bmap row) .bmap).loadedMap (s.windowAddr .imap row) .imap

section Loaded
variable (m : Master) (a : UInt32) (k k' : MapKind)

theorem loadedMap_shape : (m.loadedMap a k).shape = m.shape := by
  rw [Master.loadedMap]
  split
  · rw [Master.setPtr_shape, Master.setBit_shape]
    cases k <;> rfl
  · cases k <;> rfl

theorem loadedMap_ptr : (m.loadedMap a k).ptr k = if m.ptr k = 0 then m.mapStart k else m.ptr k := by
  rw [Master.loadedMap]
  split
  · cases k <;> rfl
  · cases k <;> rfl

theorem loadedMap_bit : (m.loadedMap a k).bit k = if m.ptr k = 0 then 0 else m.bit k := by
  rw [Master.loadedMap]
  split
  · cases k <;> rfl
  · cases k <;> rfl

theorem loadedMap_other (h : k' ≠ k) :
    (m.loadedMap a k).ptr k' = m.ptr k' ∧ (m.loadedMap a k).bit k' = m.bit k' := by
  rw [Master.loadedMap]
  split
  · cases k <;> cases k' <;> first | exact absurd rfl h | exact ⟨rfl, rfl⟩
  · cases k <;> cases k' <;> exact ⟨rfl, rfl⟩

theorem loadedMap_head : (m.loadedMap a k).magic = m.magic ∧ (m.loadedMap a k).initFs = m.initFs := by
  rw [Master.loadedMap]
  split
  · cases k <;> exact ⟨rfl, rfl⟩
  · cases k <;> exact ⟨rfl, rfl⟩

variable (s : FsState Disk) (row : Fin inodeNrDev)

theorem loaded_shape : (m.loaded s row).shape = m.shape := by
  rw [Master.loaded, loadedMap_shape, loadedMap_shape]

theorem loaded_ptr : (m.loaded s row).ptr k = if m.ptr k = 0 then m.mapStart k else m.ptr k := by
  rw [Master.loaded]
  cases k with
  | imap =>
      have hstart : (m.loadedMap (s.windowAddr .bmap row) .bmap).mapStart .imap = m.mapStart .imap :=
        congrFun (congrArg Shape.mapStart (loadedMap_shape m (s.windowAddr .bmap row) .bmap)) .imap
      rw [loadedMap_ptr, (loadedMap_other m _ .bmap .imap (by decide)).1, hstart]
  | bmap => rw [(loadedMap_other _ _ .imap .bmap (by decide)).1, loadedMap_ptr]

theorem loaded_bit : (m.loaded s row).bit k = if m.ptr k = 0 then 0 else m.bit k := by
  rw [Master.loaded]
  cases k with
  | imap =>
      obtain ⟨hptr, hbit⟩ := loadedMap_other m (s.windowAddr .bmap row) .bmap .imap (by decide)
      rw [loadedMap_bit, hptr, hbit]
  | bmap => rw [(loadedMap_other _ _ .imap .bmap (by decide)).2, loadedMap_bit]

theorem loaded_head :
    (m.loaded s row).magic = m.magic ∧ (m.loaded s row).initFs = m.initFs := by
  obtain ⟨h₁, h₂⟩ := loadedMap_head m (s.windowAddr .bmap row) .bmap
  obtain ⟨h₃, h₄⟩ := loadedMap_head (m.loadedMap (s.windowAddr .bmap row) .bmap)
    (s.windowAddr .imap row) .imap
  exact ⟨h₃.trans h₁, h₄.trans h₂⟩

end Loaded

theorem mountMap_flat {i : Fin inodeNrDev} {k : MapKind} :
    mountMap flatStore k 0 row i s =
      (.ok, (s.setMaster row ((s.masterTab row).loadedMap (s.windowAddr k i) k)).setWindow k row
        (s.store 0 (((s.masterTab row).loadedMap (s.windowAddr k i) k).ptr k))) := by
  have hptr : ((s.masterTab row).setWindow (s.windowAddr k i) k).ptr k = (s.masterTab row).ptr k := by
    cases k <;> rfl
  have hst : ((s.masterTab row).setWindow (s.windowAddr k i) k).mapStart k =
      (s.masterTab row).mapStart k := by cases k <;> rfl
  have hself : ((s.masterTab row).setWindow (s.windowAddr k i) k).setPtr ((s.masterTab row).ptr k) k =
      (s.masterTab row).setWindow (s.windowAddr k i) k := by cases k <;> rfl
  rw [loadedMap_ptr, mountMap, Master.loadedMap]
  by_cases h0 : (s.masterTab row).ptr k = 0
  · simp only [hptr, h0, if_true, hst, loadWindow, FsState.setMaster_masterTab, setMaster_setMaster]
    rfl
  · simp only [hptr, if_neg h0, loadWindow, FsState.setMaster_masterTab, setMaster_setMaster, hself]
    rfl

/-- The state after mounting a volume with master `m` in `row`. -/
def opened (row : Fin inodeNrDev) (m : Master) (s : FsState Disk) : FsState Disk :=
  ((s.setMaster row (m.loaded s row)).setWindow .bmap row
    (s.store 0 ((m.loaded s row).ptr .bmap))).setWindow .imap row
    (s.store 0 ((m.loaded s row).ptr .imap))

theorem opened_masterTab {m : Master} : (opened row m s).masterTab row = m.loaded s row := by
  rw [opened, FsState.setWindow_masterTab, FsState.setWindow_masterTab, FsState.setMaster_masterTab]

theorem opened_window {m : Master} (k : MapKind) :
    (opened row m s).window k row = s.store 0 ((m.loaded s row).ptr k) := by
  rw [opened]
  cases k with
  | imap => rw [FsState.setWindow_self]
  | bmap => rw [FsState.setWindow_other _ (by decide), FsState.setWindow_self]

/-- **Mounting a volume** succeeds. -/
theorem inodeDevOpen_flat {m : Master} (hinit : s.initMaster = true) (hrow : RowFor s row)
    (hstore : s.store 0 blockStart = Master.layout m) (hdev : m.dev = 0)
    (hmagic : m.magic = inodeMagic) (hfs : m.initFs = 1) (path : String) (dev : DevNo) :
    inodeDevOpen flatStore path dev s = (.ok, 0, opened row m s) := by
  have hopen : flatStore.blockOpen path dev s.store = (.ok, 0, s.store) := rfl
  have hself : masterInit s = s := by rw [masterInit, if_pos hinit]
  have hread : flatStore.blockRead 0 blockStart
      (Master.layout { s.masterTab row with dev := 0 }) s.store =
      (.ok, Master.layout m, s.store) := by
    rw [← hstore]
    rfl
  simp only [inodeDevOpen, hopen, hself, masterAlloc_rowFor hrow, FsState.setMaster_masterTab,
    FsState.setMaster_store, hread, Equiv.symm_apply_apply, hmagic, if_true]
  rw [setMaster_setMaster]
  have hget : masterGetMemPtr 0 { s.setMaster row m with store := s.store } = some row :=
    masterGet_setMaster hrow hdev
  simp only [mountMaps, FsState.setMaster_masterTab, hfs, ne_eq, not_true_eq_false, if_false, hget]
  rw [mountMap_flat]
  simp only [FsState.setMaster_masterTab]
  rw [mountMap_flat]
  have hother := (loadedMap_other (m.loadedMap (s.windowAddr .bmap row) .bmap)
    (s.windowAddr .imap row) .imap .bmap (by decide)).1
  simp only [opened, Master.loaded, hother, FsState.setWindow_masterTab, FsState.setMaster_masterTab]
  simp only [FsState.setMaster, FsState.setWindow, Function.update_idem]

/-- **Mounting a freshly made volume** succeeds. -/
theorem mount_fresh {path : String} {size : BlockNo} {s₁ : FsState Disk}
    (h : inodeCreateFs flatStore path blockStart size s = (.ok, s₁)) (hfree : RowFor s₁ row)
    (dev : DevNo) :
    ∃ s', inodeDevOpen flatStore path dev s₁ = (.ok, 0, s') ∧
      Fresh (volumeShape (size / 512)) row s' ∧ s'.initMaster = true ∧
        (s'.masterTab row).magic = inodeMagic ∧ (s'.masterTab row).initFs = 1 := by
  obtain ⟨-, hinit, -, m, hm, hdev, hstart, hmaps, hinodes⟩ := inodeCreateFs_flat h
  have hsound := volumeShape_sound (volumeSize_lt size)
  have hin : ∀ k, (volumeShape (size / 512)).InMap k ((volumeShape (size / 512)).mapStart k) :=
    fun k => ⟨le_rfl, hsound.nonempty k⟩
  have hptr : ∀ k, (m.loaded s₁ row).ptr k = (volumeShape (size / 512)).mapStart k := by
    intro k
    rw [loaded_ptr, if_pos (hm.ptr k), ← hm.shape]
    rfl
  have hbit : ∀ k, (m.loaded s₁ row).bit k = 0 := by
    intro k
    rw [loaded_bit, if_pos (hm.ptr k)]
  have hshape : (m.loaded s₁ row).shape = volumeShape (size / 512) :=
    (loaded_shape m s₁ row).trans hm.shape
  have hhead := loaded_head m s₁ row
  refine ⟨_, inodeDevOpen_flat hinit hfree hstart hdev hm.magic hm.initFs path dev,
    ⟨⟨hsound, ?_, ?_, ?_, ?_⟩, hmaps, ?_, ?_, ?_, hinodes⟩, hinit, ?_, ?_⟩
  · refine masterGet_setMaster hfree ?_
    rw [show (m.loaded s₁ row).dev = (m.loaded s₁ row).shape.dev from rfl, hshape]
    exact (volumeShape_numbers (volumeSize_lt size)).dev
  · rw [opened_masterTab, hshape]
  · intro k
    rw [opened_masterTab, hptr]
    exact hin k
  · intro k
    rw [opened_masterTab, hbit]
    decide
  · -- Each window was loaded from the first block of its map.
    intro k
    rw [opened_window, hptr]
    exact hmaps k _ (hin k)
  · intro k
    rw [opened_masterTab, hptr]
  · intro k
    rw [opened_masterTab, hbit]
  · rw [opened_masterTab, hhead.1, hm.magic]
  · rw [opened_masterTab, hhead.2, hm.initFs]

end Table

/-- The static variables before the first call, over a given disk. -/
def FsState.boot (d : Disk) : FsState Disk where
  store := d
  masterTab := fun _ => Master.zero
  window := fun _ _ => Sector.zero
  initMaster := false
  windowAddr := fun k i =>
    match k with
    | .imap => 1048576 + 512 * UInt32.ofNat i
    | .bmap => 1056768 + 512 * UInt32.ofNat i

/-- A table of free rows. -/
theorem rowFor_free {s : FsState Disk} (h : ∀ i, (s.masterTab i).dev = inodeNopos) :
    RowFor s 0 := by
  refine ⟨fun i hi => absurd hi (by simp), Or.inr ⟨fun i => ?_, h 0, ?_⟩⟩
  · rw [h i]
    decide
  · exact fun i hi => absurd hi (by simp)

/-- A volume made on a disk of zeroes. -/
@[irreducible] def madeVolume (size : BlockNo) : FsState Disk :=
  (inodeCreateFs flatStore "/" blockStart size (FsState.boot fun _ _ => Sector.zero)).2

theorem madeVolume_eq {size : BlockNo} (hsize : size % 512 = 0) :
    inodeCreateFs flatStore "/" blockStart size (FsState.boot fun _ _ => Sector.zero) =
      (.ok, madeVolume size) := by
  have hrow : RowFor (masterInit (FsState.boot fun _ _ => Sector.zero)) 0 := rowFor_free fun _ => rfl
  rw [madeVolume, ← inodeCreateFs_ok hrow "/" hsize]

/-- The same volume mounted. It is described by `mountedVolume_fresh` and never evaluated. -/
@[irreducible] def mountedVolume (size : BlockNo) : FsState Disk :=
  (inodeDevOpen flatStore "/" 0 (madeVolume size)).2.2

theorem mountedVolume_spec {size : BlockNo} (hsize : size % 512 = 0) :
    inodeDevOpen flatStore "/" 0 (madeVolume size) = (.ok, 0, mountedVolume size) ∧
      Fresh (volumeShape (size / 512)) 0 (mountedVolume size) := by
  have hmade := madeVolume_eq hsize
  obtain ⟨-, -, ⟨row, htab⟩, -⟩ := inodeCreateFs_flat hmade
  have hrow : RowFor (madeVolume size) 0 := by
    refine rowFor_free fun i => ?_
    rw [htab]
    by_cases hi : i = row
    · rw [hi, FsState.setMaster_masterTab]
    · simp only [FsState.setMaster, Function.update_of_ne hi]
      rfl
  obtain ⟨s', hs', hf, -⟩ := mount_fresh hmade hrow 0
  have hvol : mountedVolume size = s' := by rw [mountedVolume, hs']
  rw [hvol]
  exact ⟨hs', hf⟩

theorem mountedVolume_fresh {size : BlockNo} (hsize : size % 512 = 0) :
    Fresh (volumeShape (size / 512)) 0 (mountedVolume size) :=
  (mountedVolume_spec hsize).2

end OxKernel.Fs
