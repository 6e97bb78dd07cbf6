import OxKernel.Fs.AllocatorRecord
import OxKernel.Fs.File
import Mathlib.Data.List.GetD

/-!
# The chain of a file

A file's blocks are two lists: the block maps, and the data blocks they number in order.
`ChainOk` says that the chain is on disk and that its blocks are allocated, pairwise
distinct and no one else's; adding a block map or a data block keeps it. Over a flat
store only an allocation can fail, and then the volume is full. Where the data map is known
to record nothing but these blocks, the size of the chain says when this can happen.

## Main definitions

* `Setting` — the device, the inode block of a file and the blocks of all others.
* `Chain`, `Chain.image` — the blocks of a file, and the contents of a block map.
* `ChainOk`, `Chain.Fits` — the chain is on disk and has the right lengths.
* `HasRoom`, `Stuck` — another data block can be allocated, or could not be.
-/
namespace OxKernel.Fs

/-! ## Allocation -/

/-- The blocks the data map hands out are neither the master nor map blocks nor block 0. -/
structure Shape.DataApart (g : Shape) : Prop where
  pos : ¬ g.Covers .bmap inodeNull
  master : ¬ g.Covers .bmap g.blockStart
  maps : ∀ k p, g.InMap k p → ¬ g.Covers .bmap p

/-- Another data block can be allocated. -/
def HasRoom (dev : DevNo) (fs : FsState Disk) : Prop :=
  (inodeGetDataBlock flatStore dev 0 fs).1 = .ok

/-- The blocks of a set, all of the data map. -/
def dataOnly (H : Finset BlockNo) : MapKind → Finset BlockNo
  | .imap => ∅
  | .bmap => H

/-- The data blocks of a set are allocated. -/
def Owns (g : Shape) (dev : DevNo) (row : Fin inodeNrDev) (fs : FsState Disk)
    (H : Finset BlockNo) : Prop :=
  HeldOk g dev row ⟨fs, dataOnly H, fun _ => ∅⟩

section Owns
variable {g : Shape} {dev : DevNo} {row : Fin inodeNrDev} {fs : FsState Disk} {H : Finset BlockNo}

/-- A write outside the maps does not concern the allocator. -/
theorem Owns.write (h : Owns g dev row fs H) {q : BlockNo} (hq : ∀ k, ¬ g.InMap k q)
    (data : Sector) : Owns g dev row { fs with store := fs.store.set dev q data } H where
  ok := ⟨h.ok.sound, h.ok.mounted, h.ok.shape, h.ok.ptr, h.ok.bit⟩
  covers := h.covers
  disk k b hb := by
    have hin := Shape.inMap_ptrOf h.ok.sound (h.covers k b hb)
    have hne : g.ptrOf k b ≠ q := fun he => hq k (he ▸ hin)
    have hset : fs.store.set dev q data dev (g.ptrOf k b) = fs.store dev (g.ptrOf k b) :=
      Disk.set_of_ne fun he => hne he.2
    simp only [hset]
    exact h.disk k b hb
  window := h.window

/-- **An allocation** returns a block that was not allocated, or finds the volume full. -/
theorem Owns.get (h : Owns g dev row fs H) :
    (∃ b fs', inodeGetDataBlock flatStore dev 0 fs = (.ok, b, fs') ∧ g.Covers .bmap b ∧ b ∉ H ∧
      Owns g dev row fs' (insert b H) ∧
      ∀ q, q ≠ g.blockStart → ¬ g.InMap .bmap q → fs'.store dev q = fs.store dev q) ∨
    (∃ fs', inodeGetDataBlock flatStore dev 0 fs = (.fail, inodeNull, fs') ∧ ¬ HasRoom dev fs') := by
  rcases getBlock_flat (k := .bmap) h.ok 0 with ht | ⟨hc, hall, hr⟩
  · left
    obtain ⟨p, i, w, hp, hi, hw, h0, -, hr⟩ := ht
    have htaken := HeldOk.taken h hp hi hw
    refine ⟨_, _, hr, Shape.covers_blockAt h.ok.sound hp hi, HeldOk.not_held h hp hi hw h0, ?_, ?_⟩
    · have hmem : ∀ k b, b ∈ dataOnly (insert (g.blockAt .bmap p i) H) k →
          b ∈ (Client.take ⟨fs, dataOnly H, fun _ => ∅⟩ .bmap (g.blockAt .bmap p i)
            (afterTake g .bmap dev row fs p i w)).held k := by
        intro k b hb
        cases k
        · cases Finset.notMem_empty b hb
        · exact hb
      exact ⟨htaken.ok, fun k b hb => htaken.covers k b (hmem k b hb),
        fun k b hb => htaken.disk k b (hmem k b hb), fun k b hb => htaken.window k b (hmem k b hb)⟩
    · intro q hq hmap
      have hqp : q ≠ p := fun he => hmap (he ▸ hp)
      rw [afterTake_store hq, if_neg hqp]
  · right
    refine ⟨_, hr, fun hroom => ?_⟩
    -- The scan has left every bit set and the window on disk.
    have hin : g.InMap .bmap (g.mapStart .bmap) := ⟨le_rfl, h.ok.sound.nonempty .bmap⟩
    have hs := h.ok.scanned (k := .bmap) (b := 0) (w := fs.store dev (g.mapStart .bmap)) hin
      (by decide)
    rcases getBlock_flat (k := .bmap) hs 0 with ht | ⟨-, -, hr'⟩
    · obtain ⟨p, i, w, hp, hi, hw, h0, -, -⟩ := ht
      have hset : w = fs.store dev p := by
        rcases hw with ⟨hptr, rfl⟩ | ⟨-, rfl⟩
        · rw [scanned_ptr] at hptr
          rw [scanned_window, hptr]
        · rw [scanned_store]
      rw [hset, hall p _ hp hi] at h0
      cases h0
    · rw [HasRoom, inodeGetDataBlock, hr'] at hroom
      cases hroom

/-- The data map records nothing but the blocks of a set. -/
structure Tight (g : Shape) (dev : DevNo) (row : Fin inodeNrDev) (fs : FsState Disk)
    (H : Finset BlockNo) : Prop where
  settled : Settled dev row fs
  mem : ∀ b, g.Covers .bmap b → recorded g dev row fs .bmap b = 1 → b ∈ H

theorem Tight.write (h : Tight g dev row fs H) (hs : MapsOk g dev row fs) {q : BlockNo}
    (hq : ∀ k, ¬ g.InMap k q) (data : Sector) :
    Tight g dev row { fs with store := fs.store.set dev q data } H := by
  have hstore : ∀ k p, g.InMap k p → fs.store.set dev q data dev p = fs.store dev p :=
    fun k p hp => Disk.set_of_ne fun he => hq k (he.2 ▸ hp)
  constructor
  · intro k
    have hk := h.settled k
    rw [← hstore k _ (hs.ptr k)] at hk
    exact hk
  · intro b hb hrec
    apply h.mem b hb
    simp only [recorded, mapContents, hstore .bmap _ (Shape.inMap_ptrOf hs.sound hb)] at hrec
    exact hrec

/-- An allocation on a data map that records nothing else. -/
theorem Tight.get (h : Tight g dev row fs H) (hs : MapsOk g dev row fs) {b : BlockNo}
    {fs' : FsState Disk} (hr : inodeGetDataBlock flatStore dev 0 fs = (.ok, b, fs')) :
    Tight g dev row fs' (insert b H) := by
  rcases getBlock_recorded (k := .bmap) hs h.settled 0 with
    ⟨b', s', -, -, hr', -, hset, hrec⟩ | ⟨s', -, hr', -⟩
  · obtain ⟨rfl, rfl⟩ := Prod.mk.inj (Prod.mk.inj (hr.symm.trans hr')).2
    refine ⟨hset, fun a ha hrec' => ?_⟩
    rw [hrec .bmap a ha] at hrec'
    by_cases hab : a = b
    · rw [hab]
      exact Finset.mem_insert_self b H
    · rw [if_neg fun he => hab he.2] at hrec'
      exact Finset.mem_insert_of_mem (h.mem a ha hrec')
  · cases (Prod.mk.inj (hr.symm.trans hr')).1

/-- An allocation fails on such a data map only when the set has all data blocks. -/
theorem Tight.full (h : Tight g dev row fs H) (hs : MapsOk g dev row fs) {b : BlockNo}
    {fs' : FsState Disk} (hr : inodeGetDataBlock flatStore dev 0 fs = (.fail, b, fs')) :
    512 * g.mapLen .bmap ≤ H.card := by
  rcases getBlock_recorded (k := .bmap) hs h.settled 0 with ⟨b', s', -, -, hr', -⟩ | ⟨s', hall, -⟩
  · cases (Prod.mk.inj (hr.symm.trans hr')).1
  · have hsub : g.covered .bmap ⊆ H := by
      intro a ha
      rw [Shape.mem_covered hs.sound] at ha
      exact h.mem a ha (hall a ha)
    have hcard := Finset.card_le_card hsub
    rwa [Shape.card_covered hs.sound] at hcard

end Owns

/-! ## Chains -/

/-- The surroundings of one file: the volume, the inode block, the data blocks that are
allocated to others, whether these are all, and the contents of the disk when the file was
opened. -/
structure Setting where
  g : Shape
  dev : DevNo
  row : Fin inodeNrDev
  self : BlockNo
  others : Finset BlockNo
  exact : Prop
  base : BlockNo → Sector
  apart : g.DataApart
  small : 512 * g.mapLen .bmap ≤ 4194303
  selfData : ¬ g.Covers .bmap self
  selfMap : ∀ k, ¬ g.InMap k self
  selfMaster : self ≠ g.blockStart

/-- A block that is no concern of the file: not its inode, not the master or the data map,
and not a data block that was free. -/
def Setting.Foreign (F : Setting) (b : BlockNo) : Prop :=
  b ≠ F.self ∧ b ≠ F.g.blockStart ∧ ¬ F.g.InMap .bmap b ∧ (F.g.Covers .bmap b → b ∈ F.others)

/-- The blocks of a file: its block maps and its data blocks, in order. -/
structure Chain where
  maps : List BlockNo
  blocks : List BlockNo

namespace Chain
variable (c : Chain)

/-- All blocks of a file. -/
def all : List BlockNo := c.maps ++ c.blocks

/-- The block map number `j`. -/
def mapAt (j : ℕ) : BlockNo := c.maps.getD j 0

/-- The data block number `q`. -/
def blockAt (q : ℕ) : BlockNo := c.blocks.getD q 0

/-- The contents of the block map number `j`. -/
def image (j : ℕ) : BlockMap := ⟨c.mapAt (j + 1), fun i => c.blockAt (127 * j + i)⟩

/-- The chain with another block map. -/
def addMap (b : BlockNo) : Chain := { c with maps := c.maps ++ [b] }

/-- The chain with another data block. -/
def addBlock (b : BlockNo) : Chain := { c with blocks := c.blocks ++ [b] }

/-- The lengths of a chain with `n` data blocks. -/
def Fits (n : ℕ) : Prop := c.blocks.length = n ∧ c.maps.length = (n - 1) / 127 + 1

variable {c} {b : BlockNo} {j q : ℕ}

theorem all_length : c.all.length = c.maps.length + c.blocks.length := List.length_append

theorem mapAt_mem (h : j < c.maps.length) : c.mapAt j ∈ c.maps := by
  rw [mapAt, List.getD_eq_getElem _ _ h]
  exact List.getElem_mem h

theorem blockAt_mem (h : q < c.blocks.length) : c.blockAt q ∈ c.blocks := by
  rw [blockAt, List.getD_eq_getElem _ _ h]
  exact List.getElem_mem h

theorem mapAt_of_le (h : c.maps.length ≤ j) : c.mapAt j = 0 := List.getD_eq_default _ _ h

theorem blockAt_of_le (h : c.blocks.length ≤ q) : c.blockAt q = 0 := List.getD_eq_default _ _ h

theorem mapAt_inj (h : c.all.Nodup) {j' : ℕ} (hj : j < c.maps.length) (hj' : j' < c.maps.length)
    (he : c.mapAt j = c.mapAt j') : j = j' := by
  rw [mapAt, mapAt, List.getD_eq_getElem _ _ hj, List.getD_eq_getElem _ _ hj'] at he
  exact (List.Nodup.getElem_inj_iff (List.Nodup.of_append_left h)).mp he

theorem blockAt_inj (h : c.all.Nodup) {q' : ℕ} (hq : q < c.blocks.length)
    (hq' : q' < c.blocks.length) (he : c.blockAt q = c.blockAt q') : q = q' := by
  rw [blockAt, blockAt, List.getD_eq_getElem _ _ hq, List.getD_eq_getElem _ _ hq'] at he
  exact (List.Nodup.getElem_inj_iff (List.Nodup.of_append_right h)).mp he

theorem mapAt_ne_blockAt (h : c.all.Nodup) (hj : j < c.maps.length) (hq : q < c.blocks.length) :
    c.mapAt j ≠ c.blockAt q := by
  intro he
  exact List.disjoint_of_nodup_append h (mapAt_mem hj) (he ▸ blockAt_mem hq)

@[simp] theorem addMap_blocks : (c.addMap b).blocks = c.blocks := rfl
@[simp] theorem addBlock_maps : (c.addBlock b).maps = c.maps := rfl
@[simp] theorem addMap_length : (c.addMap b).maps.length = c.maps.length + 1 := by simp [addMap]
@[simp] theorem addBlock_length : (c.addBlock b).blocks.length = c.blocks.length + 1 := by
  simp [addBlock]
@[simp] theorem addMap_blockAt : (c.addMap b).blockAt q = c.blockAt q := rfl
@[simp] theorem addBlock_mapAt : (c.addBlock b).mapAt j = c.mapAt j := rfl

theorem addMap_mapAt_lt (h : j < c.maps.length) : (c.addMap b).mapAt j = c.mapAt j :=
  List.getD_append _ _ _ _ h

@[simp] theorem addMap_mapAt_last : (c.addMap b).mapAt c.maps.length = b := by
  simp [addMap, mapAt]

theorem addBlock_blockAt_lt (h : q < c.blocks.length) : (c.addBlock b).blockAt q = c.blockAt q :=
  List.getD_append _ _ _ _ h

@[simp] theorem addBlock_blockAt_last : (c.addBlock b).blockAt c.blocks.length = b := by
  simp [addBlock, blockAt]

theorem addBlock_blockAt_ne (h : q ≠ c.blocks.length) :
    (c.addBlock b).blockAt q = c.blockAt q := by
  rcases Nat.lt_or_gt_of_ne h with hlt | hgt
  · exact addBlock_blockAt_lt hlt
  · rw [blockAt_of_le (by rw [addBlock_length]; omega), blockAt_of_le (by omega)]

/-- A chain continues another. -/
def Extends (c c' : Chain) : Prop := c.maps <+: c'.maps ∧ c.blocks <+: c'.blocks

theorem Extends.refl (c : Chain) : c.Extends c := ⟨List.prefix_rfl, List.prefix_rfl⟩

theorem Extends.trans {c₁ c₂ c₃ : Chain} (h : c₁.Extends c₂) (h' : c₂.Extends c₃) :
    c₁.Extends c₃ := ⟨h.1.trans h'.1, h.2.trans h'.2⟩

theorem extends_addMap (c : Chain) (b : BlockNo) : c.Extends (c.addMap b) :=
  ⟨List.prefix_append _ _, List.prefix_rfl⟩

theorem extends_addBlock (c : Chain) (b : BlockNo) : c.Extends (c.addBlock b) :=
  ⟨List.prefix_rfl, List.prefix_append _ _⟩

theorem Extends.mapAt {c c' : Chain} (h : c.Extends c') (hj : j < c.maps.length) :
    c'.mapAt j = c.mapAt j := by
  obtain ⟨l, hl⟩ := h.1
  rw [Chain.mapAt, Chain.mapAt, ← hl, List.getD_append _ _ _ _ hj]

theorem Extends.blockAt {c c' : Chain} (h : c.Extends c') (hq : q < c.blocks.length) :
    c'.blockAt q = c.blockAt q := by
  obtain ⟨l, hl⟩ := h.2
  rw [Chain.blockAt, Chain.blockAt, ← hl, List.getD_append _ _ _ _ hq]

/-! ### The contents of the block maps -/

theorem image_addMap_of_lt (h : j + 1 < c.maps.length) : (c.addMap b).image j = c.image j := by
  simp only [image, addMap_mapAt_lt h, addMap_blockAt]

theorem image_addMap_last (h : j + 1 = c.maps.length) :
    (c.addMap b).image j = { c.image j with next := b } := by
  simp only [image, h, addMap_mapAt_last, addMap_blockAt]

theorem image_addMap_new (h : c.blocks.length ≤ 127 * c.maps.length) :
    (c.addMap b).image c.maps.length = BlockMap.zero := by
  simp only [image, BlockMap.zero, BlockMap.mk.injEq]
  refine ⟨mapAt_of_le (by rw [addMap_length]), ?_⟩
  funext i
  exact blockAt_of_le (by rw [addMap_blocks]; omega)

theorem image_addBlock_of_ne (h : j ≠ c.blocks.length / 127) :
    (c.addBlock b).image j = c.image j := by
  simp only [image, addBlock_mapAt, BlockMap.mk.injEq, true_and]
  funext i
  refine addBlock_blockAt_ne fun he => h ?_
  have hi : (i : ℕ) < 127 := i.isLt
  omega

theorem index_eq {i : BlockNo} {k : ℕ} (hi : i.toNat = k) (hk : k < 127) :
    BlockMap.index i = ⟨k, hk⟩ := by
  apply Fin.ext
  simp only [BlockMap.index, Fin.ofNat, hi]
  exact Nat.mod_eq_of_lt hk

theorem image_addBlock {i : BlockNo} (hi : i.toNat = c.blocks.length % 127) :
    (c.addBlock b).image (c.blocks.length / 127) =
      (c.image (c.blocks.length / 127)).setEntry i b := by
  have hidx := index_eq hi (Nat.mod_lt _ (by decide))
  simp only [image, BlockMap.setEntry, addBlock_mapAt, BlockMap.mk.injEq, true_and, hidx]
  funext k
  by_cases hk : k = ⟨c.blocks.length % 127, Nat.mod_lt _ (by decide)⟩
  · have he : 127 * (c.blocks.length / 127) + (k : ℕ) = c.blocks.length := by
      rw [hk]
      exact Nat.div_add_mod _ _
    rw [he, addBlock_blockAt_last, hk, Function.update_self]
  · rw [Function.update_of_ne hk]
    refine addBlock_blockAt_ne fun he => hk (Fin.ext ?_)
    have hlt : (k : ℕ) < 127 := k.isLt
    show (k : ℕ) = c.blocks.length % 127
    omega

/-- The entry of a data block. -/
theorem image_entry {i : BlockNo} (hi : i.toNat = q % 127) :
    (c.image (q / 127)).entry i = c.blockAt q := by
  rw [BlockMap.entry, index_eq hi (Nat.mod_lt _ (by decide))]
  simp only [image]
  rw [Nat.div_add_mod]

end Chain

/-! ## Chains on disk -/

/-- The chain is on disk, its blocks are allocated, distinct and no one else's, and
nothing else has changed. -/
structure ChainOk (F : Setting) (fs : FsState Disk) (c : Chain) : Prop where
  owns : Owns F.g F.dev F.row fs (F.others ∪ c.all.toFinset)
  nodup : c.all.Nodup
  new : ∀ b ∈ c.all, b ∉ F.others
  disk : ∀ j, j < c.maps.length → fs.store F.dev (c.mapAt j) = BlockMap.layout (c.image j)
  frame : ∀ b, F.Foreign b → fs.store F.dev b = F.base b
  tight : F.exact → Tight F.g F.dev F.row fs (F.others ∪ c.all.toFinset)

/-- An allocation has failed for a file with `m` blocks. -/
def Stuck (F : Setting) (m : ℕ) (fs : FsState Disk) : Prop :=
  ¬ HasRoom F.dev fs ∧ (F.exact → 512 * F.g.mapLen .bmap ≤ F.others.card + m)

theorem Stuck.mono {F : Setting} {m m' : ℕ} {fs : FsState Disk} (h : Stuck F m fs) (hm : m ≤ m') :
    Stuck F m' fs := by
  refine ⟨h.1, fun he => ?_⟩
  have := h.2 he
  omega

section ChainOk
variable {F : Setting} {fs fs' : FsState Disk} {c : Chain} {b : BlockNo} {j q : ℕ}

/-- A free block that the data map covers concerns no one else. -/
theorem Setting.not_foreign (hcov : F.g.Covers .bmap b) (hnew : b ∉ F.others) : ¬ F.Foreign b :=
  fun h => hnew (h.2.2.2 hcov)

theorem Setting.not_inMap (hcov : F.g.Covers .bmap b) (k : MapKind) : ¬ F.g.InMap k b :=
  fun h => F.apart.maps k b h hcov

theorem Setting.ne_master (hcov : F.g.Covers .bmap b) : b ≠ F.g.blockStart :=
  fun h => F.apart.master (h ▸ hcov)

theorem Setting.ne_self (hcov : F.g.Covers .bmap b) : b ≠ F.self :=
  fun h => F.selfData (h ▸ hcov)

theorem Setting.ne_null (hcov : F.g.Covers .bmap b) : b ≠ inodeNull :=
  fun h => F.apart.pos (h ▸ hcov)

namespace ChainOk

theorem covers (h : ChainOk F fs c) (hb : b ∈ c.all) : F.g.Covers .bmap b :=
  HeldOk.covers h.owns .bmap b
    (Finset.mem_union_right _ (List.mem_toFinset.mpr hb))

theorem covers_mapAt (h : ChainOk F fs c) (hj : j < c.maps.length) :
    F.g.Covers .bmap (c.mapAt j) :=
  h.covers (List.mem_append_left _ (Chain.mapAt_mem hj))

theorem covers_blockAt (h : ChainOk F fs c) (hq : q < c.blocks.length) :
    F.g.Covers .bmap (c.blockAt q) :=
  h.covers (List.mem_append_right _ (Chain.blockAt_mem hq))

theorem mapAt_ne_null (h : ChainOk F fs c) (hj : j < c.maps.length) : c.mapAt j ≠ inodeNull :=
  F.ne_null (h.covers_mapAt hj)

theorem blockAt_ne_null (h : ChainOk F fs c) (hq : q < c.blocks.length) :
    c.blockAt q ≠ inodeNull :=
  F.ne_null (h.covers_blockAt hq)

/-- A write to a block that is not a block map of the chain and no one else's. -/
theorem write (h : ChainOk F fs c) (hmap : ∀ k, ¬ F.g.InMap k b) (hc : b ∉ c.maps)
    (hf : ¬ F.Foreign b) (data : Sector) : ChainOk F (fs.write F.dev b data) c where
  owns := h.owns.write hmap data
  nodup := h.nodup
  new := h.new
  disk j hj := by
    have hne : c.mapAt j ≠ b := fun he => hc (he ▸ Chain.mapAt_mem hj)
    rw [FsState.write_of_ne hne]
    exact h.disk j hj
  frame b' hb' := by
    have hne : b' ≠ b := fun he => hf (he ▸ hb')
    rw [FsState.write_of_ne hne]
    exact h.frame b' hb'
  tight he := (h.tight he).write (HeldOk.ok h.owns) hmap data

/-- A write to a data block of the file. -/
theorem writeBlock (h : ChainOk F fs c) (hq : q < c.blocks.length) (data : Sector) :
    ChainOk F (fs.write F.dev (c.blockAt q) data) c := by
  have hmem : c.blockAt q ∈ c.all := List.mem_append_right _ (Chain.blockAt_mem hq)
  refine h.write (F.not_inMap (h.covers hmem)) ?_ (F.not_foreign (h.covers hmem) (h.new _ hmem)) data
  intro hmaps
  exact List.disjoint_of_nodup_append h.nodup hmaps (Chain.blockAt_mem hq)

/-- A write to the inode block. -/
theorem writeSelf (h : ChainOk F fs c) (data : Sector) :
    ChainOk F (fs.write F.dev F.self data) c := by
  refine h.write F.selfMap ?_ (fun hf => hf.1 rfl) data
  intro hmaps
  exact F.selfData (h.covers (List.mem_append_left _ hmaps))

/-- The state in which a new block has been allocated but is not in the chain yet. -/
structure Grown (F : Setting) (fs : FsState Disk) (c : Chain) (b : BlockNo) : Prop where
  owns : Owns F.g F.dev F.row fs (insert b (F.others ∪ c.all.toFinset))
  covers : F.g.Covers .bmap b
  fresh : b ∉ c.all
  new : b ∉ F.others
  chain : ∀ j, j < c.maps.length → fs.store F.dev (c.mapAt j) = BlockMap.layout (c.image j)
  frame : ∀ b, F.Foreign b → fs.store F.dev b = F.base b
  tight : F.exact → Tight F.g F.dev F.row fs (insert b (F.others ∪ c.all.toFinset))

/-- **An allocation for the file**, which leaves all blocks of the file as they were. -/
theorem get (h : ChainOk F fs c) :
    (∃ b fs', inodeGetDataBlock flatStore F.dev 0 fs = (.ok, b, fs') ∧ Grown F fs' c b ∧
      ∀ b', F.g.Covers .bmap b' → fs'.store F.dev b' = fs.store F.dev b') ∨
    (∃ fs', inodeGetDataBlock flatStore F.dev 0 fs = (.fail, inodeNull, fs') ∧
      Stuck F c.all.length fs') := by
  rcases h.owns.get with ⟨b, fs', hr, hcov, hnew, howns, hsame⟩ | ⟨fs', hr, hroom⟩
  · left
    rw [Finset.mem_union, not_or, List.mem_toFinset] at hnew
    have hdata : ∀ b', F.g.Covers .bmap b' → fs'.store F.dev b' = fs.store F.dev b' :=
      fun b' hb' => hsame b' (F.ne_master hb') (F.not_inMap hb' .bmap)
    refine ⟨b, fs', hr, ⟨howns, hcov, hnew.2, hnew.1, ?_, ?_, ?_⟩, hdata⟩
    · intro j hj
      rw [hdata _ (h.covers_mapAt hj)]
      exact h.disk j hj
    · intro b' hb'
      rw [hsame b' hb'.2.1 hb'.2.2.1]
      exact h.frame b' hb'
    · intro he
      exact (h.tight he).get (HeldOk.ok h.owns) hr
  · right
    refine ⟨fs', hr, hroom, fun he => ?_⟩
    have hfull := (h.tight he).full (HeldOk.ok h.owns) hr
    have hunion := Finset.card_union_le F.others c.all.toFinset
    have hlen := c.all.toFinset_card_le
    omega

end ChainOk

theorem Setting.others_union {c c' : Chain} (hperm : c'.all.Perm (b :: c.all)) :
    F.others ∪ c'.all.toFinset = insert b (F.others ∪ c.all.toFinset) := by
  rw [List.toFinset_eq_of_perm _ _ hperm, List.toFinset_cons, Finset.union_insert]

/-- The new block joins the chain: it is written, and so is a block of the chain. -/
theorem ChainOk.extend (h : ChainOk F fs c) (hg : ChainOk.Grown F fs' c b) {c' : Chain}
    (hperm : c'.all.Perm (b :: c.all)) {cur : BlockNo} (hcur : cur ∈ c.all) {d d' : Sector}
    (hdisk : ∀ j, j < c'.maps.length →
      ((fs'.write F.dev b d).write F.dev cur d').store F.dev (c'.mapAt j) =
        BlockMap.layout (c'.image j)) :
    ChainOk F ((fs'.write F.dev b d).write F.dev cur d') c' where
  owns := by
    rw [Setting.others_union hperm]
    exact (hg.owns.write (F.not_inMap hg.covers) _).write (F.not_inMap (h.covers hcur)) _
  nodup := by
    rw [hperm.nodup_iff, List.nodup_cons]
    exact ⟨hg.fresh, h.nodup⟩
  new b' hb' := by
    rcases List.mem_cons.mp (hperm.mem_iff.mp hb') with rfl | hb'
    · exact hg.new
    · exact h.new b' hb'
  disk := hdisk
  frame b' hb' := by
    have h1 : b' ≠ cur := fun he => F.not_foreign (h.covers hcur) (h.new _ hcur) (he ▸ hb')
    have h2 : b' ≠ b := fun he => F.not_foreign hg.covers hg.new (he ▸ hb')
    rw [FsState.write_of_ne h1, FsState.write_of_ne h2]
    exact hg.frame b' hb'
  tight he := by
    rw [Setting.others_union hperm]
    have hb := F.not_inMap hg.covers
    exact ((hg.tight he).write (HeldOk.ok hg.owns) hb _).write (HeldOk.ok (hg.owns.write hb _))
      (F.not_inMap (h.covers hcur)) _

/-- The other block maps do not change when a block joins the chain. -/
theorem ChainOk.Grown.other (hg : ChainOk.Grown F fs' c b) (hnd : c.all.Nodup) {i : ℕ}
    (hi : i < c.maps.length) (hj : j < c.maps.length) (hij : i ≠ j) (d d' : Sector) :
    ((fs'.write F.dev b d).write F.dev (c.mapAt j) d').store F.dev (c.mapAt i) =
      BlockMap.layout (c.image i) := by
  have hne : c.mapAt i ≠ c.mapAt j := fun he => hij (Chain.mapAt_inj hnd hi hj he)
  have hnb : c.mapAt i ≠ b := fun he =>
    hg.fresh (he ▸ List.mem_append_left _ (Chain.mapAt_mem hi))
  rw [FsState.write_of_ne hne, FsState.write_of_ne hnb]
  exact hg.chain i hi

/-- The new block is written as a block map of zeroes and the last block map points to it. -/
theorem ChainOk.addMap (h : ChainOk F fs c) (hg : ChainOk.Grown F fs' c b)
    (hj : j + 1 = c.maps.length) (hfull : c.blocks.length ≤ 127 * c.maps.length) :
    ChainOk F ((fs'.write F.dev b Sector.zero).write F.dev (c.mapAt j)
      (BlockMap.layout { c.image j with next := b })) (c.addMap b) := by
  have hjlt : j < c.maps.length := by omega
  have hmem : c.mapAt j ∈ c.all := List.mem_append_left _ (Chain.mapAt_mem hjlt)
  have hperm : (c.addMap b).all.Perm (b :: c.all) := by
    simp only [Chain.all, Chain.addMap]
    rw [List.append_assoc]
    exact List.perm_middle
  refine h.extend hg hperm hmem fun i hi => ?_
  rw [Chain.addMap_length] at hi
  by_cases hlast : i = c.maps.length
  · have hbj : b ≠ c.mapAt j := fun he => hg.fresh (he ▸ hmem)
    rw [hlast, Chain.addMap_mapAt_last, FsState.write_of_ne hbj, FsState.write_self,
      Chain.image_addMap_new hfull, BlockMap.layout_zero]
  · have hilt : i < c.maps.length := by omega
    rw [Chain.addMap_mapAt_lt hilt]
    by_cases hij : i = j
    · rw [hij, FsState.write_self, Chain.image_addMap_last hj]
    · rw [hg.other h.nodup hilt hjlt hij, Chain.image_addMap_of_lt (by omega)]

/-- The chain of a file without blocks. -/
def Chain.empty : Chain := ⟨[], []⟩

theorem Chain.all_singleton (b : BlockNo) : (⟨[b], []⟩ : Chain).all.Perm (b :: Chain.empty.all) :=
  List.Perm.refl [b]

/-- The new block is the first block map. -/
theorem ChainOk.addFirst (hg : ChainOk.Grown F fs' .empty b) (data : Sector) :
    ChainOk F ((fs'.write F.dev F.self data).write F.dev b Sector.zero) ⟨[b], []⟩ where
  owns := by
    rw [Setting.others_union (Chain.all_singleton b)]
    exact (hg.owns.write F.selfMap _).write (F.not_inMap hg.covers) _
  nodup := List.nodup_singleton b
  new b' hb' := by
    rw [List.mem_singleton.mp hb']
    exact hg.new
  disk j hj := by
    have hj0 : j = 0 := Nat.lt_one_iff.mp hj
    subst hj0
    exact (FsState.write_self _ _ _ _).trans BlockMap.layout_zero.symm
  frame b' hb' := by
    have h1 : b' ≠ b := fun he => F.not_foreign hg.covers hg.new (he ▸ hb')
    rw [FsState.write_of_ne h1, FsState.write_of_ne hb'.1]
    exact hg.frame b' hb'
  tight he := by
    rw [Setting.others_union (Chain.all_singleton b)]
    exact ((hg.tight he).write (HeldOk.ok hg.owns) F.selfMap _).write
      (HeldOk.ok (hg.owns.write F.selfMap _)) (F.not_inMap hg.covers) _

/-- The new block is written as a data block and entered in the last block map. -/
theorem ChainOk.addBlock (h : ChainOk F fs c) (hg : ChainOk.Grown F fs' c b)
    (hj : c.blocks.length / 127 < c.maps.length) {i : BlockNo}
    (hi : i.toNat = c.blocks.length % 127) (data : Sector) :
    ChainOk F ((fs'.write F.dev b data).write F.dev (c.mapAt (c.blocks.length / 127))
      (BlockMap.layout ((c.image (c.blocks.length / 127)).setEntry i b))) (c.addBlock b) := by
  have hperm : (c.addBlock b).all.Perm (b :: c.all) := by
    simp only [Chain.all, Chain.addBlock]
    rw [← List.append_assoc]
    exact List.perm_append_singleton b _
  refine h.extend hg hperm (List.mem_append_left _ (Chain.mapAt_mem hj)) fun k hk => ?_
  rw [Chain.addBlock_maps] at hk
  rw [Chain.addBlock_mapAt]
  by_cases hkj : k = c.blocks.length / 127
  · rw [hkj, FsState.write_self, Chain.image_addBlock hi]
  · rw [hg.other h.nodup hk hj hkj, Chain.image_addBlock_of_ne hkj]

end ChainOk

end OxKernel.Fs
