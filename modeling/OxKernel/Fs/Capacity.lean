import OxKernel.Fs.AllocatorRecord

/-!
# Capacity and regions of a volume

A map block holds 512 usable bits, but `inode_create_fs` counts it as 4096 and makes at
least one, and a scan compares no bit with the number of inodes or data blocks. So the
blocks that a map can hand out and the region that the layout sets aside for it agree in
one direction or the other depending on the size alone: the blocks handed out stay in
their regions exactly for the volumes of 2560 blocks or more, and all promised blocks can
be handed out exactly for the volumes of at most 641 blocks.

## Main definitions

* `Shape.InRegion` — the blocks between the start and the end of a region.
* `Contained` — the blocks returned in a run lie in their regions.
* `Complete` — a get fails only when its region is full.
* `Consecutive`, `LayoutFits` — the layout that `inode_mkfs` records.
-/
namespace OxKernel.Fs

/-- A block of the region that a map describes. -/
def Shape.InRegion (g : Shape) (k : MapKind) (b : BlockNo) : Prop :=
  (g.regionStart k).toNat ≤ b.toNat ∧ b.toNat < (g.regionEnd k).toNat

instance (g : Shape) (k : MapKind) (b : BlockNo) : Decidable (g.InRegion k b) :=
  inferInstanceAs (Decidable (_ ∧ _))

/-- The events of a run of the allocators. -/
abbrev AllocTrace := List (AllocOp × InodeRtvl × BlockNo)

/-- The blocks returned in a run lie in their regions; hence a block returned for an inode
is neither one returned for data nor a map block. -/
structure Contained (g : Shape) (events : AllocTrace) : Prop where
  region : ∀ k b, (AllocOp.get k, InodeRtvl.ok, b) ∈ events → g.InRegion k b
  data : ∀ b, (AllocOp.get .imap, InodeRtvl.ok, b) ∈ events →
    (AllocOp.get .bmap, InodeRtvl.ok, b) ∉ events
  map : ∀ b k, (AllocOp.get .imap, InodeRtvl.ok, b) ∈ events → ¬ g.InMap k b

/-- A get fails only when all blocks of its region are held. -/
def Complete (g : Shape) (dev : DevNo) (c : Client) : Prop :=
  ∀ k, (AllocOp.step dev (.get k) c).1.1 ≠ .ok → ∀ b, g.InRegion k b → b ∈ c.held k

/-! ## Runs -/

section Runs
variable {g : Shape} {dev : DevNo} {row : Fin inodeNrDev} {c : Client} {k : MapKind}

/-- The block a get returns has a bit. -/
theorem HeldOk.get_covers (h : HeldOk g dev row c) {b : BlockNo}
    (hget : (AllocOp.step dev (.get k) c).1 = (.ok, b)) : g.Covers k b := by
  rw [step_get_reply] at hget
  rcases getBlock_flat (k := k) h.ok 0 with ht | ⟨-, -, hr⟩
  · obtain ⟨p, i, w, hp, hi, -, -, -, hr⟩ := ht
    rw [hr] at hget
    rw [← (Prod.mk.inj hget).2]
    exact Shape.covers_blockAt h.ok.sound hp hi
  · rw [hr] at hget
    cases (Prod.mk.inj hget).1

/-- Every block returned in a run has a bit. -/
theorem trace_covers {s : FsState Disk} (h : Fresh g row s) {ops : List AllocOp}
    (hops : (allocMachine 0).Admits (fun c op => op.Matching c) ops (Client.start s)) {b : BlockNo}
    (hb : (AllocOp.get k, InodeRtvl.ok, b) ∈ (allocMachine 0).trace ops (Client.start s)) :
    g.Covers k b := by
  have hev := Lib.Machine.trace_invariant (M := allocMachine 0) (P := HeldOk g 0 row)
    (fun op r => ∀ k b, op = .get k → r = (.ok, b) → g.Covers k b)
    (fun c op hc hop => ⟨fun k b he hr => hc.get_covers (by rw [← he]; exact hr), hc.step hop⟩)
    ops _ h.heldOk hops _ hb
  exact hev k b rfl rfl

/-- A held block was held before the run or returned in it. -/
theorem mem_held_exec (ops : List AllocOp) (c : Client) {b : BlockNo}
    (hb : b ∈ ((allocMachine dev).exec ops c).held k) :
    b ∈ c.held k ∨ (AllocOp.get k, InodeRtvl.ok, b) ∈ (allocMachine dev).trace ops c := by
  induction ops generalizing c with
  | nil => exact Or.inl hb
  | cons op ops ih =>
      rw [Lib.Machine.trace_cons, List.mem_cons]
      rcases ih _ hb with hmem | hmem
      · cases op with
        | get k' =>
            simp only [allocMachine, AllocOp.step] at hmem ⊢
            split at hmem
            · rcases Client.mem_take_held.mp hmem with ⟨rfl, rfl⟩ | hmem
              · exact Or.inr (Or.inl rfl)
              · exact Or.inl hmem
            · exact Or.inl hmem
        | free k' b' =>
            simp only [allocMachine, AllocOp.step] at hmem
            split at hmem
            · exact Or.inl (Client.mem_give_held.mp hmem).2
            · exact Or.inl hmem
      · exact Or.inr (Or.inr hmem)

end Runs

/-! ## A map that is filled -/

section Fill
variable {g : Shape} {row : Fin inodeNrDev} {s : FsState Disk} {k : MapKind} {n : ℕ}

/-- The number of blocks in a region. -/
def Shape.regionLen (g : Shape) (k : MapKind) : ℕ :=
  (g.regionEnd k).toNat - (g.regionStart k).toNat

theorem Shape.mem_region {b : BlockNo} :
    b ∈ blockRange (g.regionStart k) (g.regionLen k) ↔ g.InRegion k b := by
  have hend := (g.regionEnd k).toNat_lt
  have hstart := (g.regionStart k).toNat_lt
  rw [regionLen, mem_blockRange (by omega), InRegion]
  omega

theorem Shape.card_region : (blockRange (g.regionStart k) (g.regionLen k)).card = g.regionLen k := by
  have hend := (g.regionEnd k).toNat_lt
  have hstart := (g.regionStart k).toNat_lt
  exact card_blockRange (by rw [regionLen]; omega)

/-- **More gets than blocks**: if the map has more bits than the region has blocks, a run
of gets leaves the region. -/
theorem Fresh.overrun (h : Fresh g row s) (hlow : g.regionLen k < n) (hhigh : n ≤ 512 * g.mapLen k) :
    ¬ Contained g ((allocMachine 0).trace (List.replicate n (.get k)) (Client.start s)) := by
  intro hcon
  have hempty : ((Client.start s).held k).card = 0 := rfl
  obtain ⟨-, hcard⟩ := h.recordsHeld.fill (k := k) (n := n) (by omega)
  have hsub : ((allocMachine 0).exec (List.replicate n (.get k)) (Client.start s)).held k ⊆
      blockRange (g.regionStart k) (g.regionLen k) := by
    intro b hb
    refine Shape.mem_region.mpr (hcon.region k b ?_)
    exact (mem_held_exec _ _ hb).resolve_left (Finset.notMem_empty b)
  have hle := Finset.card_le_card hsub
  rw [Shape.card_region] at hle
  omega

/-- **As many gets as bits**: the next get fails, and the held blocks are the covered ones. -/
theorem Fresh.exhausted (h : Fresh g row s) (hn : n = 512 * g.mapLen k) :
    (AllocOp.step 0 (.get k)
        ((allocMachine 0).exec (List.replicate n (.get k)) (Client.start s))).1 =
        (.fail, inodeNull) ∧
      ((allocMachine 0).exec (List.replicate n (.get k)) (Client.start s)).held k =
        g.covered k := by
  have hempty : ((Client.start s).held k).card = 0 := rfl
  obtain ⟨hfill, hcard⟩ := h.recordsHeld.fill (k := k) (n := n) (by omega)
  constructor
  · rcases hfill.get k with ⟨b, fs, hb, hnew, -, -⟩ | ⟨fs, -, hstep, -⟩
    · exact absurd (hfill.full (by omega) hb) hnew
    · rw [hstep]
  · refine Finset.eq_of_subset_of_card_le hfill.held_subset ?_
    rw [Shape.card_covered h.ok.sound]
    omega

/-- So a region with more blocks than its map has bits is never exhausted. -/
theorem Fresh.incomplete (h : Fresh g row s) (hn : n = 512 * g.mapLen k) (hlt : n < g.regionLen k) :
    ¬ Complete g 0 ((allocMachine 0).exec (List.replicate n (.get k)) (Client.start s)) := by
  intro hcon
  obtain ⟨hfail, hheld⟩ := h.exhausted hn
  have hsub : blockRange (g.regionStart k) (g.regionLen k) ⊆ g.covered k := by
    intro b hb
    rw [← hheld]
    exact hcon k (by rw [hfail]; decide) b (Shape.mem_region.mp hb)
  have hle := Finset.card_le_card hsub
  rw [Shape.card_region, Shape.card_covered h.ok.sound] at hle
  omega

end Fill

/-! ## The size decides -/

section Size
variable {n : BlockNo}

theorem volumeShape_mapLen (hn : n.toNat < 8388608) (k : MapKind) :
    (volumeShape n).mapLen k = mapBlocks (volumeCount n.toNat k) := by
  rw [Shape.mapLen, (volumeShape_numbers hn).mapEnd, Nat.add_sub_cancel_left]

theorem volumeShape_regionLen (hn : n.toNat < 8388608) (k : MapKind) :
    (volumeShape n).regionLen k = volumeCount n.toNat k := by
  rw [Shape.regionLen, (volumeShape_numbers hn).regionEnd, Nat.add_sub_cancel_left]

/-- The regions and the maps of a volume are apart. -/
theorem volumeShape_apart (hn : n.toNat < 8388608) {b : BlockNo}
    (hb : (volumeShape n).InRegion .imap b) :
    ¬ (volumeShape n).InRegion .bmap b ∧ ∀ k, ¬ (volumeShape n).InMap k b := by
  have H := volumeShape_numbers hn
  have hi := H.regionStart .imap
  have hd := H.regionStart .bmap
  have he := H.regionEnd .imap
  have hms := H.mapStart .imap
  have hms' := H.mapStart .bmap
  have hme := H.mapEnd .imap
  have hme' := H.mapEnd .bmap
  simp only [volumeCount] at hi hd he hms hms' hme hme'
  simp only [Shape.InRegion] at hb ⊢
  refine ⟨by omega, fun k => ?_⟩
  cases k <;> (simp only [Shape.InMap]; omega)

/-- From 2560 blocks on, no map has more bits than its region has blocks. -/
theorem covers_inRegion (hn : n.toNat < 8388608) (hsize : 2560 ≤ n.toNat) {k : MapKind}
    {b : BlockNo} (hb : (volumeShape n).Covers k b) : (volumeShape n).InRegion k b := by
  have hend := (volumeShape_numbers hn).regionEnd k
  rw [Shape.Covers, volumeShape_mapLen hn] at hb
  refine ⟨hb.1, ?_⟩
  have hle : 512 * mapBlocks (volumeCount n.toNat k) ≤ volumeCount n.toNat k := by
    cases k <;> simp only [mapBlocks, volumeCount, volumeInodes, volumeBlocks] <;> omega
  omega

/-- Up to 641 blocks, each map is one block with a bit for every block of its region. -/
theorem small_volume (hn : n.toNat < 8388608) (hsize : n.toNat ≤ 641) (k : MapKind) :
    (volumeShape n).mapLen k = 1 ∧ (volumeShape n).regionLen k ≤ 512 := by
  rw [volumeShape_mapLen hn, volumeShape_regionLen hn]
  cases k <;> simp only [mapBlocks, volumeCount, volumeInodes, volumeBlocks] <;> omega

end Size

section Volumes
variable {s s₁ s' : FsState Disk} {path : String} {size : BlockNo} {d dev : DevNo}

theorem mounted_fresh (hmake : inodeCreateFs flatStore path blockStart size s = (.ok, s₁))
    (hmount : inodeDevOpen flatStore path d s₁ = (.ok, dev, s')) :
    dev = 0 ∧ ∃ row, Fresh (volumeShape (size / 512)) row s' := by
  obtain ⟨row, hrow⟩ := exists_rowFor_made hmake
  obtain ⟨s₂, hopen, hf, -⟩ := mount_fresh hmake hrow d
  rw [hopen] at hmount
  simp only [Prod.mk.injEq, true_and] at hmount
  rw [← hmount.2]
  exact ⟨hmount.1.symm, row, hf⟩

theorem size_div (size : BlockNo) : (size / 512).toNat = size.toNat / 512 := by
  simp only [UInt32.toNat_div, UInt32.toNat_ofNat, Nat.reducePow, Nat.reduceMod]

/-- The data blocks come after everything else on a volume. -/
theorem data_above (size : BlockNo) {b : BlockNo} (hb : (volumeShape (size / 512)).Covers .bmap b) :
    b ≠ inodeNull ∧ b ≠ (volumeShape (size / 512)).blockStart ∧
      ¬ (volumeShape (size / 512)).InRegion .imap b ∧
      ∀ k, ¬ (volumeShape (size / 512)).InMap k b := by
  have H := volumeShape_numbers (volumeSize_lt size)
  have hi := H.regionStart .imap
  have hd := H.regionStart .bmap
  have he := H.regionEnd .imap
  have hms' := H.mapStart .bmap
  have hme := H.mapEnd .imap
  have hms := H.mapStart .imap
  have hme' := H.mapEnd .bmap
  have hstart := H.blockStart
  simp only [volumeCount] at hi hd he hms hms' hme hme'
  have hle := hb.1
  refine ⟨?_, ?_, ?_, fun k => ?_⟩
  · intro h0
    rw [h0] at hle
    have hnull : inodeNull.toNat = 0 := rfl
    omega
  · intro h0
    rw [h0] at hle
    omega
  · simp only [Shape.InRegion]
    omega
  · cases k <;> (simp only [Shape.InMap]; omega)

theorem inode_ne_master {size b : BlockNo} (hb : (volumeShape (size / 512)).InRegion .imap b) :
    b ≠ (volumeShape (size / 512)).blockStart := by
  have H := volumeShape_numbers (volumeSize_lt size)
  have hi := H.regionStart .imap
  have hstart := H.blockStart
  have hle := hb.1
  intro h0
  rw [h0] at hle
  simp only at hi
  omega

/-- **Region containment.** On a file system made by `inode_create_fs` and mounted by
`inode_dev_open`, the blocks returned in every run of gets and matching frees stay in their
regions, if and only if the volume has at least 2560 blocks. -/
theorem contained_iff (hmake : inodeCreateFs flatStore path blockStart size s = (.ok, s₁))
    (hmount : inodeDevOpen flatStore path d s₁ = (.ok, dev, s')) :
    (∀ ops, (allocMachine dev).Admits (fun c op => op.Matching c) ops (Client.start s') →
      Contained (volumeShape (size / 512)) ((allocMachine dev).trace ops (Client.start s'))) ↔
    2560 ≤ size.toNat / 512 := by
  obtain ⟨rfl, row, hF⟩ := mounted_fresh hmake hmount
  have hn := volumeSize_lt size
  rw [← size_div]
  constructor
  · intro h
    by_contra hsmall
    have hlen := volumeShape_mapLen hn .imap
    have hreg := volumeShape_regionLen hn .imap
    simp only [mapBlocks, volumeCount, volumeInodes] at hlen hreg
    have hrun := h (List.replicate ((volumeShape (size / 512)).regionLen .imap + 1) (.get .imap))
      (replicate_get_matching _ _ _ _)
    exact hF.overrun (Nat.lt_succ_self _) (by omega) hrun
  · intro hsize ops hops
    have hregion : ∀ k b, (AllocOp.get k, InodeRtvl.ok, b) ∈
        (allocMachine 0).trace ops (Client.start s') →
        (volumeShape (size / 512)).InRegion k b := fun k b hb =>
      covers_inRegion hn hsize (trace_covers hF hops hb)
    refine ⟨hregion, fun b hb hdata => ?_, fun b k hb => ?_⟩
    · exact (volumeShape_apart hn (hregion _ b hb)).1 (hregion _ b hdata)
    · exact (volumeShape_apart hn (hregion _ b hb)).2 k

/-- A volume of 10240 blocks is large enough. -/
theorem contained_volume_10240 :
    2560 ≤ (5242880 : BlockNo).toNat / 512 ∧
      ∀ ops, (allocMachine 0).Admits (fun c op => op.Matching c) ops
          (Client.start (mountedVolume 5242880)) →
        Contained (volumeShape (5242880 / 512))
          ((allocMachine 0).trace ops (Client.start (mountedVolume 5242880))) :=
  ⟨by decide, (contained_iff (madeVolume_eq rfl) (mountedVolume_spec rfl).1).mpr (by decide)⟩

/-- A volume of 2048 blocks has 409 inodes and one block for their map: 410 gets leave the
region. -/
theorem not_contained_volume_2048 :
    (allocMachine 0).Admits (fun c op => op.Matching c) (List.replicate 410 (.get .imap))
        (Client.start (mountedVolume 1048576)) ∧
      ¬ Contained (volumeShape (1048576 / 512))
        ((allocMachine 0).trace (List.replicate 410 (.get .imap))
          (Client.start (mountedVolume 1048576))) := by
  have hlen := volumeShape_mapLen (volumeSize_lt 1048576) .imap
  have hreg := volumeShape_regionLen (volumeSize_lt 1048576) .imap
  refine ⟨replicate_get_matching _ _ _ _, (mountedVolume_fresh rfl).overrun ?_ ?_⟩
  · rw [hreg]
    decide
  · rw [hlen]
    decide

/-- In a map of one block every free keeps the window. -/
theorem keepsWindow_of_single {g : Shape} {row : Fin inodeNrDev} {c : Client} {k : MapKind}
    (h : MapsOk g dev row c.fs) (hlen : g.mapLen k = 1) {b : BlockNo} (hb : g.Covers k b) :
    KeepsWindow g dev row c.fs k b := by
  left
  have h1 := Shape.inMap_ptrOf h.sound hb
  have h2 := h.ptr k
  simp only [Shape.mapLen] at hlen
  simp only [Shape.InMap] at h1 h2
  exact UInt32.toNat_inj.mp (by omega)

/-- **Allocator completeness.** On a file system made by `inode_create_fs` and mounted by
`inode_dev_open`, a get fails in a reachable state only when all blocks of its region are
held and both scans terminate from every cursor, if and only if the volume has at most
641 blocks. -/
theorem complete_iff (hmake : inodeCreateFs flatStore path blockStart size s = (.ok, s₁))
    (hmount : inodeDevOpen flatStore path d s₁ = (.ok, dev, s')) :
    ((∀ ops, (allocMachine dev).Admits (fun c op => op.Matching c) ops (Client.start s') →
        Complete (volumeShape (size / 512)) dev ((allocMachine dev).exec ops (Client.start s'))) ∧
      ∀ k row a, ∃ n r, (scanLoop flatStore k dev row).iter n a = .inr r) ↔
    size.toNat / 512 ≤ 641 := by
  obtain ⟨rfl, row, hF⟩ := mounted_fresh hmake hmount
  have hn := volumeSize_lt size
  rw [← size_div]
  constructor
  · intro h
    by_contra hlarge
    have hlen := volumeShape_mapLen hn .bmap
    have hreg := volumeShape_regionLen hn .bmap
    simp only [mapBlocks, volumeCount, volumeBlocks] at hlen hreg
    have hrun := h.1 (List.replicate (512 * (volumeShape (size / 512)).mapLen .bmap) (.get .bmap))
      (replicate_get_matching _ _ _ _)
    exact hF.incomplete rfl (by omega) hrun
  · intro hsize
    refine ⟨fun ops hops => ?_, fun k row a => ?_⟩
    · have hinv : RecordsHeld (volumeShape (size / 512)) 0 row
          ((allocMachine 0).exec ops (Client.start s')) := by
        refine Lib.Machine.exec_invariant (fun c op hc hop => ?_) ops _ hF.recordsHeld hops
        cases op with
        | get k =>
            rcases hc.get k with ⟨b, fs, -, -, hstep, h'⟩ | ⟨fs, -, hstep, h'⟩ <;>
            · simp only [allocMachine, hstep]
              exact h'
        | free k b =>
            exact hc.free hop
              (keepsWindow_of_single hc.ok (small_volume hn hsize k).1 (hc.covers k b hop))
      intro k hfail b hb
      obtain ⟨hlen, hreg⟩ := small_volume hn hsize k
      rcases hinv.get k with ⟨b', fs, -, -, hstep, -⟩ | ⟨fs, hall, -, -⟩
      · rw [hstep] at hfail
        exact absurd rfl hfail
      · refine hall b ⟨hb.1, ?_⟩
        have := hb.2
        rw [Shape.regionLen] at hreg
        omega
    · obtain ⟨m, hm⟩ := (scanLoop flatStore k 0 row).exists_iter_eq_run a
      exact ⟨m, _, hm⟩

/-- A volume of 640 blocks is small enough. -/
theorem complete_volume_640 :
    (∀ ops, (allocMachine 0).Admits (fun c op => op.Matching c) ops
        (Client.start (mountedVolume 327680)) →
      Complete (volumeShape (327680 / 512)) 0
        ((allocMachine 0).exec ops (Client.start (mountedVolume 327680)))) ∧
      ∀ k row a, ∃ n r, (scanLoop flatStore k 0 row).iter n a = .inr r :=
  (complete_iff (madeVolume_eq rfl) (mountedVolume_spec rfl).1).mpr (by decide)

/-- A volume of 10240 blocks promises 8192 data blocks; after 1024 gets the next one fails,
and block 7172 of the data region is not held. -/
theorem not_complete_volume_10240 :
    (AllocOp.step 0 (.get .bmap) ((allocMachine 0).exec (List.replicate 1024 (.get .bmap))
        (Client.start (mountedVolume 5242880)))).1 = (.fail, inodeNull) ∧
      (volumeShape (5242880 / 512)).InRegion .bmap 7172 ∧
      7172 ∉ ((allocMachine 0).exec (List.replicate 1024 (.get .bmap))
        (Client.start (mountedVolume 5242880))).held .bmap := by
  obtain ⟨hlen, hstart⟩ := bmap_10240
  have hF := @mountedVolume_fresh 5242880 rfl
  have hend : ((volumeShape (5242880 / 512)).regionEnd .bmap).toNat = 14340 := by
    rw [(volumeShape_numbers (volumeSize_lt 5242880)).regionEnd, hstart]
    decide
  obtain ⟨hfail, hheld⟩ := hF.exhausted (k := .bmap) (n := 1024) (by rw [hlen])
  refine ⟨hfail, ?_, ?_⟩
  · rw [Shape.InRegion, hstart, hend]
    decide
  · rw [hheld, Shape.mem_covered hF.ok.sound, Shape.Covers, hlen, hstart]
    decide

end Volumes

/-! ## The layout that `inode_mkfs` records -/

/-- The regions of a volume follow each other without a gap, and none of their bounds has
wrapped; so no two of them share a block. -/
structure Consecutive (m : Master) : Prop where
  master : m.inodeMapStart.toNat = m.blockStart.toNat + 1
  maps : m.bmapMapStart = m.inodeMapEnd
  inodes : m.inodeStart = m.bmapMapEnd
  data : m.dataStart = m.inodeEnd
  mapBounds : ∀ k, (m.mapStart k).toNat ≤ (m.mapEnd k).toNat
  regionBounds : ∀ k, (m.regionEnd k).toNat = (m.regionStart k).toNat + (m.count k).toNat

/-- The layout fits on a disk of `size` bytes, 2 MB of which come before the file system:
the bits of the map blocks are enough, and the last region ends on the disk. -/
structure LayoutFits (m : Master) (size : BlockNo) : Prop extends Consecutive m where
  bits : ∀ k, (m.count k).toNat ≤ 4096 * ((m.mapEnd k).toNat - (m.mapStart k).toNat)
  ends : m.dataEnd.toNat ≤ blockStart.toNat + (size - 2097152).toNat / 512

section Layout
variable {path : String} {size : BlockNo} {s s' : FsState Disk}

/-- The master that `inode_mkfs` has written. -/
def recordedMaster (s : FsState Disk) : Master := Master.layout.symm (s.store 0 blockStart)

theorem recordedMaster_shape (h : inodeMkfs flatStore path size s = (.ok, s')) :
    (recordedMaster s').shape = volumeShape ((size - 2097152) / 512) := by
  obtain ⟨-, -, -, m, hm, -, hstore, -⟩ := inodeCreateFs_flat h
  rw [recordedMaster, hstore, Equiv.symm_apply_apply]
  exact hm.shape

/-- The regions that `inode_mkfs` records are consecutive, for every size. -/
theorem mkfs_consecutive (h : inodeMkfs flatStore path size s = (.ok, s')) :
    Consecutive (recordedMaster s') := by
  have hshape := recordedMaster_shape h
  have hn := volumeSize_lt (size - 2097152)
  have H := volumeShape_numbers hn
  rw [← hshape] at H
  have hstart := H.mapStart
  have hend := H.mapEnd
  have hregion := H.regionStart
  have hlast := H.regionEnd
  constructor
  · exact (hstart .imap).trans (congrArg (· + 1) H.blockStart.symm)
  · apply UInt32.toNat_inj.mp
    have h1 := hend .imap
    rw [hstart .imap] at h1
    exact (hstart .bmap).trans h1.symm
  · apply UInt32.toNat_inj.mp
    have h1 := hend .bmap
    rw [hstart .bmap] at h1
    exact (hregion .imap).trans h1.symm
  · apply UInt32.toNat_inj.mp
    have h1 := hlast .imap
    rw [hregion .imap] at h1
    exact (hregion .bmap).trans h1.symm
  · intro k
    exact le_of_le_of_eq (Nat.le_add_right _ _) (hend k).symm
  · intro k
    exact (hlast k).trans (congrArg _ (H.count k).symm)

/-- **The layout never fits.** The inodes and the data blocks take up the whole space after
the first 2 MB, but for one block at most, and the master and the maps come on top. -/
theorem mkfs_overruns (h : inodeMkfs flatStore path size s = (.ok, s')) :
    ¬ LayoutFits (recordedMaster s') size := by
  intro hfits
  have hn := volumeSize_lt (size - 2097152)
  have H := volumeShape_numbers hn
  rw [← recordedMaster_shape h] at H
  have hends := hfits.ends
  have hlast := H.regionEnd .bmap
  rw [H.regionStart .bmap] at hlast
  have hdata : (recordedMaster s').dataEnd.toNat =
      4097 + mapBlocks (volumeInodes ((size - 2097152) / 512).toNat) +
        mapBlocks (volumeBlocks ((size - 2097152) / 512).toNat) +
        volumeInodes ((size - 2097152) / 512).toNat +
        volumeBlocks ((size - 2097152) / 512).toNat := hlast
  have hbs : blockStart.toNat = 4096 := rfl
  rw [hdata, hbs, ← size_div] at hends
  generalize ((size - 2097152) / 512).toNat = n at hends
  simp only [volumeInodes, volumeBlocks, mapBlocks] at hends
  omega

/-- The image of 4 MB that the tests use. -/
theorem mkfs_overruns_4mb :
    inodeMkfs flatStore "/" 4194304 (FsState.boot fun _ _ => Sector.zero) =
        (.ok, madeVolume 2097152) ∧
      ¬ LayoutFits (recordedMaster (madeVolume 2097152)) 4194304 :=
  ⟨madeVolume_eq rfl, mkfs_overruns (madeVolume_eq rfl : inodeMkfs flatStore "/" 4194304 _ = _)⟩

/-- On that image the data region ends two blocks behind the end of the disk. -/
theorem data_end_4mb :
    (recordedMaster (madeVolume 2097152)).dataEnd = 8194 ∧
      ¬ LayoutFits (recordedMaster (madeVolume 2097152)) 4194304 := by
  have hmade : inodeMkfs flatStore "/" 4194304 (FsState.boot fun _ _ => Sector.zero) =
      (.ok, madeVolume 2097152) := madeVolume_eq rfl
  have hend : (recordedMaster (madeVolume 2097152)).dataEnd = 8194 :=
    congrFun (congrArg Shape.regionEnd (recordedMaster_shape hmade)) .bmap
  refine ⟨hend, fun hfits => ?_⟩
  have hends := hfits.ends
  rw [hend] at hends
  exact absurd hends (by decide)

end Layout

end OxKernel.Fs
