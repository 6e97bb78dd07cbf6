import OxKernel.Fs.FileTransfer

/-!
# Finding the block of a position

`file_read_write` starts in one of four ways: it makes the first blocks of an empty file,
takes the first block after an open, resumes where the last transfer ended, or scans the
chain from its head after a `klseek`. `FileOk` is the invariant of an open file, and
`CursorOk` the part of it that the four ways rely on. They agree on the block of the
position, except for the scan at a position that is a multiple of 127 * 512 other than 0:
it stops one block map early.

## Main definitions

* `FileOk`, `CursorOk` — an open file, its bytes and its cursor.
* `Inode.ScansShort` — the scan would stop one block map early.
-/
namespace OxKernel.Fs

open Lib (Attempt)

/-! ## Open files -/

/-- The cached block of an inode is that of its position, or it has none. -/
def CursorOk (c : Chain) (n : Inode) : Prop :=
  n.iblock = iblockNopos ∨ (n.pos = 0 ∧ n.current = inodeNull) ∨
    (n.current = c.blockAt (n.pos.toNat / 512) ∧
      n.currentParent = c.mapAt (n.pos.toNat / 512 / 127) ∧
      n.iblock.toUInt32.toNat = n.pos.toNat / 512 % 127)

/-- An open file: its chain is on disk with a block for the byte after its last one, or is
still to be made, and holds the bytes; the position is inside the file. -/
structure FileOk (F : Setting) (fs : FsState Disk) (n : Inode) (c : Chain) (bytes : ℕ → UInt8) :
    Prop where
  self : n.self = F.self
  dev : n.dev = F.dev
  ok : ChainOk F fs c
  head : c.mapAt 0 = n.next
  fits : (c = .empty ∧ n.size = 0) ∨ c.Fits (n.size.toNat / 512 + 1)
  holds : Holds (fs.store F.dev) c n.size.toNat bytes
  le : n.pos.toNat ≤ n.size.toNat
  cursor : CursorOk c n

/-- The next transfer has to scan the chain, for a position at which the scan stops one
block map early. -/
def Inode.ScansShort (n : Inode) : Prop :=
  n.iblock = iblockNopos ∧ n.pos ≠ 0 ∧ n.pos.toNat % 65024 = 0

instance (n : Inode) : Decidable n.ScansShort := by
  unfold Inode.ScansShort
  infer_instance

/-! ## The arithmetic of the scan -/

/-- A chain has fewer blocks than there are block numbers. -/
theorem ChainOk.length_lt {F : Setting} {fs : FsState Disk} {c : Chain} (h : ChainOk F fs c) :
    c.all.length ≤ 512 * F.g.mapLen .bmap := by
  have hg := (HeldOk.ok h.owns).sound
  have hsub : c.all.toFinset ⊆ F.g.covered .bmap := by
    intro b hb
    rw [Shape.mem_covered hg]
    exact h.covers (List.mem_toFinset.mp hb)
  have hcard := Finset.card_le_card hsub
  rwa [List.toFinset_card_of_nodup h.nodup, Shape.card_covered hg] at hcard

section Scan
variable {pos : UInt64}

theorem mapIndex_toNat (hq : pos.toNat / 512 < 2 ^ 32) :
    (mapIndex pos).toNat = pos.toNat / 512 % 127 := by
  simp only [mapIndex, UInt32.toNat_mod, UInt64.toNat_toUInt32, UInt64.toNat_div, UInt32.toNat_ofNat,
    UInt64.toNat_ofNat, Nat.reducePow, Nat.reduceMod] at hq ⊢
  rw [Nat.mod_eq_of_lt hq]

theorem ceil_toNat (b : BlockNo) :
    (b / 127 + if b % 127 ≠ 0 then 1 else 0).toNat = (b.toNat + 126) / 127 := by
  have hb := b.toNat_lt
  have hmod : b % 127 ≠ 0 ↔ b.toNat % 127 ≠ 0 := by
    rw [ne_eq, ← UInt32.toNat_inj, UInt32.toNat_mod]
    exact Iff.rfl
  by_cases h0 : b.toNat % 127 = 0
  · rw [if_neg (fun h => hmod.mp h h0)]
    simp only [UInt32.toNat_add, UInt32.toNat_div, UInt32.toNat_ofNat, Nat.reducePow,
      Nat.reduceMod] at hb ⊢
    omega
  · rw [if_pos (hmod.mpr h0)]
    simp only [UInt32.toNat_add, UInt32.toNat_div, UInt32.toNat_ofNat, Nat.reducePow,
      Nat.reduceMod] at hb ⊢
    omega

theorem pos_eq_zero_iff (pos : UInt64) : pos = 0 ↔ pos.toNat = 0 := by
  rw [← UInt64.toNat_inj]
  exact Iff.rfl

theorem pos_mod_eq_zero_iff (pos : UInt64) : pos % 512 = 0 ↔ pos.toNat % 512 = 0 := by
  rw [← UInt64.toNat_inj, UInt64.toNat_mod]
  exact Iff.rfl

/-- The number of whole blocks in front of a position, as a block number. -/
theorem toNat_wholeBlocks (pos : UInt64) :
    (pos / 512).toUInt32.toNat = pos.toNat / 512 % 2 ^ 32 := by
  simp only [UInt64.toNat_toUInt32, UInt64.toNat_div, UInt64.toNat_ofNat, Nat.reducePow,
    Nat.reduceMod]

/-- **The scan reads one block map too few** at the multiples of 127 * 512 other than 0. -/
theorem mapSteps_toNat (hq : pos.toNat / 512 + 1 < 2 ^ 32) :
    (mapSteps pos).toNat =
      if pos ≠ 0 ∧ pos.toNat % 65024 = 0 then pos.toNat / 512 / 127
      else pos.toNat / 512 / 127 + 1 := by
  have hdiv : (pos / 512).toUInt32.toNat = pos.toNat / 512 := by
    rw [toNat_wholeBlocks]
    exact Nat.mod_eq_of_lt (by omega)
  rw [mapSteps, ceil_toNat]
  simp only [ne_eq, pos_mod_eq_zero_iff, pos_eq_zero_iff pos, UInt32.toNat_add, hdiv]
  by_cases hpos : pos.toNat = 0
  · simp [hpos]
  · by_cases hm : pos.toNat % 512 = 0
    · simp only [hpos, hm, not_true_eq_false, not_false_eq_true, if_false, UInt32.toNat_ofNat,
        Nat.reducePow, Nat.reduceMod, true_and] at hq ⊢
      by_cases hwrap : pos.toNat % 65024 = 0
      · rw [if_pos hwrap]
        omega
      · rw [if_neg hwrap]
        omega
    · have hwrap : ¬ pos.toNat % 65024 = 0 := by omega
      simp only [hpos, hm, hwrap, not_false_eq_true, if_true, if_false, UInt32.toNat_ofNat,
        Nat.reducePow, Nat.reduceMod, and_false] at hq ⊢
      omega

end Scan

/-! ## The four ways -/

section Locate
variable {F : Setting} {s : FileIo Disk} {n : Inode} {c : Chain} {q : ℕ} {pos : UInt64}

theorem chainStep_flat (h : ChainOk F s.fs c) {j : ℕ} (hj : j < c.maps.length)
    {a : BlockNo × BlockMap} (ha : a.2.next = c.mapAt j) :
    chainStep flatStore F.dev a s = (some (c.mapAt j, c.image j), s) := by
  simp only [chainStep, readMap_bind, ha, h.disk j hj, Equiv.symm_apply_apply]
  rfl

/-- The scan goes along the chain. -/
theorem scan_flat (h : ChainOk F s.fs c) (k : ℕ) :
    ∀ (j : ℕ) (a : BlockNo × BlockMap), a.2.next = c.mapAt j → j + k < c.maps.length →
      Attempt.iterate (chainStep flatStore F.dev) (k + 1) a s =
        (some (c.mapAt (j + k), c.image (j + k)), s) := by
  induction k with
  | zero =>
      intro j a ha hj
      rw [Attempt.iterate_succ, Attempt.bind_of_some (chainStep_flat h hj ha)]
      rfl
  | succ k ih =>
      intro j a ha hj
      rw [Attempt.iterate_succ, Attempt.bind_of_some (chainStep_flat h (by omega) ha),
        ih (j + 1) _ rfl (by omega)]
      have hjk : j + 1 + k = j + (k + 1) := by omega
      rw [hjk]

/-- A scan of `q / 127 + 1` block maps with the index of `q` ends at `q`. -/
theorem locateScan_flat (h : ChainOk F s.fs c) (hhead : c.mapAt 0 = n.next)
    (hq : q < c.blocks.length) (hmap : q / 127 < c.maps.length)
    (hsteps : (mapSteps pos).toNat = q / 127 + 1) (hindex : (mapIndex pos).toNat = q % 127) :
    ∃ t, locateScan flatStore F.dev n pos s = (some t, s) ∧ AtSpot c q t := by
  have hscan := scan_flat h (q / 127) 0 (0, { BlockMap.zero with next := n.next }) hhead.symm
    (by omega)
  rw [Nat.zero_add, ← hsteps] at hscan
  refine ⟨⟨(c.image (q / 127)).entry (mapIndex pos), mapIndex pos, c.mapAt (q / 127),
    c.image (q / 127)⟩, ?_, hq, hmap, Chain.image_entry hindex, hindex, rfl, rfl⟩
  rw [locateScan, Attempt.bind_of_some hscan]
  rfl

theorem locateFirst_flat (h : ChainOk F s.fs c) (hhead : c.mapAt 0 = n.next)
    (hq : 0 < c.blocks.length) (hmap : 0 < c.maps.length) :
    ∃ t, locateFirst flatStore F.dev n s = (some t, s) ∧ AtSpot c 0 t := by
  have hentry : (c.image (0 / 127)).entry 0 = c.blockAt 0 := Chain.image_entry rfl
  refine ⟨⟨(c.image 0).entry 0, 0, c.mapAt 0, c.image 0⟩, ?_, hq, hmap, hentry, rfl, rfl, rfl⟩
  simp only [locateFirst, ← hhead, readMap_bind, h.disk 0 hmap, Equiv.symm_apply_apply]
  rfl

theorem locateResume_flat (h : ChainOk F s.fs c) (hq : q < c.blocks.length)
    (hmap : q / 127 < c.maps.length) (hcur : n.current = c.blockAt q)
    (hparent : n.currentParent = c.mapAt (q / 127)) (hi : n.iblock.toUInt32.toNat = q % 127) :
    ∃ t, locateResume flatStore F.dev n s = (some t, s) ∧ AtSpot c q t := by
  refine ⟨⟨n.current, n.iblock.toUInt32, n.currentParent, c.image (q / 127)⟩, ?_, hq, hmap, hcur, hi,
    hparent, rfl⟩
  simp only [locateResume, hparent, readMap_bind, h.disk _ hmap, Equiv.symm_apply_apply]
  rfl

theorem FsState.write_same (fs : FsState Disk) (dev : DevNo) (b : BlockNo) :
    fs.write dev b (fs.store dev b) = fs := by
  have hset : fs.store.set dev b (fs.store dev b) = fs.store := by
    funext dev' b'
    by_cases he : dev' = dev ∧ b' = b
    · rw [he.1, he.2, Disk.set_self]
    · exact Disk.set_of_ne he
  rw [FsState.write, hset]

/-- **The first transfer on an empty file** makes a chain with one data block. -/
theorem locateFresh_flat (h : ChainOk F s.fs .empty) (hself : s.inode.self = F.self) :
    (∃ c' fs' t, locateFresh flatStore F.dev s =
        (some t, { s with fs := fs', inode := { s.inode with next := c'.mapAt 0 } }) ∧
      ChainOk F fs' c' ∧ c'.Fits 1 ∧ AtSpot c' 0 t) ∨
    (∃ s', locateFresh flatStore F.dev s = (none, s') ∧ Stuck F 1 s'.fs) := by
  rcases h.get with ⟨b, fs₁, hr₁, hg₁, -⟩ | ⟨fs₁, hr₁, hstuck⟩
  · obtain ⟨n, hn⟩ : ∃ n, n = { s.inode with next := b } := ⟨_, rfl⟩
    have hnself : n.self = F.self := by
      rw [hn]
      exact hself
    have hnext : n.next = b := by rw [hn]
    have h₂ := ChainOk.addFirst hg₁ (Inode.layout n)
    have hmap : ((fs₁.write F.dev F.self (Inode.layout n)).write F.dev b Sector.zero).store F.dev b =
        BlockMap.layout ((⟨[b], []⟩ : Chain).image 0) := h₂.disk 0 Nat.one_pos
    rw [locateFresh, Attempt.bind_of_some (getDataBlock_of_ok hr₁), modifyInode_bind, ← hn]
    simp only [getInode_bind, writeBlock_bind, readMap_bind, hnself, hnext, hmap,
      Equiv.symm_apply_apply]
    rcases h₂.get with ⟨b', fs₃, hr₃, hg₃, -⟩ | ⟨fs₃, hr₃, hstuck⟩
    · left
      -- The data block keeps what it held before.
      have h₄ := h₂.addBlock hg₃ (i := 0) (show 0 / 127 < 1 by decide) rfl (fs₃.store F.dev b')
      have hdiv : (⟨[b], []⟩ : Chain).blocks.length / 127 = 0 := Nat.zero_div 127
      have hb : (⟨[b], []⟩ : Chain).mapAt 0 = b := rfl
      rw [FsState.write_same, hdiv, hb] at h₄
      refine ⟨_, _, ⟨b', 0, b, ((⟨[b], []⟩ : Chain).image 0).setEntry 0 b'⟩, ?_, h₄, ⟨rfl, rfl⟩,
        Nat.one_pos, Nat.one_pos, rfl, rfl, rfl, ?_⟩
      · have hn' : n = { s.inode with next := ((⟨[b], []⟩ : Chain).addBlock b').mapAt 0 } := hn
        rw [Attempt.bind_of_some (getDataBlock_of_ok hr₃), writeBlock_bind, ← hn']
        rfl
      · exact (Chain.image_addBlock (c := ⟨[b], []⟩) rfl).symm
    · right
      exact ⟨_, Attempt.bind_of_none (getDataBlock_of_fail hr₃), hstuck⟩
  · right
    refine ⟨{ s with fs := fs₁ }, ?_, hstuck.mono (Nat.zero_le 1)⟩
    rw [locateFresh, Attempt.bind_of_none (getDataBlock_of_fail hr₁)]

variable {bytes : ℕ → UInt8}

/-- A file with a chain has the block of every position up to its size. -/
theorem FileOk.block_lt (h : FileOk F s.fs n c bytes) (hfit : c.Fits (n.size.toNat / 512 + 1)) :
    n.pos.toNat / 512 < c.blocks.length ∧ n.pos.toNat / 512 / 127 < c.maps.length ∧
      n.next ≠ inodeNull ∧ n.pos.toNat / 512 + 1 < 2 ^ 32 := by
  have hle := h.le
  have hlen := h.ok.length_lt
  have hsmall := F.small
  rw [Chain.all_length, hfit.1, hfit.2] at hlen
  refine ⟨by rw [hfit.1]; omega, by rw [hfit.2]; omega, ?_, by omega⟩
  rw [← h.head]
  exact h.ok.mapAt_ne_null (by rw [hfit.2]; omega)

/-- Locating the position of a file that has a chain. -/
theorem locate_chain (h : FileOk F s.fs s.inode c bytes)
    (hfit : c.Fits (s.inode.size.toNat / 512 + 1)) (hshort : ¬ s.inode.ScansShort) :
    ∃ t, locate flatStore F.dev s.inode.pos s = (some t, s) ∧
      AtSpot c (s.inode.pos.toNat / 512) t := by
  obtain ⟨hq, hmap, hnext, hbig⟩ := h.block_lt hfit
  simp only [locate, getInode_bind, if_neg hnext]
  by_cases hfirst : s.inode.pos = 0 ∧ s.inode.current = inodeNull
  · rw [if_pos hfirst, hfirst.1]
    exact locateFirst_flat h.ok h.head (by omega) (by omega)
  · rw [if_neg hfirst]
    rcases h.cursor with hno | hfirst' | ⟨hcur, hparent, hi⟩
    · rw [if_neg (fun hr => hr.2.2 hno)]
      have hwhole : ¬ (s.inode.pos ≠ 0 ∧ s.inode.pos.toNat % 65024 = 0) := fun hp => hshort ⟨hno, hp⟩
      refine locateScan_flat h.ok h.head hq hmap ?_ (mapIndex_toNat (by omega))
      rw [mapSteps_toNat hbig, if_neg hwhole]
    · exact absurd hfirst' hfirst
    · have hcur' : s.inode.current ≠ inodeNull := hcur ▸ h.ok.blockAt_ne_null hq
      have hi' : s.inode.iblock ≠ iblockNopos := by
        intro he
        rw [he] at hi
        have hno : iblockNopos.toUInt32.toNat = 4294967295 := rfl
        omega
      rw [if_pos ⟨trivial, hcur', hi'⟩]
      exact locateResume_flat h.ok hq hmap hcur hparent hi

/-- **The short scan** ends 127 blocks before the position. -/
theorem locate_short (h : FileOk F s.fs s.inode c bytes)
    (hfit : c.Fits (s.inode.size.toNat / 512 + 1)) (hshort : s.inode.ScansShort) :
    ∃ t, locate flatStore F.dev s.inode.pos s = (some t, s) ∧
      AtSpot c (s.inode.pos.toNat / 512 - 127) t := by
  obtain ⟨hq, hmap, hnext, hbig⟩ := h.block_lt hfit
  obtain ⟨hno, hpos, hmul⟩ := hshort
  have hpos' : s.inode.pos.toNat ≠ 0 := fun he => hpos (UInt64.toNat_inj.mp he)
  simp only [locate, getInode_bind, if_neg hnext]
  rw [if_neg (fun hf => hpos hf.1), if_neg (fun hr => hr.2.2 hno)]
  refine locateScan_flat h.ok h.head (by omega) (by omega) ?_ ?_
  · rw [mapSteps_toNat hbig, if_pos ⟨hpos, hmul⟩]
    omega
  · rw [mapIndex_toNat (by omega)]
    omega

/-- **The four ways agree** on the block of the position, unless the scan is short. -/
theorem locate_flat (h : FileOk F s.fs s.inode c bytes) (hshort : ¬ s.inode.ScansShort) :
    (∃ c' fs' t, locate flatStore F.dev s.inode.pos s =
        (some t, { s with fs := fs', inode := { s.inode with next := c'.mapAt 0 } }) ∧
      ChainOk F fs' c' ∧ c'.Fits (s.inode.size.toNat / 512 + 1) ∧
      AtSpot c' (s.inode.pos.toNat / 512) t ∧
      Holds (fs'.store F.dev) c' s.inode.size.toNat bytes) ∨
    (∃ s', locate flatStore F.dev s.inode.pos s = (none, s') ∧ Stuck F 1 s'.fs) := by
  rcases h.fits with ⟨hempty, hsize⟩ | hfit
  · have hok := h.ok
    have hhead := h.head
    rw [hempty] at hok hhead
    have hsize' : s.inode.size.toNat = 0 := by
      rw [hsize]
      rfl
    have hpos : s.inode.pos.toNat = 0 := by
      have hle := h.le
      omega
    have hnext : s.inode.next = inodeNull := hhead.symm
    have hlocate : locate flatStore F.dev s.inode.pos s = locateFresh flatStore F.dev s := by
      simp only [locate, getInode_bind]
      rw [if_pos hnext]
    rw [hlocate, hsize', hpos]
    rcases locateFresh_flat hok h.self with ⟨c', fs', t, hr, h', hfit, hspot⟩ | hfail
    · left
      exact ⟨c', fs', t, hr, h', hfit, hspot, fun p hp => absurd hp (Nat.not_lt_zero p)⟩
    · right
      exact hfail
  · left
    obtain ⟨t, hr, hspot⟩ := locate_chain h hfit hshort
    refine ⟨c, s.fs, t, ?_, h.ok, hfit, hspot, h.holds⟩
    rw [h.head]
    exact hr

end Locate

end OxKernel.Fs
