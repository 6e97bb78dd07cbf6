import OxKernel.Fs.FileChain

/-!
# What a transfer does on a flat store

A position `p` of a file is byte `p % 512` of its data block number `p / 512`, which is
entry `p / 512 % 127` of its block map number `p / 512 / 127`. `AtSpot` says that the
locals of a transfer are at a data block, and `Holds` that the data blocks hold given
bytes, where the block in the hands of the transfer counts with the contents it has in
memory. The four ways of locating a position agree on `AtSpot`, with one exception: the
scan along the chain stops one block map early at the positions that are a multiple of
127 * 512 other than 0.

## Main definitions

* `AtSpot`, `Holds` — the locals are in place; the blocks hold the bytes.
* `Moving` — the invariant of the transfer loop.
-/
namespace OxKernel.Fs

open Lib (Attempt)

/-! ## Calls on a flat store -/

section Flat
variable {α : Type} (dev : DevNo) (b : BlockNo) (data : Sector) (s : FileIo Disk)

@[simp] theorem readBlock_bind (f : Sector → FileM Disk α) :
    (readBlock flatStore dev b >>= f) s = f (s.fs.store dev b) s := rfl

@[simp] theorem writeBlock_bind (f : Unit → FileM Disk α) :
    (writeBlock flatStore dev b data >>= f) s = f () { s with fs := s.fs.write dev b data } := rfl

@[simp] theorem readMap_bind (f : BlockMap → FileM Disk α) :
    (readMap flatStore dev b >>= f) s = f (BlockMap.layout.symm (s.fs.store dev b)) s := rfl

@[simp] theorem getInode_bind (f : Inode → FileM Disk α) : (getInode >>= f) s = f s.inode s := rfl

@[simp] theorem modifyInode_bind (g : Inode → Inode) (f : Unit → FileM Disk α) :
    (modifyInode g >>= f) s = f () { s with inode := g s.inode } := rfl

variable {dev s}

theorem getDataBlock_of_ok {fs : FsState Disk} {b : BlockNo}
    (h : inodeGetDataBlock flatStore dev 0 s.fs = (.ok, b, fs)) :
    getDataBlock flatStore dev s = (some b, { s with fs := fs }) := by
  simp only [getDataBlock, h]

theorem getDataBlock_of_fail {fs : FsState Disk} {b : BlockNo}
    (h : inodeGetDataBlock flatStore dev 0 s.fs = (.fail, b, fs)) :
    getDataBlock flatStore dev s = (none, { s with fs := fs }) := by
  simp only [getDataBlock, h]

end Flat

/-! ## Moving on to the next block -/

/-- The locals of a transfer are at data block number `q` of the chain. -/
structure AtSpot (c : Chain) (q : ℕ) (t : Spot) : Prop where
  lt : q < c.blocks.length
  map_lt : q / 127 < c.maps.length
  start : t.start = c.blockAt q
  iblock : t.iblock.toNat = q % 127
  current : t.current = c.mapAt (q / 127)
  bmap : t.bmap = c.image (q / 127)

/-- The data blocks of the chain are the same in both states. -/
def SameData (F : Setting) (c : Chain) (fs fs' : FsState Disk) : Prop :=
  ∀ q, q < c.blocks.length → fs'.store F.dev (c.blockAt q) = fs.store F.dev (c.blockAt q)

section Next
variable {F : Setting} {s : FileIo Disk} {c : Chain} {q : ℕ} {t : Spot}

theorem addBmapBlock_flat (h : ChainOk F s.fs c) {j : ℕ} (hj : j + 1 = c.maps.length)
    (hfull : c.blocks.length ≤ 127 * c.maps.length) :
    (∃ b fs', fileAddOneBmapBlock flatStore F.dev (c.mapAt j) (c.image j) s =
        (some { c.image j with next := b }, { s with fs := fs' }) ∧
      ChainOk F fs' (c.addMap b) ∧ SameData F c s.fs fs') ∨
    (∃ fs', fileAddOneBmapBlock flatStore F.dev (c.mapAt j) (c.image j) s =
        (none, { s with fs := fs' }) ∧ Stuck F c.all.length fs') := by
  rcases h.get with ⟨b, fs', hr, hg, hsame⟩ | ⟨fs', hr, hroom⟩
  · left
    refine ⟨b, _, ?_, h.addMap hg hj hfull, ?_⟩
    · rw [fileAddOneBmapBlock, Attempt.bind_of_some (getDataBlock_of_ok hr)]
      simp only [writeBlock_bind, BlockMap.layout_zero]
      rfl
    · intro q hq
      have h1 : c.blockAt q ≠ c.mapAt j := (Chain.mapAt_ne_blockAt h.nodup (by omega) hq).symm
      have h2 : c.blockAt q ≠ b := fun he =>
        hg.fresh (he ▸ List.mem_append_right _ (Chain.blockAt_mem hq))
      rw [FsState.write_of_ne h1, FsState.write_of_ne h2, hsame _ (h.covers_blockAt hq)]
  · right
    refine ⟨fs', ?_, hroom⟩
    rw [fileAddOneBmapBlock, Attempt.bind_of_none (getDataBlock_of_fail hr)]

theorem addDataBlock_flat (h : ChainOk F s.fs c) (hj : c.blocks.length / 127 < c.maps.length)
    {i : BlockNo} (hi : i.toNat = c.blocks.length % 127) :
    (∃ b fs', fileAddOneDataBlock flatStore F.dev (c.mapAt (c.blocks.length / 127))
        (c.image (c.blocks.length / 127)) i s =
        (some ((c.addBlock b).image (c.blocks.length / 127)), { s with fs := fs' }) ∧
      ChainOk F fs' (c.addBlock b) ∧ SameData F c s.fs fs') ∨
    (∃ fs', fileAddOneDataBlock flatStore F.dev (c.mapAt (c.blocks.length / 127))
        (c.image (c.blocks.length / 127)) i s = (none, { s with fs := fs' }) ∧
      Stuck F c.all.length fs') := by
  rcases h.get with ⟨b, fs', hr, hg, hsame⟩ | ⟨fs', hr, hroom⟩
  · left
    refine ⟨b, _, ?_, h.addBlock hg hj hi Sector.zero, ?_⟩
    · rw [fileAddOneDataBlock, Attempt.bind_of_some (getDataBlock_of_ok hr)]
      simp only [writeBlock_bind, Chain.image_addBlock hi]
      rfl
    · intro q hq
      have h1 : c.blockAt q ≠ c.mapAt (c.blocks.length / 127) :=
        (Chain.mapAt_ne_blockAt h.nodup hj hq).symm
      have h2 : c.blockAt q ≠ b := fun he =>
        hg.fresh (he ▸ List.mem_append_right _ (Chain.blockAt_mem hq))
      rw [FsState.write_of_ne h1, FsState.write_of_ne h2, hsame _ (h.covers_blockAt hq)]
  · right
    refine ⟨fs', ?_, hroom⟩
    rw [fileAddOneDataBlock, Attempt.bind_of_none (getDataBlock_of_fail hr)]

/-- The block map of the next data block. -/
theorem nextMap_flat (h : ChainOk F s.fs c) (hfit : c.maps.length = (c.blocks.length - 1) / 127 + 1)
    (ht : AtSpot c q t) {i : BlockNo} (hi : i.toNat = (q + 1) % 127) :
    (∃ c' fs', nextMap flatStore F.dev t i s =
        (some (c'.mapAt ((q + 1) / 127), c'.image ((q + 1) / 127)), { s with fs := fs' }) ∧
      ChainOk F fs' c' ∧ c.Extends c' ∧ c'.blocks = c.blocks ∧
      c'.maps.length = max c.maps.length ((q + 1) / 127 + 1) ∧ SameData F c s.fs fs') ∨
    (∃ fs', nextMap flatStore F.dev t i s = (none, { s with fs := fs' }) ∧
      Stuck F c.all.length fs') := by
  have hlt := ht.lt
  have hmap := ht.map_lt
  by_cases h0 : i = 0
  · have hwrap : (q + 1) % 127 = 0 := by
      rw [← hi, h0]
      rfl
    have hnext : t.bmap.next = c.mapAt (q / 127 + 1) := by
      rw [ht.bmap]
      rfl
    have hq1 : (q + 1) / 127 = q / 127 + 1 := by omega
    rw [nextMap, if_pos h0, hnext]
    by_cases hin : q / 127 + 1 < c.maps.length
    · left
      refine ⟨c, s.fs, ?_, h, .refl c, rfl, by omega, fun _ _ => rfl⟩
      rw [if_neg (h.mapAt_ne_null hin)]
      simp only [Attempt.pure_bind_apply, readMap_bind, hnext, h.disk _ hin, Equiv.symm_apply_apply,
        hq1]
      rfl
    · have hlast : q / 127 + 1 = c.maps.length := by omega
      have hnull : c.mapAt (q / 127 + 1) = inodeNull := Chain.mapAt_of_le (by omega)
      rw [if_pos hnull, ht.current, ht.bmap]
      rcases addBmapBlock_flat h hlast (by omega) with
        ⟨b, fs', hr, hok, hsame⟩ | ⟨fs', hr, hroom⟩
      · left
        refine ⟨c.addMap b, fs', ?_, hok, Chain.extends_addMap c b, rfl, ?_, hsame⟩
        · have hb : (c.addMap b).mapAt ((q + 1) / 127) = b := by
            rw [hq1, hlast, Chain.addMap_mapAt_last]
          have hdisk := hok.disk ((q + 1) / 127) (by rw [Chain.addMap_length]; omega)
          rw [hb] at hdisk
          rw [Attempt.bind_of_some hr]
          simp only [readMap_bind, hdisk, Equiv.symm_apply_apply, hb]
          rfl
        · rw [Chain.addMap_length]
          omega
      · right
        exact ⟨fs', Attempt.bind_of_none hr, hroom⟩
  · left
    have hwrap : (q + 1) % 127 ≠ 0 := by
      intro he
      rw [he] at hi
      exact h0 (UInt32.toNat_inj.mp hi)
    have hq1 : (q + 1) / 127 = q / 127 := by omega
    refine ⟨c, s.fs, ?_, h, .refl c, rfl, by omega, fun _ _ => rfl⟩
    rw [nextMap, if_neg h0, ht.current, ht.bmap, hq1]
    rfl

/-- The next data block, once its block map is there. -/
theorem ensureBlock_flat (h : ChainOk F s.fs c) (hq : q ≤ c.blocks.length)
    (hmap : q / 127 < c.maps.length) {i : BlockNo} (hi : i.toNat = q % 127) :
    (∃ c' fs', ensureBlock flatStore F.dev (c.mapAt (q / 127)) (c.image (q / 127)) i s =
        (some (c'.image (q / 127)), { s with fs := fs' }) ∧
      ChainOk F fs' c' ∧ c.Extends c' ∧ c'.maps = c.maps ∧
      c'.blocks.length = max c.blocks.length (q + 1) ∧ SameData F c s.fs fs') ∨
    (∃ fs', ensureBlock flatStore F.dev (c.mapAt (q / 127)) (c.image (q / 127)) i s =
        (none, { s with fs := fs' }) ∧ Stuck F c.all.length fs') := by
  rw [ensureBlock, Chain.image_entry hi]
  by_cases hlt : q < c.blocks.length
  · left
    refine ⟨c, s.fs, ?_, h, .refl c, rfl, by omega, fun _ _ => rfl⟩
    rw [if_neg (h.blockAt_ne_null hlt)]
    rfl
  · have hlast : q = c.blocks.length := by omega
    have hnull : c.blockAt q = inodeNull := Chain.blockAt_of_le (by omega)
    rw [if_pos hnull]
    subst hlast
    rcases addDataBlock_flat h hmap hi with ⟨b, fs', hr, hok, hsame⟩ | ⟨fs', hr, hroom⟩
    · left
      refine ⟨c.addBlock b, fs', hr, hok, Chain.extends_addBlock c b, rfl, ?_, hsame⟩
      rw [Chain.addBlock_length]
      omega
    · right
      exact ⟨fs', hr, hroom⟩

/-- **Moving on**: the transfer is at the next data block, which has been added at the end
of the chain, and no data block has changed. -/
theorem nextBlock_flat (h : ChainOk F s.fs c) (hfit : c.Fits c.blocks.length) (ht : AtSpot c q t) :
    (∃ c' fs' t', nextBlock flatStore F.dev t s =
        (some (t', fs'.store F.dev t'.start), { s with fs := fs' }) ∧
      ChainOk F fs' c' ∧ c.Extends c' ∧ c'.Fits (max c.blocks.length (q + 2)) ∧
      AtSpot c' (q + 1) t' ∧ SameData F c s.fs fs') ∨
    (∃ fs', nextBlock flatStore F.dev t s = (none, { s with fs := fs' }) ∧
      Stuck F (c.all.length + 1) fs') := by
  have hlt := ht.lt
  have hi : ((t.iblock + 1) % 127).toNat = (q + 1) % 127 := by
    have hb := ht.iblock
    simp only [UInt32.toNat_mod, UInt32.toNat_add, UInt32.toNat_ofNat, Nat.reducePow, Nat.reduceMod]
    omega
  rw [nextBlock]
  rcases nextMap_flat h hfit.2 ht hi with ⟨c₁, fs₁, hr₁, h₁, he₁, hb₁, hm₁, hs₁⟩ | ⟨fs', hr, hroom⟩
  · rw [Attempt.bind_of_some hr₁]
    have hmap : (q + 1) / 127 < c₁.maps.length := by omega
    have hle : q + 1 ≤ c₁.blocks.length := by
      rw [hb₁]
      omega
    rcases ensureBlock_flat (s := { s with fs := fs₁ }) h₁ hle hmap hi with
      ⟨c₂, fs₂, hr₂, h₂, he₂, hm₂, hb₂, hs₂⟩ | ⟨fs', hr, hroom⟩
    · left
      have hentry : (c₂.image ((q + 1) / 127)).entry ((t.iblock + 1) % 127) = c₂.blockAt (q + 1) :=
        Chain.image_entry hi
      refine ⟨c₂, fs₂, ⟨c₂.blockAt (q + 1), (t.iblock + 1) % 127, c₁.mapAt ((q + 1) / 127),
        c₂.image ((q + 1) / 127)⟩, ?_, h₂, he₁.trans he₂, ?_, ⟨?_, ?_, rfl, hi, ?_, rfl⟩, ?_⟩
      · rw [Attempt.bind_of_some hr₂]
        simp only [readBlock_bind, hentry]
        rfl
      · rw [Chain.Fits, hb₂, hm₂, hm₁, hb₁, hfit.2]
        omega
      · omega
      · rw [hm₂]
        exact hmap
      · exact (he₂.mapAt hmap).symm
      · intro r hr
        have hr' : r < c₁.blocks.length := by rwa [hb₁]
        have hb : c₁.blockAt r = c.blockAt r := he₁.blockAt hr
        rw [← hs₁ r hr, ← hb]
        exact hs₂ r hr'
    · right
      refine ⟨fs', Attempt.bind_of_none hr, hroom.mono ?_⟩
      rw [Chain.all_length, Chain.all_length, hb₁, hm₁]
      have := ht.map_lt
      omega
  · right
    exact ⟨fs', Attempt.bind_of_none hr, hroom.mono (Nat.le_succ _)⟩

end Next

/-! ## The bytes of a file -/

/-- The data blocks, with the contents given by `d`, hold these bytes up to `size`. -/
def Holds (d : BlockNo → Sector) (c : Chain) (size : ℕ) (bytes : ℕ → UInt8) : Prop :=
  ∀ p, p < size → d (c.blockAt (p / 512)) ⟨p % 512, Nat.mod_lt _ (by decide)⟩ = bytes p

/-- The bytes after the first `i` bytes of a buffer have been written at `pos`. -/
def overwrite (bytes : ℕ → UInt8) (pos i : ℕ) (buf : Buffer) : ℕ → UInt8 :=
  fun p => if pos ≤ p ∧ p < pos + i then buf (p - pos) else bytes p

theorem overwrite_zero (bytes : ℕ → UInt8) (pos : ℕ) (buf : Buffer) :
    overwrite bytes pos 0 buf = bytes := by
  funext p
  rw [overwrite, if_neg (by omega)]

theorem overwrite_succ (bytes : ℕ → UInt8) (pos i : ℕ) (buf : Buffer) :
    overwrite bytes pos (i + 1) buf = Function.update (overwrite bytes pos i buf) (pos + i) (buf i) := by
  funext p
  by_cases hp : p = pos + i
  · rw [hp, Function.update_self, overwrite, if_pos (by omega), Nat.add_sub_cancel_left]
  · rw [Function.update_of_ne hp, overwrite, overwrite]
    by_cases hin : pos ≤ p ∧ p < pos + i
    · rw [if_pos hin, if_pos (by omega)]
    · rw [if_neg hin, if_neg (by omega)]

section Bytes
variable {F : Setting} {d d' : BlockNo → Sector} {c c' : Chain} {size : ℕ} {bytes : ℕ → UInt8}

/-- The bytes are in blocks that a longer chain shares. -/
theorem Holds.extend (h : Holds d c size bytes) (hc : c.Extends c')
    (hsize : size ≤ 512 * c.blocks.length)
    (hd : ∀ q, q < c.blocks.length → d' (c.blockAt q) = d (c.blockAt q)) :
    Holds d' c' size bytes := by
  intro p hp
  have hq : p / 512 < c.blocks.length := by omega
  rw [hc.blockAt hq, hd _ hq]
  exact h p hp

/-- **One byte is written** in the block at hand, inside the file or right after it. -/
theorem Holds.put (hnd : c.all.Nodup) {P : ℕ} (hP : P / 512 < c.blocks.length) {dptr : Sector}
    (h : Holds (Function.update d (c.blockAt (P / 512)) dptr) c size bytes)
    (hsize : size ≤ 512 * c.blocks.length) (hle : P ≤ size) (x : UInt8) :
    Holds (Function.update d (c.blockAt (P / 512))
      (Function.update dptr ⟨P % 512, Nat.mod_lt _ (by decide)⟩ x)) c (max size (P + 1))
      (Function.update bytes P x) := by
  intro p hp
  by_cases hpP : p = P
  · subst hpP
    rw [Function.update_self, Function.update_self, Function.update_self]
  · have hold := h p (by omega)
    rw [Function.update_of_ne hpP, ← hold]
    by_cases hblock : p / 512 = P / 512
    · have hne : (⟨p % 512, Nat.mod_lt _ (by decide)⟩ : Fin devBlockSize) ≠
          ⟨P % 512, Nat.mod_lt _ (by decide)⟩ := by
        intro he
        have := Fin.mk.inj he
        omega
      rw [hblock, Function.update_self, Function.update_self, Function.update_of_ne hne]
    · have hne : c.blockAt (p / 512) ≠ c.blockAt (P / 512) := fun he =>
        hblock (Chain.blockAt_inj hnd (by omega) hP he)
      rw [Function.update_of_ne hne, Function.update_of_ne hne]

end Bytes

/-! ## The transfer loop -/

/-- The number of blocks of a file of the given size. -/
def chainLen (size : ℕ) : ℕ := size / 512 / 127 + 1 + (size / 512 + 1)

theorem chainLen_mono {a b : ℕ} (h : a ≤ b) : chainLen a ≤ chainLen b := by
  simp only [chainLen]
  omega

theorem Chain.Fits.all_length {c : Chain} {size : ℕ} (h : c.Fits (size / 512 + 1)) :
    c.all.length = chainLen size := by
  rw [Chain.all_length, h.1, h.2, chainLen, Nat.add_sub_cancel]

section Loop
variable {F : Setting} {n : Inode} {c : Chain} {P size : ℕ} {bytes : ℕ → UInt8} {t : Transfer}
  {s : FileIo Disk}

/-- The locals of a transfer are at position `P` of a file that holds the bytes. -/
structure Moving (F : Setting) (n : Inode) (P size : ℕ) (bytes : ℕ → UInt8) (t : Transfer)
    (s : FileIo Disk) (c : Chain) : Prop where
  ok : ChainOk F s.fs c
  fits : c.Fits (size / 512 + 1)
  head : c.mapAt 0 = n.next
  inode : s.inode = n
  le : P ≤ size
  spot : AtSpot c (P / 512) t.spot
  byte : t.byte.toNat = P % 512
  holds : Holds (Function.update (s.fs.store F.dev) t.spot.start t.dptr) c size bytes
  clean : t.writeFlag = false → t.dptr = s.fs.store F.dev t.spot.start

theorem write_store (fs : FsState Disk) (dev : DevNo) (b : BlockNo) (data : Sector) :
    (fs.write dev b data).store dev = Function.update (fs.store dev) b data := by
  funext b'
  by_cases hb : b' = b
  · rw [hb, FsState.write_self, Function.update_self]
  · rw [FsState.write_of_ne hb, Function.update_of_ne hb]

/-- A transfer `t` has left data block `q` of the chain `c` for the next one. -/
structure Arrived (F : Setting) (c : Chain) (q size : ℕ) (bytes : ℕ → UInt8) (t t' : Transfer)
    (fs' : FsState Disk) (c' : Chain) : Prop where
  ok : ChainOk F fs' c'
  ext : c.Extends c'
  fits : c'.Fits (max c.blocks.length (q + 2))
  spot : AtSpot c' (q + 1) t'.spot
  holds : Holds (fs'.store F.dev) c' size bytes
  dptr : t'.dptr = fs'.store F.dev t'.spot.start
  flag : t'.writeFlag = false
  i : t'.i = t.i
  byte : t'.byte = t.byte

/-- **The end of a block**: its contents are on disk and the transfer is at the next one. -/
theorem endBlock_flat {q : ℕ} (reading : Bool) (h : ChainOk F s.fs c) (hfit : c.Fits c.blocks.length)
    (ht : AtSpot c q t.spot)
    (hholds : Holds (Function.update (s.fs.store F.dev) t.spot.start t.dptr) c size bytes)
    (hsize : size ≤ 512 * c.blocks.length)
    (hclean : reading = true → t.writeFlag = false ∧ t.dptr = s.fs.store F.dev t.spot.start) :
    (∃ c' fs' t', endBlock flatStore F.dev reading t s = (some t', { s with fs := fs' }) ∧
      Arrived F c q size bytes t t' fs' c') ∨
    (∃ fs', endBlock flatStore F.dev reading t s = (none, { s with fs := fs' }) ∧
      Stuck F (c.all.length + 1) fs') := by
  -- Whether the block is written or not, afterwards the disk holds the bytes.
  have hnext : ∀ (fs₁ : FsState Disk), ChainOk F fs₁ c → Holds (fs₁.store F.dev) c size bytes →
      (∃ c' fs' t', (nextBlock flatStore F.dev t.spot >>= fun a => pure
          { t with spot := a.1, dptr := a.2, writeFlag := false }) { s with fs := fs₁ } =
          (some t', { s with fs := fs' }) ∧ Arrived F c q size bytes t t' fs' c') ∨
      (∃ fs', (nextBlock flatStore F.dev t.spot >>= fun a => pure
          { t with spot := a.1, dptr := a.2, writeFlag := false }) { s with fs := fs₁ } =
          (none, { s with fs := fs' }) ∧ Stuck F (c.all.length + 1) fs') := by
    intro fs₁ hok hdisk
    rcases nextBlock_flat (s := { s with fs := fs₁ }) hok hfit ht with
      ⟨c', fs', t', hr, h', he, hf, hspot, hsame⟩ | ⟨fs', hr, hroom⟩
    · left
      refine ⟨c', fs', _, Attempt.bind_of_some hr, h', he, hf, hspot, ?_, rfl, rfl, rfl, rfl⟩
      exact hdisk.extend he hsize hsame
    · right
      exact ⟨fs', Attempt.bind_of_none hr, hroom⟩
  simp only [endBlock, getInode_bind]
  by_cases hw : reading = false ∨ s.inode.size ≤ t.i.toUInt64
  · rw [if_pos hw]
    simp only [writeBlock_bind, Attempt.pure_bind_apply]
    have hstart := ht.start
    refine hnext (s.fs.write F.dev t.spot.start t.dptr) ?_ ?_
    · rw [hstart]
      exact h.writeBlock ht.lt t.dptr
    · rw [write_store]
      exact hholds
  · rw [if_neg hw]
    have hread : reading = true := by
      cases reading
      · exact absurd (Or.inl rfl) hw
      · rfl
    obtain ⟨hflag, hdptr⟩ := hclean hread
    simp only [Attempt.pure_bind_apply, hflag]
    refine hnext s.fs h ?_
    rw [hdptr, Function.update_eq_self] at hholds
    exact hholds

/-- **The end of a round**: after the byte at `P` has been copied, the transfer moves on. -/
theorem advance_flat {bytes' : ℕ → UInt8} (reading : Bool) (h : ChainOk F s.fs c) (hfit : c.Fits (size / 512 + 1))
    (hhead : c.mapAt 0 = n.next) (hinode : s.inode = n) (hle : P ≤ size)
    (hspot : AtSpot c (P / 512) t.spot) (hbyte : t.byte.toNat = (P + 1) % 512)
    (hholds : Holds (Function.update (s.fs.store F.dev) t.spot.start t.dptr) c (max size (P + 1))
      bytes')
    (hclean : t.writeFlag = false → t.dptr = s.fs.store F.dev t.spot.start)
    (hread : reading = true → t.writeFlag = false) :
    (∃ c' fs' t', (if t.byte = 0 then endBlock flatStore F.dev reading t else pure t) s =
        (some t', { s with fs := fs' }) ∧
      Moving F n (P + 1) (max size (P + 1)) bytes' t' { s with fs := fs' } c' ∧ t'.i = t.i ∧
      (reading = true → t'.writeFlag = false)) ∨
    (∃ fs', (if t.byte = 0 then endBlock flatStore F.dev reading t else pure t) s =
        (none, { s with fs := fs' }) ∧ Stuck F (c.all.length + 1) fs') := by
  have hlen := hfit.1
  have hq := hspot.lt
  by_cases h0 : t.byte = 0
  · rw [if_pos h0]
    have hend : (P + 1) % 512 = 0 := by
      rw [← hbyte, h0]
      rfl
    rcases endBlock_flat reading h (hlen ▸ hfit) hspot hholds (by omega)
      (fun hr => ⟨hread hr, hclean (hread hr)⟩) with ⟨c', fs', t', hr, ha⟩ | ⟨fs', hr, hroom⟩
    · left
      have hmaps : 0 < c.maps.length := by
        rw [hfit.2]
        omega
      refine ⟨c', fs', t', hr, ⟨ha.ok, ?_, ?_, hinode, by omega, ?_, ?_, ?_, fun _ => ha.dptr⟩, ha.i,
        fun _ => ha.flag⟩
      · have hn : max size (P + 1) / 512 + 1 = max c.blocks.length (P / 512 + 2) := by omega
        rw [hn]
        exact ha.fits
      · rw [ha.ext.mapAt hmaps]
        exact hhead
      · have hn : (P + 1) / 512 = P / 512 + 1 := by omega
        rw [hn]
        exact ha.spot
      · rw [ha.byte]
        exact hbyte
      · rw [ha.dptr, Function.update_eq_self]
        exact ha.holds
    · right
      exact ⟨fs', hr, hroom⟩
  · left
    have hin : (P + 1) % 512 ≠ 0 := by
      intro he
      rw [he] at hbyte
      exact h0 (UInt32.toNat_inj.mp hbyte)
    have hn : (P + 1) / 512 = P / 512 := by omega
    refine ⟨c, s.fs, t, by rw [if_neg h0]; rfl, ⟨h, ?_, hhead, hinode, by omega, ?_, hbyte, hholds,
      hclean⟩, rfl, hread⟩
    · have hsize : max size (P + 1) / 512 + 1 = size / 512 + 1 := by omega
      rw [hsize]
      exact hfit
    · rw [hn]
      exact hspot

theorem sectorIndex_eq {b : BlockNo} {k : ℕ} (h : b.toNat = k % 512) :
    sectorIndex b = ⟨k % 512, Nat.mod_lt _ (by decide)⟩ := by
  apply Fin.ext
  simp only [sectorIndex, Fin.ofNat, h]
  exact Nat.mod_mod _ _

theorem succ_byte {b : BlockNo} {k : ℕ} (h : b.toNat = k % 512) :
    ((b + 1) % 512).toNat = (k + 1) % 512 := by
  rw [Lib.toNat_succ_mod, h]
  exact Nat.mod_add_mod k 512 1

/-- **One round of a write.** -/
theorem transferByte_write (h : Moving F n P size bytes t s c) :
    (∃ c' fs' t', transferByte flatStore F.dev false t s = (some t', { s with fs := fs' }) ∧
      Moving F n (P + 1) (max size (P + 1)) (Function.update bytes P (s.data t.i.toNat)) t'
        { s with fs := fs' } c' ∧ t'.i = t.i + 1) ∨
    (∃ fs', transferByte flatStore F.dev false t s = (none, { s with fs := fs' }) ∧
      Stuck F (chainLen size + 1) fs') := by
  have hlen := h.fits.1
  have hput := Holds.put h.ok.nodup h.spot.lt (h.spot.start ▸ h.holds) (by omega) h.le
    (s.data t.i.toNat)
  rw [← h.spot.start, ← sectorIndex_eq h.byte] at hput
  rcases advance_flat false
    (t := ⟨t.spot, (t.byte + 1) % 512,
      Function.update t.dptr (sectorIndex t.byte) (s.data t.i.toNat), t.i + 1, true⟩)
    h.ok h.fits h.head h.inode h.le h.spot (succ_byte h.byte) hput (fun hf => absurd hf (by simp))
    (fun hf => absurd hf (by simp)) with ⟨c', fs', t', hr, hm, hi, -⟩ | ⟨fs', hr, hroom⟩
  · left
    exact ⟨c', fs', t', hr, hm, hi⟩
  · right
    exact ⟨fs', hr, h.fits.all_length ▸ hroom⟩

/-- **One round of a read** inside the file. -/
theorem transferByte_read (h : Moving F n P size bytes t s c) (hP : P < size)
    (hflag : t.writeFlag = false) (hi : ¬ n.size ≤ t.i.toUInt64) :
    (∃ c' fs' t', transferByte flatStore F.dev true t s =
        (some t', { s with fs := fs', data := Function.update s.data t.i.toNat (bytes P) }) ∧
      Moving F n (P + 1) size bytes t'
        { s with fs := fs', data := Function.update s.data t.i.toNat (bytes P) } c' ∧
      t'.i = t.i + 1 ∧ t'.writeFlag = false) ∨
    (∃ s', transferByte flatStore F.dev true t s = (none, s') ∧ Stuck F (chainLen size + 1) s'.fs) := by
  have hbyte : t.dptr (sectorIndex t.byte) = bytes P := by
    have hold := h.holds P hP
    rwa [← h.spot.start, Function.update_self, ← sectorIndex_eq h.byte] at hold
  have hmax : max size (P + 1) = size := by omega
  have hinode : ¬ s.inode.size ≤ t.i.toUInt64 := by rwa [h.inode]
  have hcopy : copyByte true t s =
      (some t, { s with data := Function.update s.data t.i.toNat (bytes P) }) := by
    simp only [copyByte, Attempt.get_bind_apply, if_true, if_neg hinode, hbyte]
    rfl
  rw [transferByte, Attempt.bind_of_some hcopy]
  have hholds : Holds (Function.update (s.fs.store F.dev) t.spot.start t.dptr) c (max size (P + 1))
      bytes := by
    rw [hmax]
    exact h.holds
  rcases advance_flat true (s := { s with data := Function.update s.data t.i.toNat (bytes P) })
    (t := { t with i := t.i + 1, byte := (t.byte + 1) % 512 })
    h.ok h.fits h.head h.inode h.le h.spot (succ_byte h.byte) hholds h.clean
    (fun _ => hflag) with ⟨c', fs', t', hr, hm, hi, hf⟩ | ⟨fs', hr, hroom⟩
  · left
    rw [hmax] at hm
    exact ⟨c', fs', t', hr, hm, hi, hf rfl⟩
  · right
    exact ⟨_, hr, h.fits.all_length ▸ hroom⟩

/-- The buffer after the first `i` bytes have been read at `pos`. -/
def fetched (bytes : ℕ → UInt8) (pos i : ℕ) (buf : Buffer) : Buffer :=
  fun j => if j < i then bytes (pos + j) else buf j

theorem fetched_zero (bytes : ℕ → UInt8) (pos : ℕ) (buf : Buffer) : fetched bytes pos 0 buf = buf := by
  funext j
  rw [fetched, if_neg (by omega)]

theorem fetched_succ (bytes : ℕ → UInt8) (pos i : ℕ) (buf : Buffer) :
    fetched bytes pos (i + 1) buf = Function.update (fetched bytes pos i buf) i (bytes (pos + i)) := by
  funext j
  by_cases hj : j = i
  · rw [hj, Function.update_self, fetched, if_pos (by omega)]
  · rw [Function.update_of_ne hj, fetched, fetched]
    by_cases hlt : j < i
    · rw [if_pos hlt, if_pos (by omega)]
    · rw [if_neg hlt, if_neg (by omega)]

theorem toNat_succ {b : BlockNo} {i : ℕ} (h : b.toNat = i) (hi : i + 1 < 2 ^ 32) :
    (b + 1).toNat = i + 1 := by
  rw [Lib.toNat_succ (by omega), h]

/-- **The loop of a write**: after `k` rounds the first `k` bytes of the buffer are in the
file, or a round has found the volume full. -/
theorem transfer_write (h : Moving F n P size bytes t s c) (hi : t.i = 0) {k : ℕ}
    (hk : k < 2 ^ 32) :
    (∃ t' fs' c', Attempt.iterate (transferByte flatStore F.dev false) k t s =
        (some t', { s with fs := fs' }) ∧
      Moving F n (P + k) (max size (P + k)) (overwrite bytes P k s.data) t' { s with fs := fs' } c' ∧
      t'.i.toNat = k) ∨
    (∃ s', Attempt.iterate (transferByte flatStore F.dev false) k t s = (none, s') ∧
      Stuck F (chainLen (max size (P + k)) + 1) s'.fs) := by
  let I : ℕ → Transfer → FileIo Disk → Prop := fun i a s' => ∃ fs' c', s' = { s with fs := fs' } ∧
    Moving F n (P + i) (max size (P + i)) (overwrite bytes P i s.data) a s' c' ∧ a.i.toNat = i
  have hstep : ∀ i a, i < k → Attempt.Spec (I i a) (transferByte flatStore F.dev false a) (I (i + 1))
      (fun s' => Stuck F (chainLen (max size (P + k)) + 1) s'.fs) := by
    intro i a hik s' ⟨fs', c', hs, hm, hai⟩
    subst hs
    rcases transferByte_write hm with ⟨c₂, fs₂, t₂, hr, hm₂, hi₂⟩ | ⟨fs₂, hr, hroom⟩
    · left
      refine ⟨t₂, _, hr, fs₂, c₂, rfl, ?_, ?_⟩
      · have hmax : max (max size (P + i)) (P + i + 1) = max size (P + (i + 1)) := by omega
        rw [overwrite_succ, ← hmax]
        rw [hai] at hm₂
        exact hm₂
      · rw [hi₂]
        exact toNat_succ hai (by omega)
    · right
      refine ⟨_, hr, hroom.mono (Nat.succ_le_succ (chainLen_mono ?_))⟩
      omega
  have hstart : I 0 t s := by
    refine ⟨s.fs, c, rfl, ?_, by rw [hi]; rfl⟩
    have hmax : max size (P + 0) = size := by
      have := h.le
      omega
    rw [overwrite_zero, hmax]
    exact h
  rcases Attempt.Spec.iterate hstep t s hstart with ⟨t', s', hr, fs', c', hs, hm, hi'⟩ | hfail
  · left
    subst hs
    exact ⟨t', fs', c', hr, hm, hi'⟩
  · right
    exact hfail

/-- **The loop of a read** inside the file. -/
theorem transfer_read (h : Moving F n P size bytes t s c) (hi : t.i = 0) (hflag : t.writeFlag = false)
    {k : ℕ} (hk : k < 2 ^ 32) (hsize : n.size.toNat = size) (hle : P + k ≤ size) :
    (∃ t' fs' c', Attempt.iterate (transferByte flatStore F.dev true) k t s =
        (some t', { s with fs := fs', data := fetched bytes P k s.data }) ∧
      Moving F n (P + k) size bytes t' { s with fs := fs', data := fetched bytes P k s.data } c' ∧
      t'.i.toNat = k ∧ t'.writeFlag = false) ∨
    (∃ s', Attempt.iterate (transferByte flatStore F.dev true) k t s = (none, s') ∧
      Stuck F (chainLen size + 1) s'.fs) := by
  let I : ℕ → Transfer → FileIo Disk → Prop := fun i a s' => ∃ fs' c',
    s' = { s with fs := fs', data := fetched bytes P i s.data } ∧
    Moving F n (P + i) size bytes a s' c' ∧ a.i.toNat = i ∧ a.writeFlag = false
  have hstep : ∀ i a, i < k → Attempt.Spec (I i a) (transferByte flatStore F.dev true a) (I (i + 1))
      (fun s' => Stuck F (chainLen size + 1) s'.fs) := by
    intro i a hik s' ⟨fs', c', hs, hm, hai, haf⟩
    subst hs
    have hin : ¬ n.size ≤ a.i.toUInt64 := by
      rw [UInt64.le_iff_toNat_le, UInt32.toNat_toUInt64, hsize, hai]
      omega
    rcases transferByte_read hm (by omega) haf hin with
      ⟨c₂, fs₂, t₂, hr, hm₂, hi₂, hf₂⟩ | ⟨s₂, hr, hroom⟩
    · left
      rw [hai, ← fetched_succ] at hr hm₂
      exact ⟨t₂, _, hr, fs₂, c₂, rfl, hm₂, by rw [hi₂]; exact toNat_succ hai (by omega), hf₂⟩
    · right
      exact ⟨_, hr, hroom⟩
  have hstart : I 0 t s := by
    refine ⟨s.fs, c, by rw [fetched_zero], h, by rw [hi]; rfl, hflag⟩
  rcases Attempt.Spec.iterate hstep t s hstart with ⟨t', s', hr, fs', c', hs, hm, hi', hf⟩ | hfail
  · left
    subst hs
    exact ⟨t', fs', c', hr, hm, hi', hf⟩
  · right
    exact hfail

end Loop

end OxKernel.Fs
