import OxKernel.Fs.FileLocate

/-!
# Reads, writes and seeks of an open file

One transfer, from the place it starts at to the inode it leaves: a write changes the bytes
from the position on and may make the file longer, a read inside the file fetches bytes and
changes nothing, and both move the position and leave a cursor to resume from.

## Main definitions

* `Inode.Moved` — what a transfer does to the inode.
* `ByteFile` — the abstract file: a byte array with a cursor.
* `Open` — a descriptor is open on a file that holds the bytes of an abstract one.
* `Saved` — the inode block holds the size and the chain of an open file.
-/
namespace OxKernel.Fs

open Lib (Attempt)

/-- The inode without the fields that change while the file is in use. -/
def Inode.fixed (n : Inode) : Inode :=
  { n with
    modifiedTime := 0, accessedTime := 0, size := 0, pos := 0, current := 0, currentParent := 0
    iblock := 0, dev := 0, oMode := 0, next := 0 }

/-- A transfer of `k` bytes has moved the position and left a cursor. -/
structure Inode.Moved (n n' : Inode) (k : ℕ) : Prop where
  pos : n'.pos.toNat = n.pos.toNat + k
  size : n'.size.toNat = max n.size.toNat (n.pos.toNat + k)
  cursor : n'.iblock ≠ iblockNopos
  fixed : n'.fixed = n.fixed

section Engine
variable {F : Setting} {n : Inode} {c : Chain} {P size : ℕ} {bytes : ℕ → UInt8} {t : Transfer}
  {s : FileIo Disk}

/-- The bytes are on disk once the block at hand has been written back. -/
theorem flushBlock_flat (h : Moving F n P size bytes t s c) :
    ∃ fs', flushBlock flatStore F.dev t s = (some (), { s with fs := fs' }) ∧ ChainOk F fs' c ∧
      Holds (fs'.store F.dev) c size bytes := by
  have hholds := h.holds
  rw [flushBlock]
  by_cases hflag : t.writeFlag = true
  · refine ⟨s.fs.write F.dev t.spot.start t.dptr, by rw [if_pos hflag]; rfl, ?_, ?_⟩
    · rw [h.spot.start]
      exact h.ok.writeBlock h.spot.lt t.dptr
    · rw [write_store]
      exact hholds
  · refine ⟨s.fs, by rw [if_neg hflag]; rfl, h.ok, ?_⟩
    rwa [h.clean (Bool.eq_false_iff.mpr hflag), Function.update_eq_self] at hholds

/-- The inode block is not one of the data blocks. -/
theorem Holds.writeSelf {fs : FsState Disk} (h : Holds (fs.store F.dev) c size bytes)
    (hok : ChainOk F fs c) (hsize : size ≤ 512 * c.blocks.length) (data : Sector) :
    Holds ((fs.write F.dev F.self data).store F.dev) c size bytes := by
  intro p hp
  have hq : p / 512 < c.blocks.length := by omega
  rw [FsState.write_of_ne (F.ne_self (hok.covers_blockAt hq))]
  exact h p hp

/-- The sizes that fit on a volume are far from overflowing. -/
theorem size_lt (h : ChainOk F s.fs c) (hfit : c.Fits (size / 512 + 1)) : size < 2147483648 := by
  have hlen := h.length_lt
  have hsmall := F.small
  rw [Chain.all_length, hfit.1] at hlen
  omega

/-- **The end of a transfer**: the inode on disk is the one in memory. -/
theorem endTransfer_flat {pos : UInt64} (hself : n.self = F.self) (hdev : n.dev = F.dev)
    (hpos : n.pos = pos) {k : ℕ} (hsize : size = max n.size.toNat (pos.toNat + k))
    (hi : t.i.toNat = k) (h : Moving F n (pos.toNat + k) size bytes t s c) :
    ∃ n' fs', endTransfer flatStore F.dev pos t s =
        (some t.i.toUInt64, { s with fs := fs', inode := n' }) ∧
      FileOk F fs' n' c bytes ∧ n.Moved n' k ∧ fs'.store F.dev F.self = Inode.layout n' := by
  obtain ⟨fs₁, hflush, hok, hholds⟩ := flushBlock_flat h
  have hlt := size_lt h.ok h.fits
  have hle := h.le
  have hto : (pos + t.i.toUInt64).toNat = pos.toNat + k := by
    rw [UInt64.toNat_add, UInt32.toNat_toUInt64, hi]
    omega
  have hsize' : (n.afterTransfer pos t).size.toNat = size := by
    simp only [Inode.afterTransfer]
    split
    · rename_i hlt'
      rw [UInt64.lt_iff_toNat_lt, hto] at hlt'
      omega
    · rename_i hlt'
      rw [UInt64.lt_iff_toNat_lt, hto] at hlt'
      omega
  have hblock : t.spot.iblock.toInt32.toUInt32 = t.spot.iblock := by simp
  refine ⟨n.afterTransfer pos t, fs₁.write F.dev F.self (Inode.layout (n.afterTransfer pos t)),
    ?_, ⟨hself, hdev, hok.writeSelf _, h.head, Or.inr ?_, ?_, ?_, Or.inr (Or.inr ⟨?_, ?_, ?_⟩)⟩,
    ⟨?_, ?_, ?_, rfl⟩, FsState.write_self _ _ _ _⟩
  · have hself' : (n.afterTransfer pos t).self = F.self := hself
    rw [endTransfer, Attempt.bind_of_some hflush]
    simp only [modifyInode_bind, getInode_bind, writeBlock_bind, h.inode, hself']
    rfl
  · rw [hsize']
    exact h.fits
  · rw [hsize']
    exact hholds.writeSelf hok (by rw [h.fits.1]; omega) _
  · rw [hsize']
    show (pos + t.i.toUInt64).toNat ≤ size
    omega
  · show t.spot.start = c.blockAt ((pos + t.i.toUInt64).toNat / 512)
    rw [hto]
    exact h.spot.start
  · show t.spot.current = c.mapAt ((pos + t.i.toUInt64).toNat / 512 / 127)
    rw [hto]
    exact h.spot.current
  · show t.spot.iblock.toInt32.toUInt32.toNat = (pos + t.i.toUInt64).toNat / 512 % 127
    rw [hto, hblock]
    exact h.spot.iblock
  · show (pos + t.i.toUInt64).toNat = n.pos.toNat + k
    rw [hto, hpos]
  · rw [hsize', hpos]
    exact hsize
  · intro he
    have hno : t.spot.iblock.toInt32 = iblockNopos := he
    rw [← UInt32.toNat_inj, hno, h.spot.iblock] at hblock
    have hmax : iblockNopos.toUInt32.toNat = 4294967295 := rfl
    omega

theorem byte_toNat (pos : UInt64) : (pos.toUInt32 % 512).toNat = pos.toNat % 512 := by
  simp only [UInt32.toNat_mod, UInt64.toNat_toUInt32, UInt32.toNat_ofNat, Nat.reducePow,
    Nat.reduceMod]
  omega

/-- The locals at the start of a transfer. -/
def Transfer.start (fs : FsState Disk) (dev : DevNo) (pos : UInt64) (t : Spot) : Transfer :=
  ⟨t, pos.toUInt32 % 512, fs.store dev t.start, 0, false⟩

/-- The transfer loop starts in its invariant, at the position `P` of the block found. -/
theorem moving_start {fs : FsState Disk} {t : Spot} (hok : ChainOk F fs c)
    (hfit : c.Fits (n.size.toNat / 512 + 1)) (hspot : AtSpot c (P / 512) t)
    (hbyte : n.pos.toNat % 512 = P % 512)
    (hholds : Holds (fs.store F.dev) c n.size.toNat bytes) (hle : P ≤ n.size.toNat)
    (hhead : c.mapAt 0 = n.next) (data : Buffer) :
    Moving F n P n.size.toNat bytes (.start fs F.dev n.pos t) ⟨fs, n, data⟩ c := by
  refine ⟨hok, hfit, hhead, rfl, hle, hspot, (byte_toNat _).trans hbyte, ?_, fun _ => rfl⟩
  rw [Transfer.start, Function.update_eq_self]
  exact hholds

/-- A transfer whose start has been found is its loop and its end. -/
theorem fileReadWrite_of_locate {length : UInt64} (hlength : length ≠ 0) {pos : UInt64}
    {reading : Bool} (hdev : s.inode.dev = F.dev) {t : Spot} {s' : FileIo Disk}
    (hr : locate flatStore F.dev pos s = (some t, s')) :
    fileReadWrite flatStore pos length reading s =
      (Attempt.iterate (transferByte flatStore F.dev reading) length.toNat
        (.start s'.fs F.dev pos t) >>= endTransfer flatStore F.dev pos) s' := by
  rw [fileReadWrite, if_neg hlength]
  simp only [getInode_bind, hdev]
  rw [Attempt.bind_of_some hr]
  rfl

theorem fileReadWrite_of_fail {length : UInt64} (hlength : length ≠ 0) {pos : UInt64}
    {reading : Bool} (hdev : s.inode.dev = F.dev) {s' : FileIo Disk}
    (hr : locate flatStore F.dev pos s = (none, s')) :
    fileReadWrite flatStore pos length reading s = (none, s') := by
  rw [fileReadWrite, if_neg hlength]
  simp only [getInode_bind, hdev]
  exact Attempt.bind_of_none hr

theorem count_toNat (count : UInt32) : count.toUInt64.toNat = count.toNat := UInt32.toNat_toUInt64 _

theorem count_ne_zero {count : UInt32} (h : 0 < count.toNat) : count.toUInt64 ≠ 0 := by
  intro he
  have := congrArg UInt64.toNat he
  rw [count_toNat] at this
  exact absurd this (Nat.ne_of_gt h)

/-- **A write** through the engine. -/
theorem fileReadWrite_write (h : FileOk F s.fs s.inode c bytes) (hshort : ¬ s.inode.ScansShort)
    {count : UInt32} (hcount : 0 < count.toNat) :
    (∃ n' fs' c', fileReadWrite flatStore s.inode.pos count.toUInt64 false s =
        (some count.toUInt64, { s with fs := fs', inode := n' }) ∧
      FileOk F fs' n' c' (overwrite bytes s.inode.pos.toNat count.toNat s.data) ∧
      s.inode.Moved n' count.toNat ∧ fs'.store F.dev F.self = Inode.layout n') ∨
    (∃ s', fileReadWrite flatStore s.inode.pos count.toUInt64 false s = (none, s') ∧
      Stuck F (chainLen (max s.inode.size.toNat (s.inode.pos.toNat + count.toNat)) + 1) s'.fs) := by
  have hne := count_ne_zero hcount
  rcases locate_flat h hshort with ⟨c₁, fs₁, t, hr, hok, hfit, hspot, hholds⟩ | ⟨s', hr, hstuck⟩
  · rw [fileReadWrite_of_locate hne h.dev hr, count_toNat]
    have hm := moving_start (n := { s.inode with next := c₁.mapAt 0 }) hok hfit hspot rfl hholds h.le
      rfl s.data
    rcases transfer_write hm rfl count.toNat_lt with ⟨t', fs', c', hloop, hm', hi⟩ | ⟨s', hloop, hstuck⟩
    · left
      obtain ⟨n', fs₂, hend, hfile, hmoved, hdisk⟩ :=
        endTransfer_flat (n := { s.inode with next := c₁.mapAt 0 }) h.self h.dev rfl rfl hi hm'
      have hcount' : t'.i = count := UInt32.toNat_inj.mp hi
      refine ⟨n', fs₂, c', ?_, hfile, ⟨hmoved.pos, hmoved.size, hmoved.cursor, hmoved.fixed⟩, hdisk⟩
      rw [Attempt.bind_of_some hloop, hend, hcount']
    · right
      exact ⟨s', Attempt.bind_of_none hloop, hstuck⟩
  · right
    refine ⟨s', fileReadWrite_of_fail hne h.dev hr, hstuck.mono ?_⟩
    omega

/-- **A read** inside the file through the engine. -/
theorem fileReadWrite_read (h : FileOk F s.fs s.inode c bytes) (hshort : ¬ s.inode.ScansShort)
    {count : UInt32} (hcount : 0 < count.toNat)
    (hin : s.inode.pos.toNat + count.toNat ≤ s.inode.size.toNat) :
    (∃ n' fs' c', fileReadWrite flatStore s.inode.pos count.toUInt64 true s =
        (some count.toUInt64, ⟨fs', n', fetched bytes s.inode.pos.toNat count.toNat s.data⟩) ∧
      FileOk F fs' n' c' bytes ∧ s.inode.Moved n' count.toNat ∧
      fs'.store F.dev F.self = Inode.layout n') ∨
    (∃ s', fileReadWrite flatStore s.inode.pos count.toUInt64 true s = (none, s') ∧
      Stuck F (chainLen s.inode.size.toNat + 1) s'.fs) := by
  have hne := count_ne_zero hcount
  rcases locate_flat h hshort with ⟨c₁, fs₁, t, hr, hok, hfit, hspot, hholds⟩ | ⟨s', hr, hstuck⟩
  · rw [fileReadWrite_of_locate hne h.dev hr, count_toNat]
    have hm := moving_start (n := { s.inode with next := c₁.mapAt 0 }) hok hfit hspot rfl hholds h.le
      rfl s.data
    rcases transfer_read hm rfl rfl count.toNat_lt rfl hin with
      ⟨t', fs', c', hloop, hm', hi, -⟩ | ⟨s', hloop, hstuck⟩
    · left
      have hmax : s.inode.size.toNat = max s.inode.size.toNat (s.inode.pos.toNat + count.toNat) := by
        omega
      obtain ⟨n', fs₂, hend, hfile, hmoved, hdisk⟩ :=
        endTransfer_flat (n := { s.inode with next := c₁.mapAt 0 }) h.self h.dev rfl hmax hi hm'
      have hcount' : t'.i = count := UInt32.toNat_inj.mp hi
      refine ⟨n', fs₂, c', ?_, hfile, ⟨hmoved.pos, hmoved.size, hmoved.cursor, hmoved.fixed⟩, hdisk⟩
      rw [Attempt.bind_of_some hloop, hend, hcount']
    · right
      exact ⟨s', Attempt.bind_of_none hloop, hstuck⟩
  · right
    refine ⟨s', fileReadWrite_of_fail hne h.dev hr, hstuck.mono ?_⟩
    omega

/-- The end of a transfer leaves the buffer alone. -/
theorem endTransfer_data (pos : UInt64) (t : Transfer) (s : FileIo Disk) (dev : DevNo) :
    ∃ s', endTransfer flatStore dev pos t s = (some t.i.toUInt64, s') ∧ s'.data = s.data := by
  obtain ⟨fs', hflush⟩ : ∃ fs', flushBlock flatStore dev t s = (some (), { s with fs := fs' }) := by
    by_cases hflag : t.writeFlag = true
    · exact ⟨_, by rw [flushBlock, if_pos hflag]; rfl⟩
    · exact ⟨s.fs, by rw [flushBlock, if_neg hflag]; rfl⟩
  refine ⟨⟨fs'.write dev (s.inode.afterTransfer pos t).self
    (Inode.layout (s.inode.afterTransfer pos t)), s.inode.afterTransfer pos t, s.data⟩, ?_, rfl⟩
  rw [endTransfer, Attempt.bind_of_some hflush]
  rfl

/-- **A read after a short scan** fetches the bytes 127 blocks before the position. -/
theorem fileReadWrite_short (h : FileOk F s.fs s.inode c bytes) (hshort : s.inode.ScansShort)
    (hfit : c.Fits (s.inode.size.toNat / 512 + 1)) {count : UInt32} (hcount : 0 < count.toNat)
    (hin : s.inode.pos.toNat + count.toNat ≤ s.inode.size.toNat) :
    (∃ s', fileReadWrite flatStore s.inode.pos count.toUInt64 true s = (some count.toUInt64, s') ∧
      s'.data = fetched bytes (s.inode.pos.toNat - 65024) count.toNat s.data) ∨
    (∃ s', fileReadWrite flatStore s.inode.pos count.toUInt64 true s = (none, s') ∧
      Stuck F (chainLen s.inode.size.toNat + 1) s'.fs) := by
  have hmul := hshort.2.2
  obtain ⟨t, hr, hspot⟩ := locate_short h hfit hshort
  have hblock : s.inode.pos.toNat / 512 - 127 = (s.inode.pos.toNat - 65024) / 512 := by omega
  rw [hblock] at hspot
  have hm := moving_start h.ok hfit hspot (by omega) h.holds (by omega) h.head s.data
  rw [fileReadWrite_of_locate (count_ne_zero hcount) h.dev hr, count_toNat]
  rcases transfer_read hm rfl rfl count.toNat_lt rfl (by omega) with
    ⟨t', fs', c', hloop, -, hi, -⟩ | ⟨s', hloop, hstuck⟩
  · left
    have hcount' : t'.i = count := UInt32.toNat_inj.mp hi
    obtain ⟨s₂, hend, hdata⟩ := endTransfer_data s.inode.pos t'
      { s with fs := fs', data := fetched bytes (s.inode.pos.toNat - 65024) count.toNat s.data } F.dev
    refine ⟨s₂, ?_, hdata⟩
    rw [Attempt.bind_of_some hloop, hend, hcount']
  · right
    exact ⟨s', Attempt.bind_of_none hloop, hstuck⟩

/-- Inside the file the common part of `kread` and `kwrite` is one transfer. -/
theorem transferCall_inside (hle : s.inode.pos.toNat ≤ s.inode.size.toNat) (count : UInt32)
    (reading : Bool) :
    transferCall flatStore count reading s =
      (fileReadWrite flatStore s.inode.pos count.toUInt64 reading >>= fun bytes =>
        pure (bytes + 0)) s := by
  have hgap : ¬ s.inode.size < s.inode.pos := by
    rw [UInt64.lt_iff_toNat_lt]
    omega
  rw [transferCall, getInode_bind, if_neg hgap]
  rfl

end Engine

/-! ## The calls -/

/-- A byte array with a cursor. -/
structure ByteFile where
  bytes : ℕ → UInt8
  size : ℕ
  pos : ℕ

namespace ByteFile
variable (f : ByteFile)

/-- Write the first `k` bytes of a buffer at the cursor. -/
def write (buf : Buffer) (k : ℕ) : ByteFile :=
  ⟨overwrite f.bytes f.pos k buf, max f.size (f.pos + k), f.pos + k⟩

/-- Move the cursor. -/
def moveTo (p : ℕ) : ByteFile := { f with pos := p }

/-- The position that a seek asks for. -/
def target (offset : UInt32) : Whence → Option ℕ
  | .set => some offset.toNat
  | .cur => some (f.pos + offset.toNat)
  | .fin => some (f.size + offset.toNat)
  | .other => none

end ByteFile

/-- A descriptor is open on a file that holds the abstract one. -/
structure Open (F : Setting) (fd : Int32) (t : Fin maxFiles) (c : Chain) (s : Sys Disk)
    (f : ByteFile) : Prop where
  desc : s.proc.descriptor fd = some t
  file : FileOk F s.fs (s.proc.fileTab t) c f.bytes
  size : (s.proc.fileTab t).size.toNat = f.size
  pos : (s.proc.fileTab t).pos.toNat = f.pos

/-- Only the inode at `t` has changed in the process, and the inode block has its size and
its chain. -/
structure Saved (F : Setting) (t : Fin maxFiles) (s s' : Sys Disk) : Prop where
  rest : s' = { s with proc := s.proc.setInode t (s'.proc.fileTab t), fs := s'.fs }
  fixed : (s'.proc.fileTab t).fixed = (s.proc.fileTab t).fixed
  disk : ∃ m, s'.fs.store F.dev F.self = Inode.layout m ∧ m.fixed = (s.proc.fileTab t).fixed ∧
    m.size = (s'.proc.fileTab t).size ∧ m.next = (s'.proc.fileTab t).next

section Calls
variable {F : Setting} {fd : Int32} {t : Fin maxFiles} {c : Chain} {s : Sys Disk} {f : ByteFile}
  {n : Inode} {fs : FsState Disk} {bytes : ℕ → UInt8}

theorem FileOk.accessed (h : FileOk F fs n c bytes) (now : BlockNo) :
    FileOk F fs { n with accessedTime := now } c bytes :=
  ⟨h.self, h.dev, h.ok, h.head, h.fits, h.holds, h.le, h.cursor⟩

theorem FileOk.modified (h : FileOk F fs n c bytes) (now : BlockNo) :
    FileOk F fs { n with modifiedTime := now } c bytes :=
  ⟨h.self, h.dev, h.ok, h.head, h.fits, h.holds, h.le, h.cursor⟩

@[simp] theorem setInode_fileTab (p : Proc) (t : Fin maxFiles) (n : Inode) :
    (p.setInode t n).fileTab t = n := Function.update_self _ _ _

@[simp] theorem setInode_descriptor (p : Proc) (t : Fin maxFiles) (n : Inode) (fd : Int32) :
    (p.setInode t n).descriptor fd = p.descriptor fd := rfl

/-- The state a transfer leaves. -/
theorem Open.put (h : Open F fd t c s f) {n' : Inode} {fs' : FsState Disk} (data : Buffer)
    {c' : Chain} {bytes' : ℕ → UInt8} {k : ℕ} (hfile : FileOk F fs' n' c' bytes')
    (hmoved : (s.proc.fileTab t).Moved n' k) (hdisk : fs'.store F.dev F.self = Inode.layout n') :
    Open F fd t c' (s.put t ⟨fs', n', data⟩) ⟨bytes', max f.size (f.pos + k), f.pos + k⟩ ∧
      Saved F t s (s.put t ⟨fs', n', data⟩) := by
  have hget : (s.put t ⟨fs', n', data⟩).proc.fileTab t = n' := setInode_fileTab _ _ _
  constructor
  · refine ⟨h.desc, ?_, ?_, ?_⟩
    · rw [hget]
      exact hfile
    · rw [hget, hmoved.size, h.size, h.pos]
    · rw [hget, hmoved.pos, h.pos]
  · refine ⟨?_, ?_, n', hdisk, hmoved.fixed, ?_, ?_⟩
    · rw [hget]
      rfl
    · rw [hget]
      exact hmoved.fixed
    · rw [hget]
    · rw [hget]

theorem ssize_toInt {n : UInt64} (h : n.toNat < 2147483648) : (ssize (some n)).toInt = n.toNat := by
  have hn : n.toUInt32.toNat = n.toNat := by
    rw [UInt64.toNat_toUInt32]
    omega
  have hint : n.toUInt32.toInt32.toInt = n.toUInt32.toBitVec.toInt := rfl
  rw [ssize, hint, BitVec.toInt_eq_toNat_of_lt]
  · exact congrArg Int.ofNat hn
  · show 2 * n.toUInt32.toNat < 2 ^ 32
    omega

theorem ssize_count {count : UInt32} (h : count.toNat < 2147483648) :
    (ssize (some (count.toUInt64 + 0))).toInt = count.toNat := by
  have hcount : (count.toUInt64 + 0).toNat = count.toNat := by
    rw [UInt64.add_zero, UInt32.toNat_toUInt64]
  rw [ssize_toInt (by omega), hcount]

/-- The sizes of an open file are far from overflowing. -/
theorem FileOk.size_lt (h : FileOk F fs n c bytes) : n.size.toNat < 2147483648 := by
  rcases h.fits with ⟨-, h0⟩ | hfit
  · rw [h0]
    decide
  · have hlen := h.ok.length_lt
    have hsmall := F.small
    rw [Chain.all_length, hfit.1] at hlen
    omega

/-- **`kwrite` is a write of the abstract file**, or finds the volume full. -/
theorem kwrite_open (h : Open F fd t c s f) (hshort : ¬ (s.proc.fileTab t).ScansShort)
    (now : BlockNo) (buf : Buffer) {count : UInt32} (hcount : 0 < count.toNat) :
    (∃ r s' c', kwrite flatStore now fd buf count s = (r, s') ∧ r.toInt = count.toNat ∧
      Open F fd t c' s' (f.write buf count.toNat) ∧ Saved F t s s' ∧
      (s'.proc.fileTab t).iblock ≠ iblockNopos) ∨
    (∃ s', kwrite flatStore now fd buf count s = (-1, s') ∧
      Stuck F (chainLen (max f.size (f.pos + count.toNat)) + 1) s'.fs) := by
  have hfile := h.file.modified now
  simp only [kwrite, h.desc]
  rw [transferCall_inside hfile.le]
  rcases fileReadWrite_write (s := ⟨s.fs, { s.proc.fileTab t with modifiedTime := now }, buf⟩) hfile
    hshort hcount with ⟨n', fs', c', hr, hfile', hmoved, hdisk⟩ | ⟨s', hr, hstuck⟩
  · left
    have hlt := hfile'.size_lt
    rw [hmoved.size] at hlt
    have hmoved' : (s.proc.fileTab t).Moved n' count.toNat :=
      ⟨hmoved.pos, hmoved.size, hmoved.cursor, hmoved.fixed⟩
    rw [h.pos] at hfile'
    obtain ⟨hopen, hsaved⟩ := h.put buf hfile' hmoved' hdisk
    rw [Attempt.bind_of_some hr]
    refine ⟨_, _, c', rfl, ssize_count (by omega), hopen, hsaved, ?_⟩
    show ((s.put t ⟨fs', n', buf⟩).proc.fileTab t).iblock ≠ iblockNopos
    rw [Sys.put, setInode_fileTab]
    exact hmoved.cursor
  · right
    rw [h.size, h.pos] at hstuck
    rw [Attempt.bind_of_none hr]
    exact ⟨_, rfl, hstuck⟩

/-- **`kread` inside the file fetches the bytes of the abstract file.** -/
theorem kread_open (h : Open F fd t c s f) (hshort : ¬ (s.proc.fileTab t).ScansShort)
    (now : BlockNo) (buf : Buffer) {count : UInt32} (hcount : 0 < count.toNat)
    (hin : f.pos + count.toNat ≤ f.size) :
    (∃ r s' c', kread flatStore now fd buf count s =
        ((r, fetched f.bytes f.pos count.toNat buf), s') ∧ r.toInt = count.toNat ∧
      Open F fd t c' s' (f.moveTo (f.pos + count.toNat)) ∧ Saved F t s s' ∧
      (s'.proc.fileTab t).iblock ≠ iblockNopos) ∨
    (∃ buf' s', kread flatStore now fd buf count s = ((-1, buf'), s') ∧
      Stuck F (chainLen f.size + 1) s'.fs) := by
  have hfile := h.file.accessed now
  have hin' : (s.proc.fileTab t).pos.toNat + count.toNat ≤ (s.proc.fileTab t).size.toNat := by
    rw [h.size, h.pos]
    exact hin
  simp only [kread, h.desc]
  rw [transferCall_inside hfile.le]
  rcases fileReadWrite_read (s := ⟨s.fs, { s.proc.fileTab t with accessedTime := now }, buf⟩) hfile
    hshort hcount hin' with ⟨n', fs', c', hr, hfile', hmoved, hdisk⟩ | ⟨s', hr, hstuck⟩
  · left
    have hlt := hfile'.size_lt
    rw [hmoved.size] at hlt
    have hmoved' : (s.proc.fileTab t).Moved n' count.toNat :=
      ⟨hmoved.pos, hmoved.size, hmoved.cursor, hmoved.fixed⟩
    obtain ⟨hopen, hsaved⟩ := h.put (fetched f.bytes f.pos count.toNat buf) hfile' hmoved' hdisk
    rw [Nat.max_eq_left hin] at hopen
    rw [h.pos] at hr
    rw [Attempt.bind_of_some hr]
    refine ⟨_, _, c', rfl, ssize_count (by omega), hopen, hsaved, ?_⟩
    show ((s.put t ⟨fs', n', fetched f.bytes f.pos count.toNat buf⟩).proc.fileTab t).iblock ≠
      iblockNopos
    rw [Sys.put, setInode_fileTab]
    exact hmoved.cursor
  · right
    rw [h.size] at hstuck
    rw [Attempt.bind_of_none hr]
    exact ⟨_, _, rfl, hstuck⟩

/-- The position of the inode after a seek inside the file is the one asked for. -/
theorem Open.seek (h : Open F fd t c s f) {offset : UInt32} {whence : Whence} {p : ℕ}
    (htarget : f.target offset whence = some p) (hp : p ≤ f.size) :
    ∃ q, (s.proc.fileTab t).seek offset whence = some q ∧ q.toNat = p := by
  have hsize := h.file.size_lt
  rw [h.size] at hsize
  cases whence with
  | set =>
      refine ⟨_, rfl, ?_⟩
      rw [count_toNat]
      exact Option.some.inj htarget
  | cur =>
      have hp' : f.pos + offset.toNat = p := Option.some.inj htarget
      have hto : ((s.proc.fileTab t).pos + offset.toUInt64).toNat = p := by
        rw [UInt64.toNat_add, count_toNat, h.pos]
        omega
      have hmax : ¬ ssizeMax < (s.proc.fileTab t).pos + offset.toUInt64 := by
        rw [UInt64.lt_iff_toNat_lt, hto]
        show ¬ 2147483647 < p
        omega
      refine ⟨_, rfl, ?_⟩
      rw [if_neg hmax]
      exact hto
  | fin =>
      have hp' : f.size + offset.toNat = p := Option.some.inj htarget
      refine ⟨_, rfl, ?_⟩
      rw [UInt64.toNat_add, count_toNat, h.size]
      omega
  | other => cases htarget

/-- The state a seek leaves. -/
theorem FileOk.sought (h : FileOk F fs n c bytes) {q : UInt64} (hq : q.toNat ≤ n.size.toNat)
    (data : Sector) :
    FileOk F (fs.write F.dev F.self data) { n with pos := q, iblock := iblockNopos } c bytes := by
  refine ⟨h.self, h.dev, h.ok.writeSelf data, h.head, h.fits, ?_, hq, Or.inl rfl⟩
  rcases h.fits with ⟨-, h0⟩ | hfit
  · intro p hp
    have hzero : p < (0 : UInt64).toNat := h0 ▸ hp
    exact absurd hzero (Nat.not_lt_zero p)
  · exact h.holds.writeSelf h.ok (by rw [hfit.1]; omega) data

/-- **`klseek` inside the file moves the cursor.** -/
theorem klseek_open (h : Open F fd t c s f) {offset : UInt32} {whence : Whence} {p : ℕ}
    (htarget : f.target offset whence = some p) (hp : p ≤ f.size) :
    ∃ r s', klseek flatStore fd offset whence s = (r, s') ∧ r.toNat = p ∧
      Open F fd t c s' (f.moveTo p) ∧ Saved F t s s' := by
  obtain ⟨q, hq, hqp⟩ := h.seek htarget hp
  have hsize := h.file.size_lt
  rw [h.size] at hsize
  have hfile := h.file.sought (q := q) (by rw [hqp, h.size]; exact hp)
    (Inode.layout { s.proc.fileTab t with pos := q, iblock := iblockNopos })
  have hr : klseek flatStore fd offset whence s = (q.toUInt32,
      { s with
        proc := s.proc.setInode t { s.proc.fileTab t with pos := q, iblock := iblockNopos }
        fs := s.fs.write F.dev F.self
          (Inode.layout { s.proc.fileTab t with pos := q, iblock := iblockNopos }) }) := by
    simp only [klseek, h.desc, hq, ← h.file.dev, ← h.file.self]
    rfl
  refine ⟨_, _, hr, ?_, ⟨h.desc, ?_, ?_, ?_⟩, ?_, ?_, _, FsState.write_self _ _ _ _, rfl, ?_, ?_⟩
  · rw [UInt64.toNat_toUInt32, hqp]
    omega
  · rw [setInode_fileTab]
    exact hfile
  · rw [setInode_fileTab]
    exact h.size
  · rw [setInode_fileTab]
    exact hqp
  · rw [setInode_fileTab]
  · rw [setInode_fileTab]
    rfl
  · rw [setInode_fileTab]
  · rw [setInode_fileTab]

/-- **A `kread` after a short scan** fetches other bytes. -/
theorem kread_short (h : Open F fd t c s f) (hshort : (s.proc.fileTab t).ScansShort)
    (now : BlockNo) (buf : Buffer) {count : UInt32} (hcount : 0 < count.toNat)
    (hin : f.pos + count.toNat ≤ f.size) :
    (∃ r s', kread flatStore now fd buf count s =
        ((r, fetched f.bytes (f.pos - 65024) count.toNat buf), s') ∧ r.toInt = count.toNat) ∨
    (∃ buf' s', kread flatStore now fd buf count s = ((-1, buf'), s') ∧
      Stuck F (chainLen f.size + 1) s'.fs) := by
  have hfile := h.file.accessed now
  have hlt := h.file.size_lt
  have hin' : (s.proc.fileTab t).pos.toNat + count.toNat ≤ (s.proc.fileTab t).size.toNat := by
    rw [h.size, h.pos]
    exact hin
  have hfit : c.Fits ((s.proc.fileTab t).size.toNat / 512 + 1) := by
    rcases h.file.fits with ⟨-, h0⟩ | hfit
    · rw [h0] at hin'
      exact absurd hin' (by simp only [UInt64.toNat_ofNat, Nat.reducePow, Nat.reduceMod]; omega)
    · exact hfit
  simp only [kread, h.desc]
  rw [transferCall_inside hfile.le]
  rcases fileReadWrite_short (s := ⟨s.fs, { s.proc.fileTab t with accessedTime := now }, buf⟩) hfile
    hshort hfit hcount hin' with ⟨s', hr, hdata⟩ | ⟨s', hr, hstuck⟩
  · left
    rw [h.pos] at hdata
    rw [Attempt.bind_of_some hr, ← hdata]
    exact ⟨_, _, rfl, ssize_count (by omega)⟩
  · right
    rw [h.size] at hstuck
    rw [Attempt.bind_of_none hr]
    exact ⟨_, _, rfl, hstuck⟩

end Calls

end OxKernel.Fs
