import Mathlib
import OxKernel.Fs.Seek
import OxKernel.Fs.FileMoves
import OxKernel.Fs.Capacity
import OxKernel.Lib.Machine

/-!
# Runs of file calls

Any sequence of `kread`, `kwrite` and `klseek` on an open descriptor. The file behind it is
what a walk along its chain finds, and every call does to it what the call of the same name
does to a byte array with a cursor, as long as a transfer starts at a position that a scan
finds, a write does not start behind the end of the file and a read does not go past it.

The blocks that are free may hold anything, so a byte that a read stores is one of the file
or it is an old one.

## Main definitions

* `Sys.view` — the file behind a descriptor, read along its chain.
* `FileOp`, `fileMachine` — the calls on one descriptor.
* `ByteFile.step`, `FileOp.Answers` — what they do to a byte array, and what they return.
* `FileOp.Law` — a read stores bytes of the file and changes none; a write returns its count.

## Main results

* `OpenAt.step`, `OpenAt.run` — a call and a run do what the byte array does.
* `reads_keep_file` — the law, for every run whose calls stay inside.
-/
namespace OxKernel.Fs

open Lib (Attempt)

/-! ## The file behind a descriptor -/

/-- The number of the block map `j` of a chain. -/
def mapBlock (d : BlockNo → Sector) (next : BlockNo) : ℕ → BlockNo
  | 0 => next
  | j + 1 => (BlockMap.layout.symm (d (mapBlock d next j))).next

/-- The number of the data block `q` of a chain. -/
def fileBlock (d : BlockNo → Sector) (next : BlockNo) (q : ℕ) : BlockNo :=
  (BlockMap.layout.symm (d (mapBlock d next (q / 127)))).blocks ⟨q % 127, Nat.mod_lt _ (by decide)⟩

theorem mod_devBlockSize_lt (p : ℕ) : p % 512 < devBlockSize := Nat.mod_lt _ (by decide)

/-- The byte `p` of a chain. -/
def fileByte (d : BlockNo → Sector) (next : BlockNo) (p : ℕ) : UInt8 :=
  d (fileBlock d next (p / 512)) ⟨p % 512, mod_devBlockSize_lt p⟩

/-- The file behind a descriptor. -/
def Sys.view (s : Sys Disk) (fd : Int32) : Option ByteFile :=
  (s.proc.descriptor fd).map fun t =>
    ⟨fileByte (s.fs.store (s.proc.fileTab t).dev) (s.proc.fileTab t).next,
      (s.proc.fileTab t).size.toNat, (s.proc.fileTab t).pos.toNat⟩

/-- Two files of the same size and position agree on their bytes. -/
structure ByteFile.Same (f g : ByteFile) : Prop where
  size : f.size = g.size
  pos : f.pos = g.pos
  bytes : ∀ p, p < f.size → f.bytes p = g.bytes p

/-- The file behind a descriptor is the given one. -/
def FileIs (s : Sys Disk) (fd : Int32) (f : ByteFile) : Prop := ∃ g, s.view fd = some g ∧ g.Same f

/-- A descriptor is open on a file, at a position that a seek may have moved behind the end. -/
structure OpenAt (F : Setting) (fd : Int32) (t : Fin maxFiles) (c : Chain) (s : Sys Disk)
    (f : ByteFile) : Prop where
  desc : s.proc.descriptor fd = some t
  file : FileOk F s.fs ((s.proc.fileTab t).sought 0) c f.bytes
  size : (s.proc.fileTab t).size.toNat = f.size
  pos : (s.proc.fileTab t).pos.toNat = f.pos
  cursor : f.pos ≤ f.size ∧ CursorOk c (s.proc.fileTab t) ∨
    (s.proc.fileTab t).iblock = iblockNopos

section View
variable {F : Setting} {fs : FsState Disk} {c : Chain} {n : Inode} {bytes : ℕ → UInt8} {fd : Int32}
  {t : Fin maxFiles} {s : Sys Disk} {f : ByteFile}

theorem mapBlock_chain (h : ChainOk F fs c) (hhead : c.mapAt 0 = n.next) {j : ℕ}
    (hj : j < c.maps.length) : mapBlock (fs.store F.dev) n.next j = c.mapAt j := by
  induction j with
  | zero => exact hhead.symm
  | succ j ih =>
      rw [mapBlock, ih (by omega), h.disk j (by omega), Equiv.symm_apply_apply]
      rfl

theorem fileBlock_chain (h : ChainOk F fs c) (hhead : c.mapAt 0 = n.next) {q : ℕ}
    (hq : q / 127 < c.maps.length) : fileBlock (fs.store F.dev) n.next q = c.blockAt q := by
  rw [fileBlock, mapBlock_chain h hhead hq, h.disk _ hq, Equiv.symm_apply_apply]
  show c.blockAt (127 * (q / 127) + q % 127) = c.blockAt q
  rw [Nat.div_add_mod]

/-- A walk along the chain finds the bytes of the file. -/
theorem FileOk.fileByte (h : FileOk F fs n c bytes) {p : ℕ} (hp : p < n.size.toNat) :
    Fs.fileByte (fs.store F.dev) n.next p = bytes p := by
  rcases h.fits with ⟨-, h0⟩ | hfit
  · have hzero : p < (0 : UInt64).toNat := h0 ▸ hp
    exact absurd hzero (Nat.not_lt_zero p)
  · have hmap : p / 512 / 127 < c.maps.length := by
      rw [hfit.2]
      omega
    rw [Fs.fileByte, fileBlock_chain h.ok h.head hmap]
    exact h.holds p hp

theorem OpenAt.fileIs (h : OpenAt F fd t c s f) : FileIs s fd f := by
  refine ⟨_, by rw [Sys.view, h.desc]; rfl, h.size, h.pos, fun p hp => ?_⟩
  have hdev : (s.proc.fileTab t).dev = F.dev := h.file.dev
  simp only [hdev]
  exact h.file.fileByte hp

theorem FileOk.sought_zero (h : FileOk F fs n c bytes) : FileOk F fs (n.sought 0) c bytes :=
  ⟨h.self, h.dev, h.ok, h.head, h.fits, h.holds, Nat.zero_le _, Or.inl rfl⟩

theorem Open.openAt (h : Open F fd t c s f) : OpenAt F fd t c s f :=
  ⟨h.desc, h.file.sought_zero, h.size, h.pos,
    Or.inl ⟨by rw [← h.size, ← h.pos]; exact h.file.le, h.file.cursor⟩⟩

/-- Inside the file the position and the cursor are in order. -/
theorem OpenAt.inside (h : OpenAt F fd t c s f) (hle : f.pos ≤ f.size) : Open F fd t c s f := by
  refine ⟨h.desc, ⟨h.file.self, h.file.dev, h.file.ok, h.file.head, h.file.fits, h.file.holds, ?_,
    ?_⟩, h.size, h.pos⟩
  · rw [h.size, h.pos]
    exact hle
  · rcases h.cursor with ⟨-, hcursor⟩ | hno
    · exact hcursor
    · exact Or.inl hno

end View

/-! ## Calls on one descriptor -/

/-- The calls. The clock and the buffer are arguments. -/
inductive FileOp
  | read (now : BlockNo) (buf : Buffer) (count : UInt32)
  | write (now : BlockNo) (buf : Buffer) (count : UInt32)
  | seek (offset : UInt32) (whence : Whence)

/-- What a call returns. -/
inductive FileReply
  | read (r : Int32) (buf : Buffer)
  | write (r : Int32)
  | seek (r : UInt32)

/-- A transfer has returned an error. -/
def FileReply.Failed : FileReply → Prop
  | .read r _ => r = -1
  | .write r => r = -1
  | .seek _ => False

/-- Make one call. -/
def FileOp.exec (fd : Int32) : FileOp → Sys Disk → FileReply × Sys Disk
  | .read now buf count, s =>
    match kread flatStore now fd buf count s with
    | ((r, buf), s) => (.read r buf, s)
  | .write now buf count, s =>
    match kwrite flatStore now fd buf count s with
    | (r, s) => (.write r, s)
  | .seek offset whence, s =>
    match klseek flatStore fd offset whence s with
    | (r, s) => (.seek r, s)

/-- A process that makes calls on one descriptor. -/
def fileMachine (fd : Int32) : Lib.Machine (Sys Disk) FileOp FileReply := ⟨FileOp.exec fd⟩

namespace ByteFile
variable (f : ByteFile)

/-- The position that a seek leads to. -/
def sought (offset : UInt32) : Whence → ℕ
  | .set => offset.toNat
  | .cur => min ((f.pos + offset.toNat) % 2 ^ 64) 2147483647
  | .fin => (f.size + offset.toNat) % 2 ^ 64
  | .other => f.pos

/-- What the calls do to a byte array with a cursor. -/
def step : FileOp → ByteFile
  | .read _ _ count => f.moveTo (f.pos + count.toNat)
  | .write _ buf count => f.write buf count.toNat
  | .seek offset whence => f.moveTo (f.sought offset whence)

/-- A sequence of calls. -/
def run (ops : List FileOp) : ByteFile := ops.foldl ByteFile.step f

/-- What has been written at a position, or 0. -/
def content (p : ℕ) : UInt8 := if p < f.size then f.bytes p else 0

end ByteFile

/-- What the calls return: a read the bytes at the cursor, a seek the new position. -/
def FileOp.Answers (f : ByteFile) : FileOp → FileReply → Prop
  | .read _ buf count, .read r buf' =>
    r.toInt = count.toNat ∧ buf' = fetched f.bytes f.pos count.toNat buf
  | .write _ _ count, .write r => r.toInt = count.toNat
  | .seek offset whence, .seek r =>
    r = if whence = .other then offMinusOne else UInt32.ofNat (f.sought offset whence)
  | _, _ => False

/-- A read stays inside the file, and a write starts inside it. -/
def FileOp.Inside (f : ByteFile) : FileOp → Prop
  | .read _ _ count => f.pos + count.toNat ≤ f.size
  | .write _ _ _ => f.pos ≤ f.size
  | .seek _ _ => True

/-- The number of bytes that a call transfers. -/
def FileOp.count : FileOp → ℕ
  | .read _ _ count => count.toNat
  | .write _ _ count => count.toNat
  | .seek _ _ => 0

section Guards
variable (fd : Int32) (s : Sys Disk) (op : FileOp)

/-- The call is inside the file behind the descriptor. -/
def FileOp.Fair : Prop := ∃ f, s.view fd = some f ∧ op.Inside f

/-- The call does not fail for lack of a data block. -/
def FileOp.Allocates : Prop :=
  (op.exec fd s).1.Failed → ∀ t, s.proc.descriptor fd = some t →
    HasRoom (s.proc.fileTab t).dev (op.exec fd s).2.fs

/-- The call does not start a transfer with a short scan. -/
def FileOp.Whole : Prop :=
  0 < op.count → ∀ t, s.proc.descriptor fd = some t → ¬ (s.proc.fileTab t).ScansShort

end Guards

/-! ## One call -/

section Step
variable {F : Setting} {c : Chain} {fd : Int32} {t : Fin maxFiles} {s : Sys Disk} {f : ByteFile}

/-- A transfer of nothing. -/
theorem transferCall_zero {s : FileIo Disk} (hle : s.inode.pos.toNat ≤ s.inode.size.toNat)
    (reading : Bool) : transferCall flatStore 0 reading s = (some (0 + 0), s) := by
  rw [transferCall_inside hle]
  rfl

theorem kread_zero (h : Open F fd t c s f) (now : BlockNo) (buf : Buffer) :
    ∃ s', kread flatStore now fd buf 0 s = ((0, buf), s') ∧ Open F fd t c s' f := by
  have hle := (h.file.accessed now).le
  simp only [kread, h.desc]
  rw [transferCall_zero (s := ⟨s.fs, { s.proc.fileTab t with accessedTime := now }, buf⟩) hle]
  refine ⟨_, rfl, h.desc, ?_, ?_, ?_⟩
  · rw [Sys.put, setInode_fileTab]
    exact h.file.accessed now
  · rw [Sys.put, setInode_fileTab]
    exact h.size
  · rw [Sys.put, setInode_fileTab]
    exact h.pos

theorem kwrite_zero (h : Open F fd t c s f) (now : BlockNo) (buf : Buffer) :
    ∃ s', kwrite flatStore now fd buf 0 s = (0, s') ∧ Open F fd t c s' f := by
  have hle := (h.file.modified now).le
  simp only [kwrite, h.desc]
  rw [transferCall_zero (s := ⟨s.fs, { s.proc.fileTab t with modifiedTime := now }, buf⟩) hle]
  refine ⟨_, rfl, h.desc, ?_, ?_, ?_⟩
  · rw [Sys.put, setInode_fileTab]
    exact h.file.modified now
  · rw [Sys.put, setInode_fileTab]
    exact h.size
  · rw [Sys.put, setInode_fileTab]
    exact h.pos

theorem OpenAt.soughtNat (h : OpenAt F fd t c s f) (offset : UInt32) (whence : Whence) :
    (s.proc.fileTab t).soughtNat offset whence = f.sought offset whence := by
  cases whence <;> simp only [Inode.soughtNat, ByteFile.sought, h.pos, h.size]

/-- **`klseek` moves the cursor**, to where its arithmetic leads. -/
theorem klseek_openAt (h : OpenAt F fd t c s f) (offset : UInt32) (whence : Whence) :
    (FileOp.seek offset whence).Answers f (.seek (klseek flatStore fd offset whence s).1) ∧
      OpenAt F fd t c (klseek flatStore fd offset whence s).2
        (f.moveTo (f.sought offset whence)) := by
  rw [← h.soughtNat, FileOp.Answers, ← h.soughtNat]
  rcases hseek : (s.proc.fileTab t).seek offset whence with - | pos
  · have hother : whence = .other := by
      cases whence <;> first | rfl | cases hseek
    subst hother
    rw [klseek_other h.desc hseek]
    refine ⟨rfl, ?_⟩
    rw [Inode.soughtNat, h.pos]
    exact h
  · have hother : whence ≠ .other := by
      rintro rfl
      cases hseek
    have hdev : (s.proc.fileTab t).dev = F.dev := h.file.dev
    have hself : (s.proc.fileTab t).self = F.self := h.file.self
    have hr : klseek flatStore fd offset whence s = (pos.toUInt32,
        { s with
          proc := s.proc.setInode t ((s.proc.fileTab t).sought pos)
          fs := s.fs.write F.dev F.self (Inode.layout ((s.proc.fileTab t).sought pos)) }) := by
      simp only [klseek, h.desc, hseek, ← hdev, ← hself, Inode.sought]
      rfl
    have hfile := h.file.sought (q := 0) (Nat.zero_le _)
      (Inode.layout ((s.proc.fileTab t).sought pos))
    rw [hr, if_neg hother, ← seek_toNat hseek]
    refine ⟨?_, h.desc, ?_, ?_, ?_, Or.inr ?_⟩
    · apply UInt32.toNat_inj.mp
      rw [UInt64.toNat_toUInt32, UInt32.toNat_ofNat']
    · rw [setInode_fileTab]
      exact hfile
    · rw [setInode_fileTab]
      exact h.size
    · rw [setInode_fileTab]
      rfl
    · rw [setInode_fileTab]
      rfl

theorem write_nothing (f : ByteFile) (hle : f.pos ≤ f.size) (buf : Buffer) :
    f.write buf 0 = f := by
  rw [ByteFile.write, overwrite_zero, Nat.add_zero, Nat.max_eq_left hle]

/-- **One call** that stays inside does what the byte array does. -/
theorem OpenAt.step (h : OpenAt F fd t c s f) {op : FileOp} (hop : op.Inside f)
    (halloc : op.Allocates fd s) (hwhole : op.Whole fd s) :
    op.Answers f (op.exec fd s).1 ∧ ∃ c', OpenAt F fd t c' (op.exec fd s).2 (f.step op) := by
  cases op with
  | read now buf count =>
      have hopen := h.inside ((Nat.le_add_right _ _).trans hop)
      by_cases h0 : count.toNat = 0
      · obtain rfl : count = 0 := UInt32.toNat_inj.mp h0
        obtain ⟨s', hr, hopen'⟩ := kread_zero hopen now buf
        simp only [FileOp.exec, hr]
        exact ⟨⟨rfl, (fetched_zero _ _ _).symm⟩, c, hopen'.openAt⟩
      · rcases kread_open hopen (hwhole (Nat.pos_of_ne_zero h0) t h.desc) now buf
          (Nat.pos_of_ne_zero h0) hop with ⟨r, s', c', hr, hcount, hopen', -⟩ | ⟨buf', s', hr, hstuck⟩
        · simp only [FileOp.exec, hr]
          exact ⟨⟨hcount, rfl⟩, c', hopen'.openAt⟩
        · simp only [FileOp.Allocates, FileOp.exec, hr] at halloc
          have hroom := halloc rfl t h.desc
          rw [hopen.file.dev] at hroom
          exact absurd hroom hstuck.1
  | write now buf count =>
      have hopen := h.inside hop
      by_cases h0 : count.toNat = 0
      · obtain rfl : count = 0 := UInt32.toNat_inj.mp h0
        obtain ⟨s', hr, hopen'⟩ := kwrite_zero hopen now buf
        simp only [FileOp.exec, hr]
        refine ⟨rfl, c, ?_⟩
        rw [ByteFile.step, UInt32.toNat_zero, write_nothing f hop]
        exact hopen'.openAt
      · rcases kwrite_open hopen (hwhole (Nat.pos_of_ne_zero h0) t h.desc) now buf
          (Nat.pos_of_ne_zero h0) with ⟨r, s', c', hr, hcount, hopen', -⟩ | ⟨s', hr, hstuck⟩
        · simp only [FileOp.exec, hr]
          exact ⟨hcount, c', hopen'.openAt⟩
        · simp only [FileOp.Allocates, FileOp.exec, hr] at halloc
          have hroom := halloc rfl t h.desc
          rw [hopen.file.dev] at hroom
          exact absurd hroom hstuck.1
  | seek offset whence =>
      obtain ⟨hans, hopen'⟩ := klseek_openAt h offset whence
      exact ⟨hans, c, hopen'⟩

end Step

/-! ## Runs -/

/-- What a call on a file has to do: a read stores no more bytes than it is asked for, each of
them one of the file or a zero behind its end, and leaves the file as it is but for the
position; a write returns its count. -/
def FileOp.Law (fd : Int32) (f : ByteFile) (s' : Sys Disk) : FileOp → FileReply → Prop
  | .read _ buf count, .read r buf' =>
    r.toInt ≤ count.toNat ∧
      (∀ j, buf' j = buf j ∨ j < count.toNat ∧ buf' j = f.content (f.pos + j)) ∧
      ∃ p, FileIs s' fd (f.moveTo p)
  | .write _ _ count, .write r => r.toInt = count.toNat
  | .seek _ _, .seek _ => True
  | _, _ => False

section Runs
variable {F : Setting} {c : Chain} {fd : Int32} {t : Fin maxFiles} {s : Sys Disk} {f : ByteFile}

/-- A call that is inside the file behind the descriptor is inside the file it is open on. -/
theorem OpenAt.fair (h : OpenAt F fd t c s f) {op : FileOp} (hop : op.Fair fd s) : op.Inside f := by
  obtain ⟨g, hg, hin⟩ := hop
  obtain ⟨g', hg', hsame⟩ := h.fileIs
  rw [hg'] at hg
  cases hg
  cases op with
  | read now buf count =>
      rw [FileOp.Inside, ← hsame.size, ← hsame.pos]
      exact hin
  | write now buf count =>
      rw [FileOp.Inside, ← hsame.size, ← hsame.pos]
      exact hin
  | seek offset whence => trivial

/-- The steps that stay inside, find their start and find data blocks. -/
def FileOp.Safe (fd : Int32) (s : Sys Disk) (op : FileOp) : Prop :=
  op.Fair fd s ∧ op.Whole fd s ∧ op.Allocates fd s

/-- **A run of calls** on an open file does what the byte array does. -/
theorem OpenAt.run (h : OpenAt F fd t c s f) {ops : List FileOp}
    (hops : (fileMachine fd).Admits (FileOp.Safe fd) ops s) :
    ∃ c', OpenAt F fd t c' ((fileMachine fd).exec ops s) (f.run ops) := by
  induction ops generalizing c s f with
  | nil => exact ⟨c, h⟩
  | cons op ops ih =>
      obtain ⟨⟨hfair, hwhole, halloc⟩, hrest⟩ := hops
      obtain ⟨-, c', hopen⟩ := h.step (h.fair hfair) halloc hwhole
      exact ih hopen hrest

/-- The bytes that a read stores are those of the file. -/
theorem fetched_content {k : ℕ} (hin : f.pos + k ≤ f.size) (buf : Buffer) (j : ℕ) :
    fetched f.bytes f.pos k buf j = buf j ∨
      j < k ∧ fetched f.bytes f.pos k buf j = f.content (f.pos + j) := by
  rw [fetched]
  by_cases hj : j < k
  · rw [if_pos hj, ByteFile.content, if_pos (by omega)]
    exact Or.inr ⟨hj, rfl⟩
  · rw [if_neg hj]
    exact Or.inl rfl

/-- A call that does what the byte array does meets the law. -/
theorem FileOp.Answers.law {op : FileOp} {r : FileReply} {s' : Sys Disk} (h : op.Answers f r)
    (hin : op.Inside f) (hfileIs : FileIs s' fd (f.step op)) : op.Law fd f s' r := by
  cases op with
  | read now buf count =>
      cases r with
      | read r buf' =>
          obtain ⟨hr, rfl⟩ := h
          exact ⟨hr.le, fetched_content hin buf, _, hfileIs⟩
      | write r => cases h
      | seek r => cases h
  | write now buf count =>
      cases r with
      | read r buf' => cases h
      | write r => exact h
      | seek r => cases h
  | seek offset whence =>
      cases r with
      | read r buf' => cases h
      | write r => cases h
      | seek r => trivial

/-- **Reading never invents or changes data**: in every run on an open file whose calls are safe,
each call meets the law for the bytes that have been written before it. -/
theorem reads_keep_file (h : OpenAt F fd t c s f) {ops : List FileOp}
    (hops : (fileMachine fd).Admits (FileOp.Safe fd) ops s) :
    ∀ pre op post, ops = pre ++ op :: post →
      FileIs ((fileMachine fd).exec pre s) fd (f.run pre) ∧
        op.Law fd (f.run pre) (op.exec fd ((fileMachine fd).exec pre s)).2
          (op.exec fd ((fileMachine fd).exec pre s)).1 := by
  rintro pre op post rfl
  obtain ⟨hpre, hop, -⟩ := hops.split
  obtain ⟨c₁, h₁⟩ := h.run hpre
  obtain ⟨hfair, hwhole, halloc⟩ := hop
  have hin := h₁.fair hfair
  obtain ⟨hans, c₂, h₂⟩ := h₁.step hin halloc hwhole
  exact ⟨h₁.fileIs, hans.law hin h₂.fileIs⟩

end Runs

/-! ## New files -/

/-- An empty file. -/
def ByteFile.empty : ByteFile := ⟨fun _ => 0, 0, 0⟩

theorem volumeShape_dataApart (size : BlockNo) : (volumeShape (size / 512)).DataApart where
  pos hb := (data_above size hb).1 rfl
  master hb := (data_above size hb).2.1 rfl
  maps k _ hp hb := (data_above size hb).2.2.2 k hp

theorem volumeShape_small (size : BlockNo) :
    512 * (volumeShape (size / 512)).mapLen .bmap ≤ 4194303 := by
  have hn := volumeSize_lt size
  rw [volumeShape_mapLen hn]
  simp only [volumeCount, volumeBlocks, mapBlocks]
  omega

/-- The surroundings of the only file of a new volume. -/
def newSetting (size self : BlockNo) (h : (volumeShape (size / 512)).InRegion .imap self)
    (fs : FsState Disk) : Setting where
  g := volumeShape (size / 512)
  dev := 0
  row := 0
  self := self
  others := ∅
  exact := True
  base := fs.store 0
  apart := volumeShape_dataApart size
  small := volumeShape_small size
  selfData hb := (data_above size hb).2.2.1 h
  selfMap := (volumeShape_apart (volumeSize_lt size) h).2
  selfMaster := inode_ne_master h

/-- A process with one descriptor, for a file that has just been made. -/
def newFile (self : BlockNo) (fs : FsState Disk) : Sys Disk :=
  { Sys.start fs with
    proc := { Proc.zero with
      fileTab := fun _ => { Inode.zero with self := self }
      fileDesc := fun i => if i = 0 then some 0 else none } }

section New
variable {size self : BlockNo} {fs : FsState Disk}

/-- The descriptor of a new file is open on it. -/
theorem newFile_open (hself : (volumeShape (size / 512)).InRegion .imap self)
    (h : Fresh (volumeShape (size / 512)) 0 fs) :
    Open (newSetting size self hself fs) 0 0 .empty (newFile self fs) .empty := by
  have howns : Owns (volumeShape (size / 512)) 0 0 fs ∅ := by
    refine HeldOk.nothing_held h.ok fun k => ?_
    cases k <;> rfl
  have htight : Tight (volumeShape (size / 512)) 0 0 fs ∅ := by
    refine ⟨fun k => Or.inl (h.mounted.loaded k), fun b hb hrec => ?_⟩
    exact (h.recordsHeld.record .bmap b hb).mp hrec
  have hall : (newSetting size self hself fs).others ∪ Chain.empty.all.toFinset = ∅ := rfl
  refine ⟨rfl, ⟨rfl, rfl, ⟨?_, List.nodup_nil, ?_, ?_, fun _ _ => rfl, ?_⟩, rfl, Or.inl ⟨rfl, rfl⟩,
    ?_, le_rfl, Or.inr (Or.inl ⟨rfl, rfl⟩)⟩, rfl, rfl⟩
  · rw [hall]
    exact howns
  · intro b hb
    cases hb
  · intro j hj
    cases hj
  · rw [hall]
    exact fun _ => htight
  · intro p hp
    exact absurd hp (Nat.not_lt_zero p)

end New

section Room
variable {F : Setting} {c : Chain} {fd : Int32} {t : Fin maxFiles} {s : Sys Disk} {f : ByteFile}

theorem ne_neg_one_of_count {r : Int32} {k : ℕ} (h : r.toInt = k) : r ≠ -1 := by
  rintro rfl
  have hneg : (-1 : Int32).toInt = -1 := rfl
  omega

/-- Where the data map records nothing but the blocks of the files, the size of the chain says
whether there are enough data blocks. -/
theorem OpenAt.allocates (h : OpenAt F fd t c s f) {op : FileOp} (hop : op.Inside f)
    (hwhole : op.Whole fd s) (hexact : F.exact)
    (hroom : F.others.card + (chainLen (max f.size (f.pos + op.count)) + 1) <
      512 * F.g.mapLen .bmap) : op.Allocates fd s := by
  intro hfail
  cases op with
  | read now buf count =>
      have hopen := h.inside ((Nat.le_add_right _ _).trans hop)
      by_cases h0 : count.toNat = 0
      · obtain rfl : count = 0 := UInt32.toNat_inj.mp h0
        obtain ⟨s', hr, -⟩ := kread_zero hopen now buf
        simp only [FileOp.exec, hr] at hfail
        cases hfail
      · rcases kread_open hopen (hwhole (Nat.pos_of_ne_zero h0) t h.desc) now buf
          (Nat.pos_of_ne_zero h0) hop with ⟨r, s', c', hr, hcount, -⟩ | ⟨buf', s', hr, hstuck⟩
        · simp only [FileOp.exec, hr] at hfail
          exact absurd hfail (ne_neg_one_of_count hcount)
        · have hfull := hstuck.2 hexact
          have hmax : max f.size (f.pos + count.toNat) = f.size := Nat.max_eq_left hop
          simp only [FileOp.count, hmax] at hroom
          omega
  | write now buf count =>
      have hopen := h.inside hop
      by_cases h0 : count.toNat = 0
      · obtain rfl : count = 0 := UInt32.toNat_inj.mp h0
        obtain ⟨s', hr, -⟩ := kwrite_zero hopen now buf
        simp only [FileOp.exec, hr] at hfail
        cases hfail
      · rcases kwrite_open hopen (hwhole (Nat.pos_of_ne_zero h0) t h.desc) now buf
          (Nat.pos_of_ne_zero h0) with ⟨r, s', c', hr, hcount, -⟩ | ⟨s', hr, hstuck⟩
        · simp only [FileOp.exec, hr] at hfail
          exact absurd hfail (ne_neg_one_of_count hcount)
        · have hfull := hstuck.2 hexact
          simp only [FileOp.count] at hroom
          omega
  | seek offset whence => exact hfail.elim

/-- Away from the multiples of 127 blocks no scan is short. -/
theorem OpenAt.whole (h : OpenAt F fd t c s f) (hpos : f.pos % 65024 = 0 → f.pos = 0)
    (op : FileOp) : op.Whole fd s := by
  intro _ t' ht' hshort
  rw [h.desc] at ht'
  cases ht'
  have hnat : (s.proc.fileTab t).pos.toNat = f.pos := h.pos
  refine hshort.2.1 (UInt64.toNat_inj.mp ?_)
  rw [hnat]
  exact hpos (hnat ▸ hshort.2.2)

/-- A run is safe if its first call is, where it can be seen from the file, and the rest is. -/
theorem OpenAt.admits_cons (h : OpenAt F fd t c s f) (hexact : F.exact) {op : FileOp}
    {ops : List FileOp} (hop : op.Inside f) (hpos : f.pos % 65024 = 0 → f.pos = 0)
    (hroom : F.others.card + (chainLen (max f.size (f.pos + op.count)) + 1) <
      512 * F.g.mapLen .bmap)
    (hrest : ∀ c' s', OpenAt F fd t c' s' (f.step op) →
      (fileMachine fd).Admits (FileOp.Safe fd) ops s') :
    (fileMachine fd).Admits (FileOp.Safe fd) (op :: ops) s := by
  have hwhole := h.whole hpos op
  have halloc := h.allocates hop hwhole hexact hroom
  obtain ⟨-, c', h'⟩ := h.step hop halloc hwhole
  obtain ⟨g, hg, hsame⟩ := h.fileIs
  refine ⟨⟨⟨g, hg, ?_⟩, hwhole, halloc⟩, hrest c' _ h'⟩
  cases op with
  | read now buf count =>
      rw [FileOp.Inside, hsame.size, hsame.pos]
      exact hop
  | write now buf count =>
      rw [FileOp.Inside, hsame.size, hsame.pos]
      exact hop
  | seek offset whence => trivial

end Room

/-! ## Calls that leave the file -/

section Outside
variable {F : Setting} {c : Chain} {fd : Int32} {t : Fin maxFiles} {s s' : Sys Disk} {f : ByteFile}
  {buf buf' : Buffer} {count : UInt32} {now : BlockNo} {r : Int32}

theorem ssize_some {o : Option UInt64} (h : ssize o ≠ -1) : ∃ n, o = some n := by
  cases o with
  | none => exact absurd rfl h
  | some n => exact ⟨n, rfl⟩

/-- The size of the file after a call. -/
theorem fileIs_size (h : s.proc.descriptor fd = some t) {io : FileIo Disk} {g : ByteFile}
    (hg : FileIs (s.put t io) fd g) : io.inode.size.toNat = g.size := by
  obtain ⟨g', hview, hsame⟩ := hg
  rw [Sys.view, Sys.put, setInode_descriptor, h] at hview
  cases hview
  have hsize : ((s.proc.setInode t io.inode).fileTab t).size.toNat = g.size := hsame.size
  rwa [setInode_fileTab] at hsize

/-- **A read that goes past the end** makes the file longer. -/
theorem kread_grows (h : Open F fd t c s f)
    (hr : kread flatStore now fd buf count s = ((r, buf'), s'))
    (hne : r ≠ -1) (hpast : f.size < f.pos + count.toNat) :
    ¬ (FileOp.read now buf count).Law fd f s' (.read r buf') := by
  have hlt := h.file.size_lt
  have hle := h.file.le
  have hc := count.toNat_lt
  have hpos : (s.proc.fileTab t).pos.toNat = f.pos := h.pos
  have hsize : (s.proc.fileTab t).size.toNat = f.size := h.size
  simp only [kread, h.desc] at hr
  rcases hcall : transferCall flatStore count true
    ⟨s.fs, { s.proc.fileTab t with accessedTime := now }, buf⟩ with ⟨o, io⟩
  rw [hcall] at hr
  cases hr
  obtain ⟨n, rfl⟩ := ssize_some hne
  rintro ⟨-, -, p, hfileIs⟩
  have hkept : io.inode.size.toNat = f.size :=
    fileIs_size (g := f.moveTo p) h.desc hfileIs
  obtain ⟨-, ⟨rfl, -⟩ | ⟨-, hgrown⟩⟩ := transferCall_moves hle hcall
  · have h0 : (0 : UInt32).toNat = 0 := rfl
    omega
  · have hsum : ((s.proc.fileTab t).pos + count.toUInt64).toNat = f.pos + count.toNat := by
      rw [UInt64.toNat_add, UInt32.toNat_toUInt64, hpos]
      omega
    rw [if_pos (UInt64.lt_iff_toNat_lt.mpr (by rw [hsum, hsize]; exact hpast))] at hgrown
    rw [hgrown, hsum] at hkept
    omega

/-- **A write behind the end** counts the bytes of the gap, too. -/
theorem kwrite_gap (h : OpenAt F fd t c s f) (hr : kwrite flatStore now fd buf count s = (r, s'))
    (hne : r ≠ -1) (hgap : f.size < f.pos) (hfit : f.pos + count.toNat < 2147483648) :
    r.toInt = (f.pos - f.size) + count.toNat ∧
      ¬ (FileOp.write now buf count).Law fd f s' (.write r) := by
  have hpos : (s.proc.fileTab t).pos.toNat = f.pos := h.pos
  have hsize : (s.proc.fileTab t).size.toNat = f.size := h.size
  simp only [kwrite, h.desc] at hr
  rcases hcall : transferCall flatStore count false
    ⟨s.fs, { s.proc.fileTab t with modifiedTime := now }, buf⟩ with ⟨o, io⟩
  rw [hcall] at hr
  cases hr
  obtain ⟨n, rfl⟩ := ssize_some hne
  obtain ⟨hn, -⟩ := transferCall_gap (by simp only [hpos, hsize]; exact hgap)
    (by simp only [hpos, hsize]; omega) hcall
  simp only [hpos, hsize] at hn
  have hret : (ssize (some n)).toInt = (f.pos - f.size) + count.toNat := by
    rw [ssize_toInt (by omega), hn]
    omega
  refine ⟨hret, fun hlaw => ?_⟩
  have hcount : (ssize (some n)).toInt = count.toNat := hlaw
  omega

/-- Behind the end of the file a byte of the block is cleared. -/
theorem copyByte_past {t : Transfer} {s : FileIo Disk} (h : s.inode.size ≤ t.i.toUInt64) :
    copyByte true t s = (some { t with dptr := Function.update t.dptr (sectorIndex t.byte) 0 },
      { s with data := Function.update s.data t.i.toNat 0 }) := by
  simp only [copyByte, Attempt.get_bind_apply, if_true, if_pos h]
  rfl

/-- A read of one byte from an empty file. -/
theorem fileReadWrite_empty {c : Chain} {bytes : ℕ → UInt8} {s : FileIo Disk}
    (h : FileOk F s.fs s.inode c bytes) (hsize : s.inode.size = 0) (hpos : s.inode.pos = 0) :
    (∃ s', fileReadWrite flatStore 0 1 true s = (some 1, s')) ∨
      ∃ s', fileReadWrite flatStore 0 1 true s = (none, s') ∧ Stuck F 1 s'.fs := by
  have hone : (1 : UInt64) ≠ 0 := by decide
  have hshort : ¬ s.inode.ScansShort := fun hshort => hshort.2.1 hpos
  rcases locate_flat h hshort with ⟨c', fs', spot, hr, -⟩ | ⟨s', hr, hstuck⟩
  · left
    rw [hpos] at hr
    rw [fileReadWrite_of_locate hone h.dev hr]
    -- The byte is behind the end of the file, and the block is not left.
    obtain ⟨t, s₁, hbyte, hi⟩ : ∃ t s₁, transferByte flatStore F.dev true (.start fs' F.dev 0 spot)
        { s with fs := fs', inode := { s.inode with next := c'.mapAt 0 } } = (some t, s₁) ∧
        t.i = 1 := by
      have hpast : s.inode.size ≤ (0 : UInt32).toUInt64 := by
        rw [hsize]
        decide
      refine ⟨⟨spot, 1, Function.update (fs'.store F.dev spot.start) 0 0, 1, false⟩,
        ⟨fs', { s.inode with next := c'.mapAt 0 }, Function.update s.data 0 0⟩, ?_, rfl⟩
      have hcopy := copyByte_past (t := .start fs' F.dev 0 spot)
        (s := { s with fs := fs', inode := { s.inode with next := c'.mapAt 0 } }) hpast
      rw [transferByte, Attempt.bind_of_some hcopy]
      rfl
    obtain ⟨s', hend, -⟩ := endTransfer_data 0 t s₁ F.dev
    refine ⟨s', ?_⟩
    have hlen : (1 : UInt64).toNat = 0 + 1 := rfl
    rw [hlen, Attempt.iterate_succ]
    have hrun : (transferByte flatStore F.dev true (.start fs' F.dev 0 spot) >>=
        Attempt.iterate (transferByte flatStore F.dev true) 0)
        { s with fs := fs', inode := { s.inode with next := c'.mapAt 0 } } = (some t, s₁) := by
      rw [Attempt.bind_of_some hbyte]
      rfl
    rw [Attempt.bind_of_some hrun, hend, hi]
    rfl
  · right
    rw [hpos] at hr
    exact ⟨s', fileReadWrite_of_fail hone h.dev hr, hstuck⟩

/-- One byte read from an empty file breaks the law, if there is a data block for it. -/
theorem kread_empty (h : Open F fd t c s f) (hsize : f.size = 0) (hexact : F.exact)
    (hroom : F.others.card + 1 < 512 * F.g.mapLen .bmap) (now : BlockNo) (buf : Buffer) :
    ∃ buf' s', kread flatStore now fd buf 1 s = ((1, buf'), s') ∧
      ¬ (FileOp.read now buf 1).Law fd f s' (.read 1 buf') := by
  have hfile := h.file.accessed now
  have hszero : (s.proc.fileTab t).size = 0 := UInt64.toNat_inj.mp (h.size.trans hsize)
  have hpzero : (s.proc.fileTab t).pos = 0 := by
    have hle : (s.proc.fileTab t).pos.toNat ≤ (s.proc.fileTab t).size.toNat := h.file.le
    rw [hszero] at hle
    exact UInt64.toNat_inj.mp (Nat.le_zero.mp hle)
  have hreads : ∃ buf' s', kread flatStore now fd buf 1 s = ((1, buf'), s') := by
    simp only [kread, h.desc]
    rw [transferCall_inside hfile.le]
    rcases fileReadWrite_empty (s := ⟨s.fs, { s.proc.fileTab t with accessedTime := now }, buf⟩)
      hfile hszero hpzero with ⟨io, hr⟩ | ⟨io, -, hstuck⟩
    · have hr' : fileReadWrite flatStore (s.proc.fileTab t).pos (1 : UInt32).toUInt64 true
          ⟨s.fs, { s.proc.fileTab t with accessedTime := now }, buf⟩ = (some 1, io) := by
        rw [hpzero]
        exact hr
      rw [Attempt.bind_of_some hr']
      exact ⟨_, _, rfl⟩
    · have hfull := hstuck.2 hexact
      omega
  obtain ⟨buf', s', hr⟩ := hreads
  have hone : (1 : UInt32).toNat = 1 := rfl
  exact ⟨buf', s', hr, kread_grows h hr (by decide) (by rw [hone]; omega)⟩

end Outside

/-! ## A new volume -/

section Example

theorem inode_4100 : (volumeShape (5242880 / 512)).InRegion .imap 4100 := by decide

/-- The setting of a file whose inode is the first of a new volume. -/
def firstSetting : Setting := newSetting 5242880 4100 inode_4100 (mountedVolume 5242880)

/-- A process with a new file as descriptor 0. -/
def firstFile : Sys Disk := newFile 4100 (mountedVolume 5242880)

theorem firstFile_open : Open firstSetting 0 0 .empty firstFile .empty :=
  newFile_open inode_4100 (mountedVolume_fresh rfl)

theorem firstSetting_room {k : ℕ} (hk : k < 1024) :
    firstSetting.others.card + k < 512 * firstSetting.g.mapLen .bmap := by
  have hlen : firstSetting.g.mapLen .bmap = 2 := bmap_10240.1
  have hcard : firstSetting.others.card = 0 := rfl
  omega

/-- Reading one byte of an empty file returns 1, and then the file has a byte. -/
theorem read_of_empty :
    FileIs firstFile 0 .empty ∧
      ∃ buf' s', kread flatStore 0 0 (fun _ => 7) 1 firstFile = ((1, buf'), s') ∧
        ¬ (FileOp.read 0 (fun _ => 7) 1).Law 0 .empty s' (.read 1 buf') :=
  ⟨firstFile_open.openAt.fileIs,
    kread_empty firstFile_open rfl trivial (firstSetting_room (by omega)) 0 _⟩

/-- Write a byte, go back and read it. -/
def writeReadOne : List FileOp :=
  [.write 0 (fun _ => 7) 1, .seek 0 .set, .read 0 (fun _ => 0) 1]

theorem writeReadOne_safe : (fileMachine 0).Admits (FileOp.Safe 0) writeReadOne firstFile := by
  have hroom : ∀ n, n < 1000 → firstSetting.others.card + (chainLen n + 1) <
      512 * firstSetting.g.mapLen .bmap := by
    intro n hn
    refine firstSetting_room ?_
    simp only [chainLen]
    omega
  refine firstFile_open.openAt.admits_cons trivial le_rfl (fun _ => rfl) (hroom _ (by decide))
    fun c₁ s₁ h₁ => ?_
  refine h₁.admits_cons trivial trivial (by decide) (hroom _ (by decide)) fun c₂ s₂ h₂ => ?_
  exact h₂.admits_cons trivial (Nat.le_refl 1) (fun _ => rfl) (hroom _ (by decide))
    fun _ _ _ => trivial

theorem reads_keep_file_writeReadOne :
    (fileMachine 0).Admits (FileOp.Safe 0) writeReadOne firstFile ∧
      ∀ pre op post, writeReadOne = pre ++ op :: post →
        FileIs ((fileMachine 0).exec pre firstFile) 0 (ByteFile.empty.run pre) ∧
          op.Law 0 (ByteFile.empty.run pre) (op.exec 0 ((fileMachine 0).exec pre firstFile)).2
            (op.exec 0 ((fileMachine 0).exec pre firstFile)).1 :=
  ⟨writeReadOne_safe, reads_keep_file firstFile_open.openAt writeReadOne_safe⟩

end Example

end OxKernel.Fs
