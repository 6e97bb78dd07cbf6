import Mathlib.Algebra.BigOperators.Group.Finset.Basic
import OxKernel.Fs.FileRuns
import OxKernel.Lib.Family

/-!
# Open files as byte arrays

A process with any number of open files calls `kread`, `kwrite` and `klseek` on them in any
order. Each file is a byte array with a cursor of its own, and the calls return what those of
the byte arrays return. The blocks of the files are disjoint, so that no call on one file can
be seen through another one.

What a run must keep to is said of the byte arrays: a read stays inside its file, a write starts
inside it, the files have room on the volume, and a transfer does not start where a seek has
led to a multiple of 127 blocks other than 0.

## Main definitions

* `SoughtFile`, `arrayMachine` — a byte array with a cursor, and the calls on it.
* `Surroundings`, `FilesOpen` — the files that a process has open on one volume.
* `Surroundings.Fits` — what a call must keep to.
-/
namespace OxKernel.Fs

open Lib (Machine)

/-! ## Byte arrays -/

/-- A byte array whose cursor may be where a seek has put it. -/
structure SoughtFile extends ByteFile where
  sought : Bool

/-- What the calls return. -/
def FileOp.reply (f : ByteFile) : FileOp → FileReply
  | .read _ buf count => .read count.toInt32 (fetched f.bytes f.pos count.toNat buf)
  | .write _ _ count => .write count.toInt32
  | .seek offset whence =>
    .seek (if whence = .other then offMinusOne else UInt32.ofNat (f.sought offset whence))

/-- Whether the cursor is where a seek has put it. A transfer of bytes moves it on. -/
def FileOp.seeks (before : Bool) : FileOp → Bool
  | .seek _ whence => if whence = .other then before else true
  | .read _ _ count => if count = 0 then before else false
  | .write _ _ count => if count = 0 then before else false

/-- The calls on a byte array. -/
def arrayMachine : Machine SoughtFile FileOp FileReply where
  step op f := (op.reply f.toByteFile, ⟨f.toByteFile.step op, op.seeks f.sought⟩)

theorem toInt_toInt32 {count : UInt32} (h : count.toNat < 2147483648) :
    count.toInt32.toInt = count.toNat := by
  have hint : count.toInt32.toInt = count.toBitVec.toInt := rfl
  rw [hint, BitVec.toInt_eq_toNat_of_lt]
  · rfl
  · show 2 * count.toNat < 2 ^ 32
    omega

/-- A result that is the count is the count as an `ssize_t`. -/
theorem eq_toInt32 {r : Int32} {count : UInt32} (h : r.toInt = count.toNat) :
    r = count.toInt32 := by
  have hlt : r.toInt < 2 ^ 31 := Int32.toInt_lt r
  apply Int32.toInt_inj.mp
  rw [h, toInt_toInt32 (by omega)]

theorem FileOp.Answers.reply_eq {f : ByteFile} {op : FileOp} {r : FileReply}
    (h : op.Answers f r) : r = op.reply f := by
  cases op with
  | read now buf count =>
      cases r with
      | read r buf' =>
          obtain ⟨hr, rfl⟩ := h
          rw [FileOp.reply, eq_toInt32 hr]
      | write r => cases h
      | seek r => cases h
  | write now buf count =>
      cases r with
      | read r buf' => cases h
      | write r =>
          have hr : r.toInt = count.toNat := h
          rw [FileOp.reply, eq_toInt32 hr]
      | seek r => cases h
  | seek offset whence =>
      cases r with
      | read r buf' => cases h
      | write r => cases h
      | seek r =>
          have hr : r = if whence = .other then offMinusOne
            else UInt32.ofNat (f.sought offset whence) := h
          rw [FileOp.reply, hr]

/-! ## One open file -/

section Calls
variable {F : Setting} {fd : Int32} {t : Fin maxFiles} {c : Chain} {s : Sys Disk} {f : ByteFile}
  {op : FileOp}

theorem setInode_self (p : Proc) (t : Fin maxFiles) : p.setInode t (p.fileTab t) = p := by
  rw [Proc.setInode, Function.update_eq_self]

/-- A call changes one inode of the process. -/
theorem FileOp.exec_proc (h : s.proc.descriptor fd = some t) (op : FileOp) :
    (op.exec fd s).2.proc = s.proc.setInode t ((op.exec fd s).2.proc.fileTab t) := by
  have hset : ∀ n, s.proc.setInode t n =
      s.proc.setInode t ((s.proc.setInode t n).fileTab t) := by
    intro n
    rw [setInode_fileTab]
  cases op with
  | read now buf count =>
      simp only [FileOp.exec, kread, h]
      exact hset _
  | write now buf count =>
      simp only [FileOp.exec, kwrite, h]
      exact hset _
  | seek offset whence =>
      simp only [FileOp.exec, klseek, h]
      cases (s.proc.fileTab t).seek offset whence with
      | none => exact (setInode_self ..).symm
      | some pos => exact hset _

/-- The next transfer can find its start, unless a seek is in the way. -/
def Ready (s : Sys Disk) (t : Fin maxFiles) (sought : Bool) : Prop :=
  sought = false → ¬ (s.proc.fileTab t).ScansShort

theorem ready_of_cursor {s : Sys Disk} {t : Fin maxFiles} {sought : Bool}
    (h : (s.proc.fileTab t).iblock ≠ iblockNopos) : Ready s t sought :=
  fun _ hshort => h hshort.1

/-- A transfer of nothing leaves the cursor as it is. -/
theorem Ready.put {n : Inode} {sought : Bool} (h : Ready s t sought) (io : FileIo Disk)
    (hio : io.inode = n) (hpos : n.pos = (s.proc.fileTab t).pos)
    (hblock : n.iblock = (s.proc.fileTab t).iblock) : Ready (s.put t io) t sought := by
  intro hs hshort
  refine h hs ?_
  rw [Sys.put, setInode_fileTab, hio, Inode.ScansShort, hpos, hblock] at hshort
  exact hshort

/-- **A call leaves the cursor ready**, unless it is a seek. -/
theorem OpenAt.ready (h : OpenAt F fd t c s f) (hop : op.Inside f) (halloc : op.Allocates fd s)
    (hwhole : op.Whole fd s) {sought : Bool} (hs : Ready s t sought) :
    Ready (op.exec fd s).2 t (op.seeks sought) := by
  cases op with
  | read now buf count =>
      have hopen := h.inside ((Nat.le_add_right _ _).trans hop)
      by_cases h0 : count = 0
      · have hle := (hopen.file.accessed now).le
        simp only [FileOp.seeks, FileOp.exec, kread, h.desc, h0]
        rw [transferCall_zero (s := ⟨s.fs, { s.proc.fileTab t with accessedTime := now }, buf⟩) hle]
        exact hs.put _ rfl rfl rfl
      · have hcount : 0 < count.toNat := Nat.pos_of_ne_zero fun he => h0 (UInt32.toNat_inj.mp he)
        rcases kread_open hopen (hwhole hcount t h.desc) now buf hcount hop with
          ⟨r, s', c', hr, -, -, -, hcursor⟩ | ⟨buf', s', hr, hstuck⟩
        · simp only [FileOp.exec, hr]
          exact ready_of_cursor hcursor
        · simp only [FileOp.Allocates, FileOp.exec, hr] at halloc
          have hroom := halloc rfl t h.desc
          rw [hopen.file.dev] at hroom
          exact absurd hroom hstuck.1
  | write now buf count =>
      have hopen := h.inside hop
      by_cases h0 : count = 0
      · have hle := (hopen.file.modified now).le
        simp only [FileOp.seeks, FileOp.exec, kwrite, h.desc, h0]
        rw [transferCall_zero (s := ⟨s.fs, { s.proc.fileTab t with modifiedTime := now }, buf⟩) hle]
        exact hs.put _ rfl rfl rfl
      · have hcount : 0 < count.toNat := Nat.pos_of_ne_zero fun he => h0 (UInt32.toNat_inj.mp he)
        rcases kwrite_open hopen (hwhole hcount t h.desc) now buf hcount with
          ⟨r, s', c', hr, -, -, -, hcursor⟩ | ⟨s', hr, hstuck⟩
        · simp only [FileOp.exec, hr]
          exact ready_of_cursor hcursor
        · simp only [FileOp.Allocates, FileOp.exec, hr] at halloc
          have hroom := halloc rfl t h.desc
          rw [hopen.file.dev] at hroom
          exact absurd hroom hstuck.1
  | seek offset whence =>
      by_cases hother : whence = .other
      · subst hother
        have hnone : (s.proc.fileTab t).seek offset .other = none := rfl
        simp only [FileOp.exec, klseek_other h.desc hnone]
        exact hs
      · rw [FileOp.seeks, if_neg hother]
        intro hfalse
        cases hfalse

/-- A file keeps its bytes where the contents of its data blocks are kept. -/
theorem FileOk.move {F' : Setting} {fs fs' : FsState Disk} {n : Inode} {bytes : ℕ → UInt8}
    (h : FileOk F fs n c bytes) (hok : ChainOk F' fs' c) (hself : F'.self = F.self)
    (hdev : F'.dev = F.dev)
    (hkeep : ∀ b ∈ c.all, fs'.store F'.dev b = fs.store F.dev b) : FileOk F' fs' n c bytes := by
  refine ⟨h.self.trans hself.symm, h.dev.trans hdev.symm, hok, h.head, h.fits, ?_, h.le, h.cursor⟩
  rcases h.fits with ⟨-, h0⟩ | hfit
  · intro p hp
    have hzero : p < (0 : UInt64).toNat := h0 ▸ hp
    exact absurd hzero (Nat.not_lt_zero p)
  · intro p hp
    have hq : p / 512 < c.blocks.length := by
      rw [hfit.1]
      omega
    rw [hkeep _ (List.mem_append_right _ (Chain.blockAt_mem hq))]
    exact h.holds p hp

/-- A file has no more blocks than its size asks for. -/
theorem OpenAt.length_le (h : OpenAt F fd t c s f) : c.all.length ≤ chainLen f.size := by
  rcases h.file.fits with ⟨rfl, -⟩ | hfit
  · exact Nat.zero_le _
  · rw [hfit.all_length]
    exact (congrArg chainLen h.size).le

end Calls

/-! ## Several open files -/

/-- The surroundings of open files: the volume, the descriptor, the entry of `file_tab` and the
inode block of each file, and the data blocks that are allocated to others. -/
structure Surroundings (I : Type) where
  g : Shape
  dev : DevNo
  row : Fin inodeNrDev
  fd : I → Int32
  tab : I → Fin maxFiles
  self : I → BlockNo
  others : Finset BlockNo
  apart : g.DataApart
  small : 512 * g.mapLen .bmap ≤ 4194303
  selfData : ∀ i, ¬ g.Covers .bmap (self i)
  selfMap : ∀ i k, ¬ g.InMap k (self i)
  selfMaster : ∀ i, self i ≠ g.blockStart
  tabs : Function.Injective tab

namespace Surroundings
variable {I : Type} [Fintype I] [DecidableEq I] (V : Surroundings I) (c : I → Chain)

/-- The data blocks that are not those of one file. -/
def taken (i : I) : Finset BlockNo :=
  V.others ∪ (Finset.univ.erase i).biUnion fun j => (c j).all.toFinset

/-- All data blocks. -/
def total : Finset BlockNo := V.others ∪ Finset.univ.biUnion fun j => (c j).all.toFinset

/-- The surroundings of one of the files, from a state on. -/
def setting (d : BlockNo → Sector) (i : I) : Setting where
  g := V.g
  dev := V.dev
  row := V.row
  self := V.self i
  others := V.taken c i
  exact := True
  base := d
  apart := V.apart
  small := V.small
  selfData := V.selfData i
  selfMap := V.selfMap i
  selfMaster := V.selfMaster i

variable {V c} {i j : I} {b : BlockNo}

theorem mem_taken : b ∈ V.taken c i ↔ b ∈ V.others ∨ ∃ j, j ≠ i ∧ b ∈ (c j).all := by
  simp only [taken, Finset.mem_union, Finset.mem_biUnion, Finset.mem_erase, Finset.mem_univ,
    and_true, List.mem_toFinset]

theorem taken_union (i : I) : V.taken c i ∪ (c i).all.toFinset = V.total c := by
  rw [taken, total, Finset.union_assoc, ← Finset.insert_erase (Finset.mem_univ i),
    Finset.biUnion_insert, Finset.erase_insert_eq_erase, Finset.erase_idem]
  rw [Finset.union_comm ((c i).all.toFinset)]

theorem taken_update (i : I) (x : Chain) : V.taken (Function.update c i x) i = V.taken c i := by
  ext b
  rw [mem_taken, mem_taken]
  refine or_congr_right (exists_congr fun j => and_congr_right fun hj => ?_)
  rw [Function.update_of_ne hj]

/-- A chain is in order when all data blocks are the files' own or others', and it is on disk. -/
theorem chainOk {fs : FsState Disk} (howns : Owns V.g V.dev V.row fs (V.total c))
    (htight : Tight V.g V.dev V.row fs (V.total c)) (hnodup : (c i).all.Nodup)
    (hnew : ∀ b ∈ (c i).all, b ∉ V.taken c i)
    (hdisk : ∀ j, j < (c i).maps.length →
      fs.store V.dev ((c i).mapAt j) = BlockMap.layout ((c i).image j)) :
    ChainOk (V.setting c (fs.store V.dev) i) fs (c i) where
  owns := by
    show Owns V.g V.dev V.row fs (V.taken c i ∪ (c i).all.toFinset)
    rw [taken_union]
    exact howns
  nodup := hnodup
  new := hnew
  disk := hdisk
  frame _ _ := rfl
  tight _ := by
    show Tight V.g V.dev V.row fs (V.taken c i ∪ (c i).all.toFinset)
    rw [taken_union]
    exact htight

/-- The volume has room for the files. -/
def Room (V : Surroundings I) (f : I → SoughtFile) : Prop :=
  V.others.card + ∑ i, chainLen (f i).size + 1 < 512 * V.g.mapLen .bmap

/-- What a call must keep to. -/
structure Fits (V : Surroundings I) (f : I → SoughtFile) (call : I × FileOp) : Prop where
  inside : call.2.Inside (f call.1).toByteFile
  start : (f call.1).sought = true → 0 < call.2.count → (f call.1).pos % 65024 = 0 →
    (f call.1).pos = 0
  room : V.Room (arrayMachine.family.step call f).2

end Surroundings

section Runs
variable {I : Type} [Fintype I] [DecidableEq I] {V : Surroundings I} {c : I → Chain}
  {s : Sys Disk} {f : I → SoughtFile} {i : I} {op : FileOp}

/-- Every descriptor is open on its byte array. -/
structure FilesOpen (V : Surroundings I) (c : I → Chain) (s : Sys Disk) (f : I → SoughtFile) :
    Prop where
  openAt : ∀ i, OpenAt (V.setting c (s.fs.store V.dev) i) (V.fd i) (V.tab i) (c i) s
    (f i).toByteFile
  ready : ∀ i, Ready s (V.tab i) (f i).sought

/-- The calls of a process on its open files. -/
def filesMachine (fd : I → Int32) : Machine (Sys Disk) (I × FileOp) FileReply where
  step call s := call.2.exec (fd call.1) s

theorem FilesOpen.card_taken_le (h : FilesOpen V c s f) (i : I) :
    (V.taken c i).card ≤ V.others.card + ∑ j ∈ Finset.univ.erase i, chainLen (f j).size := by
  refine (Finset.card_union_le _ _).trans (Nat.add_le_add_left ?_ _)
  refine Finset.card_biUnion_le.trans (Finset.sum_le_sum fun j _ => ?_)
  exact (List.toFinset_card_le _).trans (h.openAt j).length_le

/-- A call that keeps to the rules finds its start. -/
theorem FilesOpen.whole (h : FilesOpen V c s f) (hfits : V.Fits f (i, op)) :
    op.Whole (V.fd i) s := by
  intro hcount t ht hshort
  rw [(h.openAt i).desc] at ht
  cases ht
  cases hsought : (f i).sought with
  | false => exact h.ready i hsought hshort
  | true =>
      have hpos : (s.proc.fileTab (V.tab i)).pos.toNat = (f i).pos := (h.openAt i).pos
      refine hshort.2.1 (UInt64.toNat_inj.mp ?_)
      rw [hpos]
      exact hfits.start hsought hcount (hpos ▸ hshort.2.2)

/-- The files other than one need the room that is not its own. -/
theorem sum_update (f : I → SoughtFile) (i : I) (x : SoughtFile) :
    ∑ j, chainLen (Function.update f i x j).size =
      chainLen x.size + ∑ j ∈ Finset.univ.erase i, chainLen (f j).size := by
  rw [← Finset.add_sum_erase _ _ (Finset.mem_univ i), Function.update_self]
  congr 1
  refine Finset.sum_congr rfl fun j hj => ?_
  rw [Function.update_of_ne (Finset.ne_of_mem_erase hj)]

/-- A call that keeps to the rules finds data blocks. -/
theorem FilesOpen.allocates (h : FilesOpen V c s f) (hfits : V.Fits f (i, op)) :
    op.Allocates (V.fd i) s := by
  have hroom : V.others.card + ∑ j, chainLen (Function.update f i (arrayMachine.step op (f i)).2 j).size
      + 1 < 512 * V.g.mapLen .bmap := hfits.room
  have hle := h.card_taken_le i
  rw [sum_update] at hroom
  cases op with
  | seek offset whence => exact fun hfail => hfail.elim
  | read now buf count =>
      refine (h.openAt i).allocates hfits.inside (h.whole hfits) trivial ?_
      have hsize : (arrayMachine.step (.read now buf count) (f i)).2.size = (f i).size := rfl
      have hin : (f i).pos + count.toNat ≤ (f i).size := hfits.inside
      rw [hsize] at hroom
      show (V.taken c i).card + (chainLen (max (f i).size ((f i).pos + count.toNat)) + 1) <
        512 * V.g.mapLen .bmap
      rw [Nat.max_eq_left hin]
      omega
  | write now buf count =>
      refine (h.openAt i).allocates hfits.inside (h.whole hfits) trivial ?_
      have hsize : (arrayMachine.step (.write now buf count) (f i)).2.size =
          max (f i).size ((f i).pos + count.toNat) := rfl
      rw [hsize] at hroom
      show (V.taken c i).card + (chainLen (max (f i).size ((f i).pos + count.toNat)) + 1) <
        512 * V.g.mapLen .bmap
      omega

/-- A call on one file leaves the blocks of another one alone. -/
theorem FilesOpen.keeps (h : FilesOpen V c s f) {j : I} (hj : j ≠ i) {x : Chain} {s' : Sys Disk}
    {g : ByteFile} (hnew : OpenAt (V.setting c (s.fs.store V.dev) i) (V.fd i) (V.tab i) x s' g)
    {b : BlockNo} (hb : b ∈ (c j).all) : s'.fs.store V.dev b = s.fs.store V.dev b := by
  have hcov : V.g.Covers .bmap b := (h.openAt j).file.ok.covers hb
  refine hnew.file.ok.frame b ⟨?_, ?_, ?_, fun _ => Surroundings.mem_taken.mpr (Or.inr ⟨j, hj, hb⟩)⟩
  · exact (V.setting c (s.fs.store V.dev) i).ne_self hcov
  · exact (V.setting c (s.fs.store V.dev) i).ne_master hcov
  · exact (V.setting c (s.fs.store V.dev) i).not_inMap hcov .bmap

/-- **One call** on one of the files does what its byte array does, and the others are kept. -/
theorem FilesOpen.step (h : FilesOpen V c s f) (hfits : V.Fits f (i, op)) :
    ((filesMachine V.fd).step (i, op) s).1 = (arrayMachine.family.step (i, op) f).1 ∧
      ∃ c', FilesOpen V c' ((filesMachine V.fd).step (i, op) s).2
        (arrayMachine.family.step (i, op) f).2 := by
  have halloc := h.allocates hfits
  have hwhole := h.whole hfits
  obtain ⟨hans, x, hnew⟩ := (h.openAt i).step hfits.inside halloc hwhole
  have hready := (h.openAt i).ready hfits.inside halloc hwhole (h.ready i)
  have hproc := FileOp.exec_proc (h.openAt i).desc op
  show (op.exec (V.fd i) s).1 = op.reply (f i).toByteFile ∧ ∃ c', FilesOpen V c'
    (op.exec (V.fd i) s).2 (Function.update f i (arrayMachine.step op (f i)).2)
  generalize hs' : (op.exec (V.fd i) s).2 = s' at hnew hready hproc ⊢
  refine ⟨hans.reply_eq, Function.update c i x, ?_⟩
  have hok := hnew.file.ok
  have howns : Owns V.g V.dev V.row s'.fs (V.taken c i ∪ x.all.toFinset) := hok.owns
  have htight : Tight V.g V.dev V.row s'.fs (V.taken c i ∪ x.all.toFinset) := hok.tight trivial
  have htotal : V.total (Function.update c i x) = V.taken c i ∪ x.all.toFinset := by
    rw [← Surroundings.taken_union i, Surroundings.taken_update, Function.update_self]
  have htab : ∀ j, j ≠ i → s'.proc.fileTab (V.tab j) = s.proc.fileTab (V.tab j) := by
    intro j hj
    rw [hproc]
    exact Function.update_of_ne (V.tabs.ne hj) ..
  rw [← htotal] at howns htight
  constructor
  · intro j
    by_cases hj : j = i
    · subst hj
      have hself : Function.update c j x j = x := Function.update_self ..
      have hfile : Function.update f j (arrayMachine.step op (f j)).2 j =
          (arrayMachine.step op (f j)).2 := Function.update_self ..
      have hchain : ChainOk (V.setting (Function.update c j x) (s'.fs.store V.dev) j) s'.fs x := by
        have hchain := Surroundings.chainOk (i := j) howns htight (by rw [hself]; exact hok.nodup)
          (by rw [hself, Surroundings.taken_update]; exact hok.new)
          (by rw [hself]; exact hok.disk)
        rwa [hself] at hchain
      rw [hself, hfile]
      exact ⟨hnew.desc, hnew.file.move hchain rfl rfl fun _ _ => rfl, hnew.size, hnew.pos,
        hnew.cursor⟩
    · have hopen := h.openAt j
      have hself : Function.update c i x j = c j := Function.update_of_ne hj ..
      have hfile : Function.update f i (arrayMachine.step op (f i)).2 j = f j :=
        Function.update_of_ne hj ..
      have hchain : ChainOk (V.setting (Function.update c i x) (s'.fs.store V.dev) j) s'.fs
          (c j) := by
        have hchain := Surroundings.chainOk (i := j) howns htight
          (by rw [hself]; exact hopen.file.ok.nodup) ?_ ?_
        · rwa [hself] at hchain
        · -- No block of the file is one that the other file has gained.
          rw [hself]
          intro b hb hmem
          rcases Surroundings.mem_taken.mp hmem with hothers | ⟨k, hk, hbk⟩
          · exact hopen.file.ok.new b hb (Surroundings.mem_taken.mpr (Or.inl hothers))
          · by_cases hki : k = i
            · subst hki
              rw [Function.update_self] at hbk
              exact hok.new b hbk (Surroundings.mem_taken.mpr (Or.inr ⟨j, hj, hb⟩))
            · rw [Function.update_of_ne hki] at hbk
              exact hopen.file.ok.new b hb (Surroundings.mem_taken.mpr (Or.inr ⟨k, hk, hbk⟩))
        · rw [hself]
          intro m hm
          rw [h.keeps hj hnew (List.mem_append_left _ (Chain.mapAt_mem hm))]
          exact hopen.file.ok.disk m hm
      rw [hself, hfile]
      have hmove := hopen.file.move hchain rfl rfl fun b hb => h.keeps hj hnew hb
      refine ⟨?_, ?_, ?_, ?_, ?_⟩
      · rw [hproc]
        exact hopen.desc
      · rw [htab j hj]
        exact hmove
      · rw [htab j hj]
        exact hopen.size
      · rw [htab j hj]
        exact hopen.pos
      · rw [htab j hj]
        exact hopen.cursor
  · intro j
    by_cases hj : j = i
    · subst hj
      rw [Function.update_self]
      exact hready
    · rw [Function.update_of_ne hj]
      intro hsought
      rw [htab j hj]
      exact h.ready j hsought

/-- A run of calls that keep to the rules. -/
theorem FilesOpen.run (h : FilesOpen V c s f) {calls : List (I × FileOp)}
    (hcalls : arrayMachine.family.Admits V.Fits calls f) :
    (filesMachine V.fd).trace calls s = arrayMachine.family.trace calls f ∧
      ∃ c', FilesOpen V c' ((filesMachine V.fd).exec calls s) (arrayMachine.family.exec calls f) := by
  refine Machine.trace_refines (R := fun s f => ∃ c, FilesOpen V c s f) ?_ calls ⟨c, h⟩ hcalls
  rintro s f call ⟨c, hR⟩ hfits
  exact hR.step hfits

/-- **Open files are byte arrays.** In every run of reads, writes and seeks on any number of open
files that keeps to the rules, the calls return what those of the byte arrays return, and behind
every descriptor there is at the end what its own calls have made of its byte array. -/
theorem files_are_arrays (h : FilesOpen V c s f) {calls : List (I × FileOp)}
    (hcalls : arrayMachine.family.Admits V.Fits calls f) :
    (filesMachine V.fd).trace calls s = arrayMachine.family.trace calls f ∧
      ∀ i, FileIs ((filesMachine V.fd).exec calls s) (V.fd i)
        (arrayMachine.exec (Machine.own i calls) (f i)).toByteFile := by
  obtain ⟨htrace, c', hopen⟩ := h.run hcalls
  refine ⟨htrace, fun i => ?_⟩
  rw [← Machine.family_exec]
  exact (hopen.openAt i).fileIs

end Runs

/-! ## Two files of a new volume -/

theorem inode_two (i : Bool) :
    (volumeShape (5242880 / 512)).InRegion .imap (cond i 4101 4100) := by
  cases i <;> decide

/-- The surroundings of the first two files of a new volume. -/
def twoSurroundings : Surroundings Bool where
  g := volumeShape (5242880 / 512)
  dev := 0
  row := firstSetting.row
  fd i := cond i 1 0
  tab i := cond i 1 0
  self i := cond i 4101 4100
  others := ∅
  apart := volumeShape_dataApart 5242880
  small := volumeShape_small 5242880
  selfData i hb := (data_above 5242880 hb).2.2.1 (inode_two i)
  selfMap i := (volumeShape_apart (volumeSize_lt 5242880) (inode_two i)).2
  selfMaster i := inode_ne_master (inode_two i)
  tabs i j h := by
    cases i <;> cases j
    · rfl
    · exact absurd h (by decide)
    · exact absurd h (by decide)
    · rfl

/-- A process with two new files as its first descriptors. -/
def twoFiles : Sys Disk :=
  { Sys.start (mountedVolume 5242880) with
    proc := { Proc.zero with
      fileTab := fun t => { Inode.zero with self := if t = 0 then 4100 else 4101 }
      fileDesc := fun i => if i = 0 then some 0 else if i = 1 then some 1 else none } }

/-- New files are empty byte arrays. -/
def emptyFiles : Bool → SoughtFile := fun _ => ⟨.empty, false⟩

theorem twoFiles_open : FilesOpen twoSurroundings (fun _ => .empty) twoFiles emptyFiles := by
  have hfresh : Fresh twoSurroundings.g 0 twoFiles.fs := mountedVolume_fresh rfl
  have htotal : twoSurroundings.total (fun _ => Chain.empty) = ∅ := rfl
  have howns : Owns twoSurroundings.g 0 0 twoFiles.fs ∅ := by
    refine HeldOk.nothing_held hfresh.ok fun k => ?_
    cases k <;> rfl
  have htight : Tight twoSurroundings.g 0 0 twoFiles.fs ∅ :=
    ⟨fun k => Or.inl (hfresh.mounted.loaded k),
      fun b hb hrec => (hfresh.recordsHeld.record .bmap b hb).mp hrec⟩
  rw [← htotal] at howns htight
  have hchain : ∀ i, ChainOk (twoSurroundings.setting (fun _ => .empty)
      (twoFiles.fs.store 0) i) twoFiles.fs .empty := fun i =>
    Surroundings.chainOk (c := fun _ => .empty) howns htight List.nodup_nil
      (fun b hb => absurd hb List.not_mem_nil) fun j hj => absurd hj (Nat.not_lt_zero j)
  refine ⟨fun i => ⟨?_, ?_, rfl, rfl, ?_⟩, fun i _ hshort => hshort.2.1 rfl⟩
  · cases i <;> rfl
  · refine ⟨?_, rfl, hchain i, rfl, Or.inl ⟨rfl, rfl⟩, fun p hp => absurd hp (Nat.not_lt_zero p),
      Nat.zero_le _, Or.inr (Or.inl ⟨rfl, rfl⟩)⟩
    cases i <;> rfl
  · exact Or.inl ⟨Nat.zero_le _, Or.inr (Or.inl ⟨rfl, rfl⟩)⟩

/-- Small files have room. -/
theorem twoSurroundings_room {f : Bool → SoughtFile} (h : ∀ i, (f i).size < 512) :
    twoSurroundings.Room f := by
  have hlen : ∀ i, chainLen (f i).size = 2 := by
    intro i
    rw [chainLen, Nat.div_eq_of_lt (h i)]
  have hmap : twoSurroundings.g.mapLen .bmap = 2 := bmap_10240.1
  rw [Surroundings.Room, Fintype.sum_bool, hlen, hlen, hmap]
  decide

/-- Both files are written, and the first one is read. -/
def twoCalls : List (Bool × FileOp) :=
  [(false, .write 0 (fun _ => 7) 1), (true, .write 0 (fun _ => 9) 2), (false, .seek 0 .set),
    (false, .read 0 (fun _ => 0) 1)]

theorem twoCalls_fit : arrayMachine.family.Admits twoSurroundings.Fits twoCalls emptyFiles := by
  refine ⟨⟨le_rfl, fun h => absurd h (by decide), twoSurroundings_room fun i => ?_⟩,
    ⟨le_rfl, fun h => absurd h (by decide), twoSurroundings_room fun i => ?_⟩,
    ⟨trivial, fun _ h => absurd h (by decide), twoSurroundings_room fun i => ?_⟩,
    ⟨Nat.le_refl 1, fun _ _ _ => rfl, twoSurroundings_room fun i => ?_⟩, trivial⟩
  all_goals cases i <;> decide

/-- The first file returns what was written to it, and not what was written to the second. -/
theorem files_are_arrays_two :
    (filesMachine twoSurroundings.fd).trace twoCalls twoFiles =
        arrayMachine.family.trace twoCalls emptyFiles ∧
      ∀ i, FileIs ((filesMachine twoSurroundings.fd).exec twoCalls twoFiles) (twoSurroundings.fd i)
        (arrayMachine.exec (Machine.own i twoCalls) (emptyFiles i)).toByteFile :=
  files_are_arrays twoFiles_open twoCalls_fit

end OxKernel.Fs
