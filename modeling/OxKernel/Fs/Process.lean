import OxKernel.Fs.Lookup

/-!
# Processes and the file system

The fields of a process that the file system calls use: the tables of open files and of
directory streams, the current directory and the identity. A pointer into one of the tables
is an index. The system is one process with the file system and the table that maps paths
to devices.

## Main definitions

* `Dirent`, `DirStream` — `struct dirent` and `DIR`.
* `Proc`, `Sys` — a process, and the system it runs in.
* `masterGetDev` — the device of a path.
-/
namespace OxKernel.Fs

/-- `MAX_FILES`. -/
abbrev maxFiles : ℕ := 1024

instance : NeZero maxFiles := ⟨by decide⟩

/-- `MAX_DIR`. -/
abbrev maxDir : ℕ := 1024

/-- `MAX_DEV`. -/
abbrev maxDev : ℕ := 256

/-- `struct dirent`. There is one byte of padding behind `d_name`. -/
structure Dirent where
  ino : UInt32
  off : UInt32
  reclen : UInt16
  type : UInt8
  name : Fin maxPath → UInt8

/-- The zeroed record. -/
def Dirent.zero : Dirent := ⟨0, 0, 0, 0, fun _ => 0⟩

/-- `DIR`, with the string in `__path`. -/
structure DirStream where
  fd : Int32
  data : Inode
  allocation : UInt32
  offset : UInt32
  blockPtr : UInt32
  block : BlockNo
  path : CStr
  entry : Dirent

/-- `static DIR zero_dir`. -/
def DirStream.zero : DirStream := ⟨0, Inode.zero, 0, 0, 0, 0, [], Dirent.zero⟩

/-- The entry of `dir_tab` that `__fd` names, if it names one. -/
def DirStream.index (d : DirStream) : Option (Fin maxDir) :=
  if h : 0 ≤ d.fd.toInt ∧ d.fd.toInt.toNat < maxDir then some ⟨d.fd.toInt.toNat, h.2⟩ else none

/-- Write bytes over the first ones of a stream, which are `__fd` and `__data`. -/
def DirStream.poke (d : DirStream) (bs : List UInt8) : DirStream :=
  { d with
    fd := Lib.Layout.i32.symm fun i => bs.getD i (Lib.Layout.i32 d.fd i)
    data := Inode.layout.symm fun i => bs.getD (4 + i) (Inode.layout d.data i) }

@[simp] theorem DirStream.poke_nil (d : DirStream) : d.poke [] = d := by
  simp [poke]

/-- The file system part of a process. A pointer to an inode is an index of `file_tab`. -/
structure Proc where
  fileTab : Fin maxFiles → Inode
  fileDesc : Fin maxFiles → Option (Fin maxFiles)
  /-- The word after `file_desc`, which the bounds check of a descriptor lets through. -/
  pastDesc : Option (Fin maxFiles)
  dirTab : Fin maxDir → DirStream
  cwd : BlockNo
  umask : UInt32
  owner : UInt32
  group : UInt32

/-- An entry of `master_dev_tab`; a path that is NULL counts as empty. -/
structure MasterDev where
  path : CStr
  dev : DevNo

/-- A process, the file system and the table of devices. -/
structure Sys (σ : Type) extends Names σ where
  proc : Proc
  masterDevTab : Fin maxDev → MasterDev

/-- `master_get_dev`, which looks at no path: the first device of the table. -/
def masterGetDev {σ : Type} (s : Sys σ) : DevNo :=
  match (List.finRange maxDev).find? fun i => (s.masterDevTab i).path ≠ [] with
  | some i => (s.masterDevTab i).dev
  | none => -1

namespace Proc

/-- The identity of a process. -/
def cred (p : Proc) : Cred := ⟨p.group, p.owner⟩

/-- The inode of a descriptor: `fd < 0 || fd > MAX_FILES` is NULL. -/
def descriptor (p : Proc) (fd : Int32) : Option (Fin maxFiles) :=
  if fd < 0 then none
  else if h : fd.toInt.toNat < maxFiles then p.fileDesc ⟨fd.toInt.toNat, h⟩
  else if fd.toInt.toNat = maxFiles then p.pastDesc else none

/-- `file_desc[fd] = q`. -/
def setDescriptor (p : Proc) (fd : Int32) (q : Option (Fin maxFiles)) : Proc :=
  if h : fd.toInt.toNat < maxFiles then
    { p with fileDesc := Function.update p.fileDesc ⟨fd.toInt.toNat, h⟩ q }
  else { p with pastDesc := q }

/-- Assign to an entry of `file_tab`. -/
def setInode (p : Proc) (t : Fin maxFiles) (n : Inode) : Proc :=
  { p with fileTab := Function.update p.fileTab t n }

/-- Assign to an entry of `dir_tab`. -/
def setDir (p : Proc) (i : Fin maxDir) (d : DirStream) : Proc :=
  { p with dirTab := Function.update p.dirTab i d }

@[simp] theorem setDir_self (p : Proc) (i : Fin maxDir) (d : DirStream) :
    (p.setDir i d).dirTab i = d := Function.update_self ..

theorem setDir_of_ne (p : Proc) {i j : Fin maxDir} (h : j ≠ i) (d : DirStream) :
    (p.setDir i d).dirTab j = p.dirTab j := Function.update_of_ne h ..

/-- Write bytes behind an entry of `dir_tab`. What is behind the table is not modelled. -/
def spill (p : Proc) (i : Fin maxDir) (bs : List UInt8) : Proc :=
  if h : (i : ℕ) + 1 < maxDir then p.setDir ⟨i + 1, h⟩ ((p.dirTab ⟨i + 1, h⟩).poke bs) else p

@[simp] theorem spill_nil (p : Proc) (i : Fin maxDir) : p.spill i [] = p := by
  rw [spill]
  split
  · rw [DirStream.poke_nil, setDir, Function.update_eq_self]
  · rfl

/-- Pair the first entry of `file_tab` with an empty path and the first free descriptor. -/
def allocDescriptor (p : Proc) : Option (Int32 × Fin maxFiles × Proc) :=
  match (List.finRange maxFiles).find? fun i => (p.fileTab i).path 0 = 0,
    (List.finRange maxFiles).find? fun fd => (p.fileDesc fd).isNone with
  | some i, some fd =>
    some (Int32.ofNat fd, i, { p with fileDesc := Function.update p.fileDesc fd (some i) })
  | _, _ => none

/-- A process without open files and streams. -/
def zero : Proc where
  fileTab := fun _ => Inode.zero
  fileDesc := fun _ => none
  pastDesc := none
  dirTab := fun _ => DirStream.zero
  cwd := 0
  umask := 0
  owner := 0
  group := 0

end Proc

/-- The system before the first call, with one device in the table. -/
def Sys.start {σ : Type} (fs : FsState σ) : Sys σ where
  fs := fs
  nrRecursion := 0
  proc := Proc.zero
  masterDevTab := fun i => if (i : ℕ) = 0 then ⟨[slash], 0⟩ else ⟨[], 0⟩

@[simp] theorem masterGetDev_start {σ : Type} (fs : FsState σ) : masterGetDev (Sys.start fs) = 0 :=
  rfl

/-- A path function called in the system. -/
def Sys.call {σ α : Type} (s : Sys σ) (x : NameM σ α) : Option (Except InodeRtvl α × Sys σ) :=
  (x s.toNames).map fun a => (a.1, { s with toNames := a.2 })

/-- A path function does not change the process. -/
theorem Sys.call_proc {σ α : Type} {s s' : Sys σ} {x : NameM σ α} {r : Except InodeRtvl α}
    (h : s.call x = some (r, s')) : s'.proc = s.proc := by
  obtain ⟨a, -, ha⟩ := Option.map_eq_some_iff.mp h
  cases ha
  rfl

end OxKernel.Fs
