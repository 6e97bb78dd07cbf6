import OxKernel.Fs.FileOpen
import Mathlib.Data.List.GetD

/-!
# Directory streams

`dir.c`. A stream keeps a copy of the inode of its directory, the number of the next slot
plus two, for `.` and `..`, and as a shortcut the number of a block map of the chain with
its block. `kreaddir` skips empty slots and goes back to the head of the chain whenever the
slot is not in the block map it has.

The calls get a pointer into `dir_tab`, which is its index, and find the entry of `__fd` in the
table once more. The name of an entry is put together with `strncat`, whose bound is that of
the source and not that of `d_name`: what does not fit goes into the next stream.

The loop of `kreaddir` does not end on a chain that runs in a circle, so it takes a number
of rounds. What a failed lookup leaves in a stream that is not open is never read.

## Main definitions

* `kopendir`, `kclosedir`, `krewinddir`, `kreaddir` — the calls.
* `kmkdir`, `krmdir` — directories.
-/
namespace OxKernel.Fs

open Lib (Attempt)

section Streams
variable {σ : Type} (L : BlockLayer σ)

/-- `strncpy` of a path into `__path`: behind one of 255 characters the second zero is in
`__entry`. -/
def DirStream.setPath (d : DirStream) (path : CStr) : DirStream :=
  { d with
    path := path.take maxPath
    entry := { d.entry with
      ino := if path.length + 1 = maxPath then d.entry.ino &&& 0xffffff00 else d.entry.ino } }

/-- `kopendir`, as the index of the stream in `dir_tab`. -/
@[irreducible] def kopendir (fuel : ℕ) (now : BlockNo) (path : CStr) (s : Sys σ) :
    Option (Option (Fin maxDir) × Sys σ) :=
  match (List.finRange maxDir).find? fun i => (s.proc.dirTab i).allocation = 0 with
  | none => some (none, s)
  | some i => do
    let (r, s) ← s.get L fuel now path false .rx
    match r with
    | .error _ =>
      pure (none, { s with proc := s.proc.setDir i { s.proc.dirTab i with allocation := 0, fd := 0 } })
    | .ok n =>
      let dir : DirStream :=
        { s.proc.dirTab i with
          fd := Int32.ofNat i, allocation := 512, data := { n with accessedTime := now } }
      pure (some i, { s with proc := s.proc.setDir i (dir.setPath path) })

/-- `kclosedir`. A write that fails is only reported. -/
def kclosedir (now : BlockNo) (i : Fin maxDir) (s : Sys σ) : Int32 × Sys σ :=
  match (s.proc.dirTab i).index with
  | none => (-1, s)
  | some k =>
    let n := { (s.proc.dirTab k).data with accessedTime := now }
    match L.blockWrite (masterGetDev s) n.self (Inode.layout n) s.fs.store with
    | (_, st) =>
      (0, { s with proc := s.proc.setDir k DirStream.zero, fs := { s.fs with store := st } })

/-- `krewinddir`. -/
def krewinddir (i : Fin maxDir) (s : Sys σ) : Sys σ :=
  match (s.proc.dirTab i).index with
  | none => s
  | some _ => { s with proc := s.proc.setDir i { s.proc.dirTab i with offset := 0 } }

/-! ## Reading a stream -/

/-- `strncat`, on a buffer that is zero behind the given bytes. Behind a string that is shorter
than the bound there are two zeros. -/
def strncat (buf src : CStr) (n : ℕ) : CStr :=
  let out := buf.takeWhile (· ≠ 0) ++ src.take n ++ if src.length < n then [0, 0] else [0]
  out ++ buf.drop out.length

/-- What the three calls of `strncat` write from `d_name` on. -/
def nameBytes (path name : CStr) (n : ℕ) : CStr :=
  strncat (strncat (strncat [] path maxPath) [slash] 1) name n

section Names
variable {buf src path name : CStr} {n : ℕ}

theorem strncat_eq (buf src : CStr) (n : ℕ) : ∃ zs,
    strncat buf src n = buf.takeWhile (· ≠ 0) ++ src.take n ++ 0 :: zs := by
  rw [strncat]
  by_cases hn : src.length < n
  · simp only [if_pos hn, List.append_assoc, List.cons_append]
    exact ⟨_, rfl⟩
  · simp only [if_neg hn, List.append_assoc, List.cons_append]
    exact ⟨_, rfl⟩

theorem length_takeWhile_append_zero_le (xs zs : CStr) :
    ((xs ++ 0 :: zs).takeWhile (· ≠ 0)).length ≤ xs.length := by
  induction xs with
  | nil => simp
  | cons x xs ih =>
      rw [List.cons_append, List.takeWhile_cons]
      split
      · exact Nat.succ_le_succ ih
      · exact Nat.zero_le _

/-- The string in the buffer grows at most by what is put behind it. -/
theorem length_text_strncat_le (buf src : CStr) (n : ℕ) :
    ((strncat buf src n).takeWhile (· ≠ 0)).length ≤
    (buf.takeWhile (· ≠ 0)).length + src.length := by
  obtain ⟨zs, h⟩ := strncat_eq buf src n
  rw [h]
  refine (length_takeWhile_append_zero_le _ _).trans ?_
  rw [List.length_append]
  exact Nat.add_le_add_left (List.length_take_le' ..) _

theorem length_strncat_le (buf src : CStr) (n : ℕ) : (strncat buf src n).length ≤
    max buf.length ((buf.takeWhile (· ≠ 0)).length + src.length + 2) := by
  have htake : (src.take n).length ≤ src.length := List.length_take_le' ..
  have hzeros : (if src.length < n then [0, 0] else [0] : CStr).length ≤ 2 := by
    split <;> simp
  rw [strncat]
  simp only [List.length_append, List.length_drop]
  omega

/-- **A name that fits** is written within the entry. -/
theorem drop_nameBytes (h : path.length + 1 + name.length < maxPath) :
    (nameBytes path name n).drop (maxPath + 1) = [] := by
  have htext := length_text_strncat_le [] path maxPath
  have htext' := length_text_strncat_le (strncat [] path maxPath) [slash] 1
  have hlen := length_strncat_le [] path maxPath
  have hlen' := length_strncat_le (strncat [] path maxPath) [slash] 1
  have hlen'' := length_strncat_le (strncat (strncat [] path maxPath) [slash] 1) name n
  rw [List.takeWhile_nil, List.length_nil] at htext hlen
  rw [List.length_singleton] at htext' hlen'
  rw [nameBytes]
  refine List.drop_eq_nil_of_le ?_
  omega

/-- The string in the buffer, with the other one behind it. -/
theorem text_strncat (hsrc : ∀ c ∈ src, c ≠ 0) (hn : src.length ≤ n) {text : CStr}
    (htext : buf.takeWhile (· ≠ 0) = text) (hnz : ∀ c ∈ text, c ≠ 0) :
    (∃ zs, strncat buf src n = text ++ src ++ 0 :: zs) ∧
      (strncat buf src n).takeWhile (· ≠ 0) = text ++ src ∧ ∀ c ∈ text ++ src, c ≠ 0 := by
  obtain ⟨zs, h⟩ := strncat_eq buf src n
  rw [htext, List.take_of_length_le hn] at h
  have hnz' : ∀ c ∈ text ++ src, c ≠ 0 := by
    intro c hc
    rcases List.mem_append.mp hc with hc | hc
    · exact hnz c hc
    · exact hsrc c hc
  refine ⟨⟨zs, h⟩, ?_, hnz'⟩
  rw [h]
  exact takeWhile_append_zero hnz'

/-- The name of an entry is the path, a slash and the name in the inode. -/
theorem cstr_nameBytes (hpath : ∀ c ∈ path, c ≠ 0) (hname : ∀ c ∈ name, c ≠ 0)
    (hfit : path.length + 1 + name.length < maxPath) (hn : name.length ≤ n) :
    cstr (fun i : Fin maxPath => (nameBytes path name n).getD i 0) = path ++ [slash] ++ name := by
  have hslash : ∀ c ∈ [slash], c ≠ 0 := List.forall_mem_singleton.mpr (by decide)
  obtain ⟨-, htext₁, hnz₁⟩ := text_strncat (n := maxPath) hpath (by omega)
    (List.takeWhile_nil : ([] : CStr).takeWhile (· ≠ 0) = []) (fun c hc => absurd hc List.not_mem_nil)
  obtain ⟨-, htext₂, hnz₂⟩ := text_strncat (n := 1) hslash (le_refl _) htext₁ hnz₁
  obtain ⟨⟨zs, hbytes⟩, -, hnz₃⟩ := text_strncat hname hn htext₂ hnz₂
  have hfits : CStr.Fits (path ++ [slash] ++ name) := by
    refine ⟨?_, by simpa using hnz₃⟩
    rw [List.length_append, List.length_append, List.length_singleton]
    exact hfit
  have hcopy : (fun i : Fin maxPath => (nameBytes path name n).getD i 0) =
      strcpy (fun i : Fin maxPath => (nameBytes path name n).getD i 0) (path ++ [slash] ++ name) := by
    funext i
    rw [strcpy, nameBytes, hbytes]
    simp only [List.nil_append]
    split_ifs with h1 h2
    · rw [List.getD_append _ _ _ _ h1, List.getD_eq_getElem _ _ h1]
      rfl
    · rw [List.getD_append_right _ _ _ _ (not_lt.mp h1), h2, Nat.sub_self]
      rfl
    · rfl
  rw [hcopy, cstr_strcpy hfits]

end Names

/-- The entry for `.` or `..`. -/
def dotEntry (path name : CStr) : Dirent :=
  { Dirent.zero with name := fun i => (nameBytes path name name.length).getD i 0 }

/-- The kind of an inode, for `d_type`. -/
def Inode.direntType (n : Inode) : UInt8 :=
  if n.isHardlink ≠ 0 then 72 else if n.isSymlink ≠ 0 then 83 else if n.isFile ≠ 0 then 70
    else if n.isDirectory ≠ 0 then 68 else 0

/-- The entry for a slot. -/
def slotEntry (path : CStr) (ino off : UInt32) (n : Inode) : Dirent where
  ino := ino
  off := off
  reclen := n.size.toUInt16
  type := n.direntType
  name := fun i => (nameBytes path n.name maxPath).getD i 0

/-- What `kreaddir` works on. -/
structure DirIo (σ : Type) where
  dir : DirStream
  store : σ
  /-- The bytes written behind the stream. -/
  past : CStr

/-- Return an entry, of which the given bytes were written from `d_name` on. -/
def DirIo.fill (s : DirIo σ) (e : Dirent) (bytes : CStr) : Option (Option Dirent × DirIo σ) :=
  some (some e, { s with
    dir := { s.dir with offset := s.dir.offset + 1, entry := e }
    past := bytes.drop (maxPath + 1) })

/-- One step of the scan from the head of the chain. At its end the call returns NULL. -/
def seekStep (dev : DevNo) : Attempt (DirIo σ) Unit := fun s =>
  if s.dir.block = inodeNull then (none, s)
  else
    match L.blockRead dev s.dir.block Sector.zero s.store with
    | (.ok, data, st) =>
      (some (), { s with
        dir := { s.dir with
          block := (BlockMap.layout.symm data).next, blockPtr := s.dir.blockPtr + 1 }
        store := st })
    | (_, _, st) => (none, { s with store := st })

/-- The part of `kreaddir` from RETRY on: the entry or NULL. -/
def readSlot (dev : DevNo) : ℕ → DirIo σ → Option (Option Dirent × DirIo σ)
  | 0, _ => none
  | fuel + 1, s =>
    let block := (s.dir.offset - 2) / 127
    let offset := (s.dir.offset - 2) % 127
    if s.dir.blockPtr = block ∧ s.dir.block ≠ inodeNull then
      match L.blockRead dev s.dir.block Sector.zero s.store with
      | (.ok, data, st) =>
        let ino := (BlockMap.layout.symm data).entry offset
        if ino = inodeNull then
          readSlot dev fuel { s with dir := { s.dir with offset := s.dir.offset + 1 }, store := st }
        else
          match L.blockRead dev ino Sector.zero st with
          | (.ok, data, st) =>
            let n := Inode.layout.symm data
            { s with store := st }.fill (slotEntry s.dir.path ino offset n)
              (nameBytes s.dir.path n.name maxPath)
          | (_, _, st) => some (none, { s with store := st })
      | (_, _, st) => some (none, { s with store := st })
    else
      match Attempt.iterate (fun _ => seekStep L dev) block.toNat ()
          { s with dir := { s.dir with blockPtr := 0, block := s.dir.data.next } } with
      | (none, s) => some (none, s)
      | (some _, s) =>
        if s.dir.blockPtr = block ∧ s.dir.block = inodeNull then some (none, s)
        else readSlot dev fuel s

/-- `kreaddir` behind its store of the access time. -/
def readStream (dev : DevNo) (fuel : ℕ) (s : DirIo σ) : Option (Option Dirent × DirIo σ) :=
  if s.dir.offset = 0 ∨ s.dir.offset = 1 then
    let name := if s.dir.offset = 0 then [dot] else [dot, dot]
    s.fill (dotEntry s.dir.path name) (nameBytes s.dir.path name name.length)
  else readSlot L dev fuel s

/-- The store to the access time. -/
def DirStream.accessed (d : DirStream) (now : BlockNo) : DirStream :=
  { d with data := { d.data with accessedTime := now } }

/-- `kreaddir`. Its store to the access time is not checked: outside of the table it has no
result. -/
def kreaddir (fuel : ℕ) (now : BlockNo) (i : Fin maxDir) (s : Sys σ) :
    Option (Option Dirent × Sys σ) := do
  let k ← (s.proc.dirTab i).index
  let p := s.proc.setDir k ((s.proc.dirTab k).accessed now)
  let (e, io) ← readStream L (masterGetDev s) fuel ⟨p.dirTab i, s.fs.store, []⟩
  pure (e, { s with
    proc := (p.setDir i io.dir).spill i io.past, fs := { s.fs with store := io.store } })

/-! ## Directories -/

/-- `kmkdir`. -/
def kmkdir (fuel : ℕ) (now : BlockNo) (path : CStr) (mode : UInt32) (s : Sys σ) :
    Option (Int32 × Sys σ) := do
  let (r, s) ← s.call (inodeCreate L (masterGetDev s) s.proc.cred now fuel s.proc.cwd path
    ⟨.createDir, mode, s.proc.umask, s.proc.group, s.proc.owner, none⟩)
  match r with
  | .error _ => pure (-1, s)
  | .ok _ => pure (0, s)

/-- `krmdir`. -/
def krmdir (fuel : ℕ) (now : BlockNo) (path : CStr) (s : Sys σ) : Option (Int32 × Sys σ) :=
  kunlink L fuel now path s

end Streams

end OxKernel.Fs
