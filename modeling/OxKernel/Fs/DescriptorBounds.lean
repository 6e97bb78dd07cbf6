import OxKernel.Fs.Descriptors
import OxKernel.Fs.File
import OxKernel.Lib.Traced

/-!
# The indices of the descriptor table

Ten calls take a descriptor and test it by `fd < 0 || fd > MAX_FILES`, which lets the index
`MAX_FILES` through: the word behind `file_desc`, which belongs to `dir_tab`. Here the calls
are written once more with the accesses to `file_desc` they make, in the order of the source;
without the list they return what the calls return.

A call stays inside the table, and refuses a bad descriptor without a change, exactly when
no descriptor it comes to look at is `MAX_FILES`.

## Main definitions

* `kfstat`, `kfchown`, `kfchdir` — the calls that are not modelled elsewhere.
* `FdM`, `withDesc` — computations that list their accesses, and the test they start with.
* `FdCall`, `FdLaw`, `FdCall.Clear` — the ten calls, the law and its condition.

## Main results

* `FdCall.touching_value` — the calls with their accesses return what the calls do.
-/
namespace OxKernel.Fs

open Lib (Traced)

/-! ## The remaining calls -/

/-- `struct stat`. -/
structure Stat where
  dev : UInt32
  ino : UInt32
  mode : UInt32
  nlink : UInt32
  uid : UInt32
  gid : UInt32
  rdev : UInt32
  size : UInt32
  blksize : Int32
  blocks : UInt32
  atime : UInt32
  mtime : UInt32
  ctime : UInt32
  deriving DecidableEq

/-- The attributes of an inode on device `dev`. -/
def Inode.stat (n : Inode) (dev : DevNo) : Stat where
  dev := dev.toUInt32
  ino := n.self
  mode := inodeGetPermissions n
  nlink := n.refcount
  uid := n.owner
  gid := n.group
  rdev := 0
  size := n.size.toUInt32
  blksize := 512
  blocks := (n.size / 512 + if n.size % 512 ≠ 0 then 1 else 0).toUInt32
  atime := n.accessedTime
  mtime := n.modifiedTime
  ctime := n.createTime

section Calls
variable {σ : Type} (L : BlockLayer σ)

/-- `kfstat`: the result and the buffer, which may be NULL. -/
def kfstat (fd : Int32) (buf : Option Stat) (s : Sys σ) : (Int32 × Option Stat) × Sys σ :=
  match s.proc.descriptor fd with
  | none => ((-1, buf), s)
  | some t =>
    match buf with
    | none => ((-1, none), s)
    | some _ => ((0, some ((s.proc.fileTab t).stat (masterGetDev s))), s)

/-- `kfchown`. -/
def kfchown (now : BlockNo) (fd : Int32) (owner group : UInt32) (s : Sys σ) : Int32 × Sys σ :=
  match s.proc.descriptor fd with
  | none => (-1, s)
  | some t =>
    let n := { s.proc.fileTab t with owner := owner, group := group, modifiedTime := now }
    let p := s.proc.setInode t n
    match L.blockWrite n.dev n.self (Inode.layout n) s.fs.store with
    | (.ok, st) => (0, { s with proc := p, fs := { s.fs with store := st } })
    | (_, st) => (-1, { s with proc := p, fs := { s.fs with store := st } })

/-- `kfchdir`. -/
def kfchdir (fd : Int32) (s : Sys σ) : Int32 × Sys σ :=
  match s.proc.descriptor fd with
  | none => (-1, s)
  | some t => (0, { s with proc := { s.proc with cwd := (s.proc.fileTab t).self } })

end Calls

/-! ## Accesses -/

/-- A computation that lists the indices of `file_desc` it accesses. -/
abbrev FdM : Type → Type := Traced ℤ

/-- The index of an entry of the table. -/
def DescInside (i : ℤ) : Prop := 0 ≤ i ∧ i < maxFiles

section Accesses
variable {σ α : Type} {P : ℤ → Prop}

/-- `((fd < 0 || fd > MAX_FILES) ? NULL : file_desc[fd])`, and the call for a descriptor that
is not NULL. -/
def withDesc (p : Proc) (fd : Int32) (bad : α) (k : Fin maxFiles → FdM α) : FdM α :=
  if fd < 0 ∨ (maxFiles : ℤ) < fd.toInt then pure bad
  else do
    Traced.touch [fd.toInt]
    match p.descriptor fd with
    | none => pure bad
    | some t => k t

/-- The loops over the table, which stop at the first entry that passes the test. -/
def findDesc (test : Fin maxFiles → Bool) : List (Fin maxFiles) → FdM (Option (Fin maxFiles))
  | [] => pure none
  | i :: is => do
    Traced.touch [(i : ℤ)]
    if test i then pure (some i) else findDesc test is

theorem findDesc_value (test : Fin maxFiles → Bool) (is : List (Fin maxFiles)) :
    (findDesc test is).value = some (is.find? test) := by
  induction is with
  | nil => rfl
  | cons i is ih =>
      by_cases hi : test i = true
      · simp [findDesc, hi]
      · simp [findDesc, hi, ih]

theorem findDesc_inside (test : Fin maxFiles → Bool) (is : List (Fin maxFiles)) :
    (findDesc test is).All DescInside := by
  induction is with
  | nil => simp [findDesc]
  | cons i is ih =>
      have hi : DescInside (i : ℤ) := ⟨by omega, by omega⟩
      by_cases ht : test i = true <;> simp [findDesc, ht, ih, Traced.all_touch, hi]

/-- What the test lets through. -/
theorem descriptor_eq_none_of_tested {p : Proc} {fd : Int32}
    (h : fd < 0 ∨ (maxFiles : ℤ) < fd.toInt) : p.descriptor fd = none := by
  rcases h with h | h
  · simp [Proc.descriptor, h]
  · have hneg : ¬ fd < 0 := by
      rw [Int32.lt_iff_toInt_lt]
      simp only [Int32.toInt_zero]
      omega
    have hlt : ¬ fd.toInt.toNat < maxFiles := by omega
    have hne : ¬ fd.toInt.toNat = maxFiles := by omega
    simp only [Proc.descriptor, hneg, hlt, hne, if_false, dif_neg, not_false_eq_true]

/-- An index that passes the test and is not the one behind the table. -/
theorem descInside_of_tested {fd : Int32} (h : ¬ (fd < 0 ∨ (maxFiles : ℤ) < fd.toInt)) :
    DescInside fd.toInt ↔ ¬ fd.toInt = 1024 := by
  have hmax : (maxFiles : ℤ) = 1024 := rfl
  rw [not_or, Int32.lt_iff_toInt_lt] at h
  simp only [Int32.toInt_zero, not_lt] at h
  rw [DescInside]
  omega

theorem descInside_of_descriptor {p : Proc} {fd : Int32} (h : (p.descriptor fd).isSome)
    (hne : fd.toInt ≠ maxFiles) : DescInside fd.toInt := by
  refine (descInside_of_tested fun htested => ?_).mpr hne
  simp [descriptor_eq_none_of_tested htested] at h

theorem withDesc_value (p : Proc) (fd : Int32) (bad : α) (k : Fin maxFiles → FdM α) :
    (withDesc p fd bad k).value =
      match p.descriptor fd with
      | none => some bad
      | some t => (k t).value := by
  rw [withDesc]
  split
  · rename_i h
    simp [descriptor_eq_none_of_tested h]
  · cases p.descriptor fd <;> simp

/-- **The test of a descriptor** lets the index behind the table through, and only that. -/
theorem withDesc_inside (p : Proc) (fd : Int32) (bad : α) (k : Fin maxFiles → FdM α) :
    (withDesc p fd bad k).All DescInside ↔ fd.toInt ≠ maxFiles ∧
      ∀ t, p.descriptor fd = some t → DescInside fd.toInt → (k t).All DescInside := by
  rw [withDesc]
  split
  · rename_i h
    have hne : fd.toInt ≠ maxFiles := by
      rcases h with h | h
      · rw [Int32.lt_iff_toInt_lt] at h
        simp only [Int32.toInt_zero] at h
        omega
      · omega
    simpa [descriptor_eq_none_of_tested h] using hne
  · rename_i h
    have hin := descInside_of_tested h
    cases p.descriptor fd with
    | none => simp [Traced.all_touch, hin]
    | some t =>
        simp only [Traced.all_bind, Traced.all_touch, List.mem_singleton, forall_eq, hin]
        simp
        tauto

end Accesses

/-! ## The calls with their accesses -/

namespace Touching

section Calls
variable {σ : Type} (L : BlockLayer σ)

/-- `kclose`. -/
def kclose (now : BlockNo) (fd : Int32) (s : Sys σ) : FdM (Int32 × Sys σ) :=
  withDesc s.proc fd (-1, s) fun t => do
    let found ← findDesc (fun i => s.proc.fileDesc i = some t ∧ (i : ℤ) ≠ fd.toInt)
      (List.finRange maxFiles)
    if found.isSome then
      Traced.touch [fd.toInt]
      pure (0, { s with proc := s.proc.setDescriptor fd none })
    else
      match L.blockSync (s.proc.fileTab t).dev s.fs.store with
      | (.ok, st) =>
        let n := (s.proc.fileTab t).closed now
        match L.blockWrite n.dev n.self (Inode.layout n) st with
        | (.ok, st) => do
          Traced.touch [fd.toInt]
          pure (0, { s with
            proc := (s.proc.setInode t Inode.zero).setDescriptor fd none
            fs := { s.fs with store := st } })
        | (_, st) =>
          pure (-1, { s with proc := s.proc.setInode t n, fs := { s.fs with store := st } })
      | (_, st) => pure (-1, { s with fs := { s.fs with store := st } })

/-- `kread`. -/
def kread (now : BlockNo) (fd : Int32) (buf : Buffer) (count : UInt32) (s : Sys σ) :
    FdM ((Int32 × Buffer) × Sys σ) :=
  withDesc s.proc fd ((-1, buf), s) fun t =>
    match transferCall L count true ⟨s.fs, { s.proc.fileTab t with accessedTime := now }, buf⟩ with
    | (r, io) => pure ((ssize r, io.data), s.put t io)

/-- `kwrite`. -/
def kwrite (now : BlockNo) (fd : Int32) (buf : Buffer) (count : UInt32) (s : Sys σ) :
    FdM (Int32 × Sys σ) :=
  withDesc s.proc fd (-1, s) fun t =>
    match transferCall L count false ⟨s.fs, { s.proc.fileTab t with modifiedTime := now }, buf⟩ with
    | (r, io) => pure (ssize r, s.put t io)

/-- `klseek`. -/
def klseek (fd : Int32) (offset : UInt32) (whence : Whence) (s : Sys σ) : FdM (UInt32 × Sys σ) :=
  withDesc s.proc fd (offMinusOne, s) fun t =>
    match (s.proc.fileTab t).seek offset whence with
    | none => pure (offMinusOne, s)
    | some pos =>
      let n := { s.proc.fileTab t with pos := pos, iblock := iblockNopos }
      match L.blockWrite n.dev n.self (Inode.layout n) s.fs.store with
      | (.ok, st) =>
        pure (pos.toUInt32, { s with proc := s.proc.setInode t n, fs := { s.fs with store := st } })
      | (_, st) =>
        pure (offMinusOne, { s with proc := s.proc.setInode t n, fs := { s.fs with store := st } })

/-- `kdup`. -/
def kdup (fd : Int32) (s : Sys σ) : FdM (Int32 × Sys σ) :=
  withDesc s.proc fd (-1, s) fun t => do
    match ← findDesc (fun i => (s.proc.fileDesc i).isNone) (List.finRange maxFiles) with
    | some i =>
      Traced.touch [(i : ℤ)]
      pure (Int32.ofNat i,
        { s with proc := { s.proc with fileDesc := Function.update s.proc.fileDesc i (some t) } })
    | none => pure (-1, s)

/-- `kdup2`, which looks at the new descriptor twice before it assigns to it. -/
def kdup2 (now : BlockNo) (fd newfd : Int32) (s : Sys σ) : FdM (Int32 × Sys σ) :=
  withDesc s.proc fd (-1, s) fun t =>
    if newfd < 0 ∨ (maxFiles : ℤ) < newfd.toInt then pure (-1, s)
    else do
      Traced.touch [newfd.toInt]
      if s.proc.descriptor newfd = some t then pure (newfd, s)
      else
        Traced.touch [newfd.toInt]
        let a ← (if (s.proc.descriptor newfd).isSome then kclose L now newfd s
          else pure (0, s) : FdM (Int32 × Sys σ))
        Traced.touch [newfd.toInt]
        pure (newfd, { a.2 with proc := a.2.proc.setDescriptor newfd (some t) })

/-- `kfstat`. -/
def kfstat (fd : Int32) (buf : Option Stat) (s : Sys σ) : FdM ((Int32 × Option Stat) × Sys σ) :=
  withDesc s.proc fd ((-1, buf), s) fun t =>
    match buf with
    | none => pure ((-1, none), s)
    | some _ => pure ((0, some ((s.proc.fileTab t).stat (masterGetDev s))), s)

/-- `kfchmod`. -/
def kfchmod (now : BlockNo) (fd : Int32) (mode : UInt32) (s : Sys σ) : FdM (Int32 × Sys σ) :=
  withDesc s.proc fd (-1, s) fun t =>
    let n := inodeSetPermissions { s.proc.fileTab t with modifiedTime := now } mode s.proc.umask
    let p := s.proc.setInode t n
    match L.blockWrite n.dev n.self (Inode.layout n) s.fs.store with
    | (.ok, st) => pure (0, { s with proc := p, fs := { s.fs with store := st } })
    | (_, st) => pure (-1, { s with proc := p, fs := { s.fs with store := st } })

/-- `kfchown`. -/
def kfchown (now : BlockNo) (fd : Int32) (owner group : UInt32) (s : Sys σ) :
    FdM (Int32 × Sys σ) :=
  withDesc s.proc fd (-1, s) fun t =>
    let n := { s.proc.fileTab t with owner := owner, group := group, modifiedTime := now }
    let p := s.proc.setInode t n
    match L.blockWrite n.dev n.self (Inode.layout n) s.fs.store with
    | (.ok, st) => pure (0, { s with proc := p, fs := { s.fs with store := st } })
    | (_, st) => pure (-1, { s with proc := p, fs := { s.fs with store := st } })

/-- `kfchdir`. -/
def kfchdir (fd : Int32) (s : Sys σ) : FdM (Int32 × Sys σ) :=
  withDesc s.proc fd (-1, s) fun t =>
    pure (0, { s with proc := { s.proc with cwd := (s.proc.fileTab t).self } })

end Calls

/-- Two ways to go on after a write. -/
theorem value_write {σ α : Type} (a : BlockRtvl × σ) (x y : σ → α) :
    Traced.value (match a with | (.ok, st) => (pure (x st) : FdM α) | (_, st) => pure (y st)) =
      some (match a with | (.ok, st) => x st | (_, st) => y st) := by
  rcases a with ⟨r, st⟩
  cases r <;> rfl

section Value
variable {σ : Type} {L : BlockLayer σ} {now : BlockNo} {fd newfd : Int32} {s : Sys σ}

theorem kclose_value : (kclose L now fd s).value = some (Fs.kclose L now fd s) := by
  rw [kclose, withDesc_value, Fs.kclose]
  cases s.proc.descriptor fd with
  | none => rfl
  | some t =>
      simp only [Traced.value_bind, findDesc_value, Option.bind_some, List.isSome_find?]
      split
      · rfl
      · rcases L.blockSync (s.proc.fileTab t).dev s.fs.store with ⟨r, st⟩
        cases r with
        | ok =>
            simp only
            rcases L.blockWrite ((s.proc.fileTab t).closed now).dev
              ((s.proc.fileTab t).closed now).self (Inode.layout ((s.proc.fileTab t).closed now)) st
              with ⟨r, st⟩
            cases r <;> rfl
        | _ => rfl

theorem kread_value {buf : Buffer} {count : UInt32} :
    (kread L now fd buf count s).value = some (Fs.kread L now fd buf count s) := by
  rw [kread, withDesc_value, Fs.kread]
  cases s.proc.descriptor fd <;> rfl

theorem kwrite_value {buf : Buffer} {count : UInt32} :
    (kwrite L now fd buf count s).value = some (Fs.kwrite L now fd buf count s) := by
  rw [kwrite, withDesc_value, Fs.kwrite]
  cases s.proc.descriptor fd <;> rfl

theorem klseek_value {offset : UInt32} {whence : Whence} :
    (klseek L fd offset whence s).value = some (Fs.klseek L fd offset whence s) := by
  rw [klseek, withDesc_value, Fs.klseek]
  cases s.proc.descriptor fd with
  | none => rfl
  | some t =>
      simp only
      cases (s.proc.fileTab t).seek offset whence with
      | none => rfl
      | some pos => exact value_write _ _ _

theorem kdup_value : (kdup fd s).value = some (Fs.kdup fd s) := by
  rw [kdup, withDesc_value, Fs.kdup]
  cases s.proc.descriptor fd with
  | none => rfl
  | some t =>
      simp only [Traced.value_bind, findDesc_value, Option.bind_some]
      cases (List.finRange maxFiles).find? fun i => (s.proc.fileDesc i).isNone with
      | none => rfl
      | some i => rfl

theorem kdup2_value : (kdup2 L now fd newfd s).value = some (Fs.kdup2 L now fd newfd s) := by
  rw [kdup2, withDesc_value, Fs.kdup2]
  cases s.proc.descriptor fd with
  | none => rfl
  | some t =>
      simp only
      split
      · rfl
      · simp only [Traced.value_bind, Traced.value_touch, Option.bind_some]
        split
        · rfl
        · simp only [Traced.value_bind, Traced.value_touch, Option.bind_some]
          split
          · simp [kclose_value]
          · rfl

theorem kfstat_value {buf : Option Stat} :
    (kfstat fd buf s).value = some (Fs.kfstat fd buf s) := by
  rw [kfstat, withDesc_value, Fs.kfstat]
  cases s.proc.descriptor fd with
  | none => rfl
  | some t => cases buf <;> rfl

theorem kfchmod_value {mode : UInt32} :
    (kfchmod L now fd mode s).value = some (Fs.kfchmod L now fd mode s) := by
  rw [kfchmod, withDesc_value, Fs.kfchmod]
  cases s.proc.descriptor fd with
  | none => rfl
  | some t => exact value_write _ _ _

theorem kfchown_value {owner group : UInt32} :
    (kfchown L now fd owner group s).value = some (Fs.kfchown L now fd owner group s) := by
  rw [kfchown, withDesc_value, Fs.kfchown]
  cases s.proc.descriptor fd with
  | none => rfl
  | some t => exact value_write _ _ _

theorem kfchdir_value : (kfchdir fd s).value = some (Fs.kfchdir fd s) := by
  rw [kfchdir, withDesc_value, Fs.kfchdir]
  cases s.proc.descriptor fd <;> rfl

end Value

/-! ## Inside the table -/

section Inside
variable {σ : Type} {L : BlockLayer σ} {now : BlockNo} {fd newfd : Int32} {s : Sys σ}

/-- A call that looks at the table by the test only. -/
theorem withDesc_inside_of {α : Type} {bad : α} {k : Fin maxFiles → FdM α}
    (h : ∀ t, (k t).All DescInside) :
    (withDesc s.proc fd bad k).All DescInside ↔ fd.toInt ≠ maxFiles := by
  rw [withDesc_inside]
  simp [h]

theorem kclose_inside : (kclose L now fd s).All DescInside ↔ fd.toInt ≠ maxFiles := by
  rw [kclose, withDesc_inside]
  refine and_iff_left_of_imp fun _ t _ hin => ?_
  simp only [Traced.all_bind, findDesc_inside, true_and]
  intro found _
  split
  · simp [Traced.all_touch, hin]
  · split
    · split <;> simp [Traced.all_touch, hin]
    · simp

theorem kread_inside {buf : Buffer} {count : UInt32} :
    (kread L now fd buf count s).All DescInside ↔ fd.toInt ≠ maxFiles :=
  withDesc_inside_of fun t => by simp

theorem kwrite_inside {buf : Buffer} {count : UInt32} :
    (kwrite L now fd buf count s).All DescInside ↔ fd.toInt ≠ maxFiles :=
  withDesc_inside_of fun t => by simp

theorem klseek_inside {offset : UInt32} {whence : Whence} :
    (klseek L fd offset whence s).All DescInside ↔ fd.toInt ≠ maxFiles := by
  refine withDesc_inside_of fun t => ?_
  cases (s.proc.fileTab t).seek offset whence with
  | none => simp
  | some pos =>
      simp only
      split <;> simp

theorem kdup_inside : (kdup fd s).All DescInside ↔ fd.toInt ≠ maxFiles := by
  refine withDesc_inside_of fun t => ?_
  simp only [Traced.all_bind, findDesc_inside, true_and]
  intro found _
  cases found with
  | none => simp
  | some i =>
      have hi : DescInside (i : ℤ) := ⟨by omega, by omega⟩
      simp [Traced.all_touch, hi]

theorem kfstat_inside {buf : Option Stat} :
    (kfstat fd buf s).All DescInside ↔ fd.toInt ≠ maxFiles :=
  withDesc_inside_of fun t => by cases buf <;> simp

theorem kfchmod_inside {mode : UInt32} :
    (kfchmod L now fd mode s).All DescInside ↔ fd.toInt ≠ maxFiles :=
  withDesc_inside_of fun t => by
    simp only
    split <;> simp

theorem kfchown_inside {owner group : UInt32} :
    (kfchown L now fd owner group s).All DescInside ↔ fd.toInt ≠ maxFiles :=
  withDesc_inside_of fun t => by
    simp only
    split <;> simp

theorem kfchdir_inside : (kfchdir fd s).All DescInside ↔ fd.toInt ≠ maxFiles :=
  withDesc_inside_of fun t => by simp

/-- `kdup2` comes to look at the new descriptor if the old one is open. -/
theorem kdup2_inside :
    (kdup2 L now fd newfd s).All DescInside ↔ fd.toInt ≠ maxFiles ∧
      ((s.proc.descriptor fd).isSome → newfd.toInt ≠ maxFiles) := by
  rw [kdup2, withDesc_inside]
  refine and_congr_right fun hfd => ⟨fun h hopen hnew => ?_, fun h t ht _ => ?_⟩
  · obtain ⟨t, ht⟩ := Option.isSome_iff_exists.mp hopen
    have hpast : ¬ (newfd < 0 ∨ (maxFiles : ℤ) < newfd.toInt) := by
      rw [Int32.lt_iff_toInt_lt, Int32.toInt_zero, hnew]
      omega
    have hall := h t ht (descInside_of_descriptor hopen hfd)
    rw [if_neg hpast] at hall
    have hin : DescInside newfd.toInt := (Traced.all_bind.mp hall).1 _ (List.mem_singleton.mpr rfl)
    exact absurd hnew ((descInside_of_tested hpast).mp hin)
  · split
    · simp
    · rename_i hpast
      have hnew : newfd.toInt ≠ maxFiles := h (by simp [ht])
      have hin : DescInside newfd.toInt := (descInside_of_tested hpast).mpr hnew
      have htouch : (Traced.touch [newfd.toInt] : FdM Unit).All DescInside := by
        simp [Traced.all_touch, hin]
      refine Traced.all_bind.mpr ⟨htouch, fun _ _ => ?_⟩
      split
      · simp
      · refine Traced.all_bind.mpr ⟨htouch, fun _ _ => Traced.all_bind.mpr ⟨?_, fun a _ => ?_⟩⟩
        · split
          · exact kclose_inside.mpr hnew
          · simp
        · exact Traced.all_bind.mpr ⟨htouch, fun _ _ => by simp⟩

end Inside

end Touching

/-! ## The law -/

/-- The calls with their arguments. -/
inductive FdCall
  | kclose (now : BlockNo) (fd : Int32)
  | kread (now : BlockNo) (fd : Int32) (buf : Buffer) (count : UInt32)
  | kwrite (now : BlockNo) (fd : Int32) (buf : Buffer) (count : UInt32)
  | klseek (fd : Int32) (offset : UInt32) (whence : Whence)
  | kdup (fd : Int32)
  | kdup2 (now : BlockNo) (fd newfd : Int32)
  | kfstat (fd : Int32) (buf : Option Stat)
  | kfchmod (now : BlockNo) (fd : Int32) (mode : UInt32)
  | kfchown (now : BlockNo) (fd : Int32) (owner group : UInt32)
  | kfchdir (fd : Int32)

/-- The result of a call and what it leaves in the buffers of the caller. -/
structure FdReply where
  value : Int32
  data : Option Buffer
  stat : Option Stat

namespace FdCall
variable {σ : Type} (L : BlockLayer σ)

/-- The descriptor that a call works on. -/
def fd : FdCall → Int32
  | .kclose _ fd => fd
  | .kread _ fd _ _ => fd
  | .kwrite _ fd _ _ => fd
  | .klseek fd _ _ => fd
  | .kdup fd => fd
  | .kdup2 _ fd _ => fd
  | .kfstat fd _ => fd
  | .kfchmod _ fd _ => fd
  | .kfchown _ fd _ _ => fd
  | .kfchdir fd => fd

/-- The descriptor that `kdup2` is to set. -/
def newfd : FdCall → Option Int32
  | .kdup2 _ _ newfd => some newfd
  | _ => none

/-- The reply `-1`, with the buffers as they were given. -/
def refused : FdCall → FdReply
  | .kread _ _ buf _ => ⟨-1, some buf, none⟩
  | .kfstat _ buf => ⟨-1, none, buf⟩
  | _ => ⟨-1, none, none⟩

/-- A reply that fills no buffer. -/
def plain (a : Int32 × Sys σ) : FdReply × Sys σ := (⟨a.1, none, none⟩, a.2)

/-- Make a call. `off_t` is read as a signed number. -/
def run (s : Sys σ) : FdCall → FdReply × Sys σ
  | .kclose now fd => plain (Fs.kclose L now fd s)
  | .kread now fd buf count =>
    let a := Fs.kread L now fd buf count s
    (⟨a.1.1, some a.1.2, none⟩, a.2)
  | .kwrite now fd buf count => plain (Fs.kwrite L now fd buf count s)
  | .klseek fd offset whence =>
    let a := Fs.klseek L fd offset whence s
    (⟨a.1.toInt32, none, none⟩, a.2)
  | .kdup fd => plain (Fs.kdup fd s)
  | .kdup2 now fd newfd => plain (Fs.kdup2 L now fd newfd s)
  | .kfstat fd buf =>
    let a := Fs.kfstat fd buf s
    (⟨a.1.1, none, a.1.2⟩, a.2)
  | .kfchmod now fd mode => plain (Fs.kfchmod L now fd mode s)
  | .kfchown now fd owner group => plain (Fs.kfchown L now fd owner group s)
  | .kfchdir fd => plain (Fs.kfchdir fd s)

/-- Make a call and list its accesses. -/
def touching (s : Sys σ) : FdCall → FdM (FdReply × Sys σ)
  | .kclose now fd => do pure (plain (← Touching.kclose L now fd s))
  | .kread now fd buf count => do
    let a ← Touching.kread L now fd buf count s
    pure (⟨a.1.1, some a.1.2, none⟩, a.2)
  | .kwrite now fd buf count => do pure (plain (← Touching.kwrite L now fd buf count s))
  | .klseek fd offset whence => do
    let a ← Touching.klseek L fd offset whence s
    pure (⟨a.1.toInt32, none, none⟩, a.2)
  | .kdup fd => do pure (plain (← Touching.kdup fd s))
  | .kdup2 now fd newfd => do pure (plain (← Touching.kdup2 L now fd newfd s))
  | .kfstat fd buf => do
    let a ← Touching.kfstat fd buf s
    pure (⟨a.1.1, none, a.1.2⟩, a.2)
  | .kfchmod now fd mode => do pure (plain (← Touching.kfchmod L now fd mode s))
  | .kfchown now fd owner group => do pure (plain (← Touching.kfchown L now fd owner group s))
  | .kfchdir fd => do pure (plain (← Touching.kfchdir fd s))

/-- **The accesses are those of the calls**: with them, a call returns what it does without. -/
theorem touching_value (s : Sys σ) (c : FdCall) :
    (c.touching L s).value = some (c.run L s) := by
  cases c with
  | kclose now fd => simp [touching, run, Touching.kclose_value]
  | kread now fd buf count => simp [touching, run, Touching.kread_value]
  | kwrite now fd buf count => simp [touching, run, Touching.kwrite_value]
  | klseek fd offset whence => simp [touching, run, Touching.klseek_value]
  | kdup fd => simp [touching, run, Touching.kdup_value]
  | kdup2 now fd newfd => simp [touching, run, Touching.kdup2_value]
  | kfstat fd buf => simp [touching, run, Touching.kfstat_value]
  | kfchmod now fd mode => simp [touching, run, Touching.kfchmod_value]
  | kfchown now fd owner group => simp [touching, run, Touching.kfchown_value]
  | kfchdir fd => simp [touching, run, Touching.kfchdir_value]

/-- The descriptor is open. -/
def IsOpen (p : Proc) (fd : Int32) : Prop :=
  ∃ i : Fin maxFiles, fd.toInt = (i : ℕ) ∧ p.fileDesc i ≠ none

/-- A descriptor of the call is outside the table or, where it has to be open, is not. -/
def Bad (p : Proc) (c : FdCall) : Prop :=
  ¬ IsOpen p c.fd ∨ ∃ newfd, c.newfd = some newfd ∧ ¬ DescInside newfd.toInt

/-- **The law of the descriptor arguments**: accesses inside the table, and no change and the
reply `-1` for a bad descriptor. -/
structure Law (s : Sys σ) (c : FdCall) : Prop where
  inside : (c.touching L s).All DescInside
  refuses : c.Bad s.proc → c.run L s = (c.refused, s)

/-- No descriptor that the call comes to look at is `MAX_FILES`. -/
def Clear (p : Proc) (c : FdCall) : Prop :=
  c.fd.toInt ≠ maxFiles ∧ ∀ newfd, c.newfd = some newfd → IsOpen p c.fd → newfd.toInt ≠ maxFiles

theorem descriptor_of_toInt {p : Proc} {fd : Int32} {i : Fin maxFiles} (h : fd.toInt = (i : ℕ)) :
    p.descriptor fd = p.fileDesc i := by
  have hfd : fd = descNo i := Int32.toInt_inj.mp (by rw [h, descNo_toInt])
  rw [hfd, Proc.descriptor_descNo]

theorem isOpen_iff {p : Proc} {fd : Int32} (hne : fd.toInt ≠ maxFiles) :
    IsOpen p fd ↔ (p.descriptor fd).isSome := by
  constructor
  · intro h
    obtain ⟨i, hi, hopen⟩ := h
    rw [descriptor_of_toInt hi]
    exact Option.isSome_iff_ne_none.mpr hopen
  · intro h
    obtain ⟨h0, hlt⟩ := descInside_of_descriptor h hne
    have hi : fd.toInt = ((⟨fd.toInt.toNat, by omega⟩ : Fin maxFiles) : ℕ) := by
      simp only
      omega
    refine ⟨_, hi, ?_⟩
    rw [← descriptor_of_toInt hi]
    exact Option.isSome_iff_ne_none.mp h

variable {L}

/-- The accesses stay inside exactly when the call is clear. -/
theorem touching_inside_iff {s : Sys σ} {c : FdCall} :
    (c.touching L s).All DescInside ↔ c.Clear s.proc := by
  cases c with
  | kclose now fd => simp [touching, Clear, Touching.kclose_inside, FdCall.fd, FdCall.newfd]
  | kread now fd buf count => simp [touching, Clear, Touching.kread_inside, FdCall.fd, FdCall.newfd]
  | kwrite now fd buf count =>
      simp [touching, Clear, Touching.kwrite_inside, FdCall.fd, FdCall.newfd]
  | klseek fd offset whence =>
      simp [touching, Clear, Touching.klseek_inside, FdCall.fd, FdCall.newfd]
  | kdup fd => simp [touching, Clear, Touching.kdup_inside, FdCall.fd, FdCall.newfd]
  | kdup2 now fd newfd =>
      simp only [touching, Traced.all_bind, Traced.all_pure, implies_true, and_true,
        Touching.kdup2_inside, Clear, FdCall.fd, FdCall.newfd, Option.some.injEq, forall_eq']
      exact and_congr_right fun hne => by rw [isOpen_iff hne]
  | kfstat fd buf => simp [touching, Clear, Touching.kfstat_inside, FdCall.fd, FdCall.newfd]
  | kfchmod now fd mode => simp [touching, Clear, Touching.kfchmod_inside, FdCall.fd, FdCall.newfd]
  | kfchown now fd owner group =>
      simp [touching, Clear, Touching.kfchown_inside, FdCall.fd, FdCall.newfd]
  | kfchdir fd => simp [touching, Clear, Touching.kfchdir_inside, FdCall.fd, FdCall.newfd]

/-- A descriptor that is NULL is refused by every call. -/
theorem run_of_none {s : Sys σ} {c : FdCall} (h : s.proc.descriptor c.fd = none) :
    c.run L s = (c.refused, s) := by
  cases c <;> simp only [FdCall.fd] at h
  · simp [run, plain, refused, Fs.kclose, h]
  · simp [run, refused, Fs.kread, h]
  · simp [run, plain, refused, Fs.kwrite, h]
  · simp only [run, refused, Fs.klseek, h]
    rfl
  · simp [run, plain, refused, Fs.kdup, h]
  · simp [run, plain, refused, Fs.kdup2, h]
  · simp [run, refused, Fs.kfstat, h]
  · simp [run, plain, refused, Fs.kfchmod, h]
  · simp [run, plain, refused, Fs.kfchown, h]
  · simp [run, plain, refused, Fs.kfchdir, h]

/-- A clear call refuses a bad descriptor. -/
theorem run_of_bad {s : Sys σ} {c : FdCall} (h : c.Clear s.proc) (hbad : c.Bad s.proc) :
    c.run L s = (c.refused, s) := by
  by_cases hopen : IsOpen s.proc c.fd
  · obtain ⟨newfd, hnew, hout⟩ := hbad.resolve_left (not_not_intro hopen)
    have hne := h.2 newfd hnew hopen
    have hpast : newfd < 0 ∨ (maxFiles : ℤ) < newfd.toInt := by
      by_contra hin
      exact hout ((descInside_of_tested hin).mpr hne)
    obtain ⟨t, ht⟩ := Option.isSome_iff_exists.mp ((isOpen_iff h.1).mp hopen)
    cases c <;> simp only [FdCall.newfd, reduceCtorEq, Option.some.injEq] at hnew
    subst hnew
    simp only [FdCall.fd] at ht
    simp only [run, plain, refused, Fs.kdup2, ht, if_pos hpast]
  · have hnone : s.proc.descriptor c.fd = none := by
      rw [isOpen_iff h.1] at hopen
      simpa using hopen
    exact run_of_none hnone

/-- **The law holds of a call exactly when the call is clear.** -/
theorem law_iff_clear (L : BlockLayer σ) (s : Sys σ) (c : FdCall) : c.Law L s ↔ c.Clear s.proc :=
  ⟨fun h => touching_inside_iff.mp h.inside,
    fun h => ⟨touching_inside_iff.mpr h, run_of_bad h⟩⟩

/-- A process whose descriptor 0 is open. -/
def oneOpen : Sys Disk :=
  { Sys.start ⟨fun _ _ => Sector.zero, fun _ => Master.zero, fun _ _ => Sector.zero, true,
      fun _ _ => 0⟩ with
    proc := { Proc.zero with fileDesc := fun i => if i = 0 then some 0 else none } }

/-- `kdup2(0, 1024)` reads and assigns to the word behind the table. -/
theorem not_law_kdup2_maxFiles : ¬ (FdCall.kdup2 0 0 1024).Law flatStore oneOpen := by
  intro h
  have hclear := touching_inside_iff.mp h.inside
  have hopen : IsOpen oneOpen.proc 0 := ⟨0, rfl, by simp [oneOpen]⟩
  exact hclear.2 1024 rfl hopen (by decide)

end FdCall

end OxKernel.Fs
