import OxKernel.Fs.Descriptors
import OxKernel.Fs.Leaves
import OxKernel.Lib.Reach

/-!
# Runs on descriptors

Runs of `kopen`, `kopen2`, `kcreat`, `kclose`, `kdup` and `kdup2`. A run keeps a record of
its own: which of the opens so far a descriptor goes back to.

Three exits of the calls leave the tables in the middle of a change. `kcreat` takes a
descriptor before the lookup that may still fail, `kclose` changes the entry before the
write that may still fail, and `kdup2` does not look at the result of the close.
`DescCall.Ok` excludes them, and files without a name.

## Main definitions

* `DescCall`, `descSystem` — the calls, and their runs.
* `DescCall.Ok` — the calls that do not leave by one of the three exits.
-/
namespace OxKernel.Fs

open Lib (Call System)

/-- The calls on descriptors, with the clock, the number of rounds and their arguments. -/
inductive DescCall
  | kopen (fuel : ℕ) (now : BlockNo) (path : CStr) (flags : UInt32)
  | kopen2 (fuel : ℕ) (now : BlockNo) (path : CStr) (flags mode : UInt32)
  | kcreat (fuel : ℕ) (now : BlockNo) (path : CStr) (mode : UInt32)
  | kclose (now : BlockNo) (fd : Fin maxFiles)
  | kdup (fd : Fin maxFiles)
  | kdup2 (now : BlockNo) (fd newfd : Fin maxFiles)

/-- Which open a descriptor goes back to, and the number of opens. -/
structure Origins where
  origin : Fin maxFiles → ℕ
  opens : ℕ

section Runs
variable {σ : Type} (L : BlockLayer σ)

/-- Make a call. -/
def DescCall.run (s : Sys σ) : DescCall → Option (Int32 × Sys σ)
  | .kopen fuel now path flags => Fs.kopen L fuel now path flags s
  | .kopen2 fuel now path flags mode => Fs.kopen2 L fuel now path flags mode s
  | .kcreat fuel now path mode => Fs.kcreat L fuel now path mode s
  | .kclose now fd => some (Fs.kclose L now (descNo fd) s)
  | .kdup fd => some (Fs.kdup (descNo fd) s)
  | .kdup2 now fd newfd => some (Fs.kdup2 L now (descNo fd) (descNo newfd) s)

/-- What a successful call adds to the record: an open is a new origin, a duplicate has the
origin of the descriptor it is made from. -/
def DescCall.Notes (w : Int32) (h h' : Origins) : DescCall → Prop
  | .kopen .. | .kopen2 .. | .kcreat .. =>
    ∃ fd, w = descNo fd ∧ h' = ⟨Function.update h.origin fd h.opens, h.opens + 1⟩
  | .kclose .. => h' = h
  | .kdup fd | .kdup2 _ fd _ =>
    ∃ newfd, w = descNo newfd ∧ h' = ⟨Function.update h.origin newfd (h.origin fd), h.opens⟩

/-- The runs, from a process without open files. -/
def descSystem : System (Sys σ × Origins) DescCall where
  init s := (∀ fd, s.1.proc.fileDesc fd = none) ∧ ∀ t, s.1.proc.fileTab t = Inode.zero
  step c s s' := ∃ w, c.run L s.1 = some (w, s'.1) ∧
    (w = -1 ∧ s'.2 = s.2 ∨ w ≠ -1 ∧ c.Notes w s.2 s'.2)

/-- A call that does not leave the tables in the middle of a change. -/
def DescCall.Ok (s : Sys σ) : DescCall → Prop
  | .kopen fuel now path flags => s.proc.allocDescriptor ≠ none →
    OnlyNamed (openFind L (openPerm flags) fuel now path flags s)
  | .kopen2 fuel now path flags mode => s.proc.allocDescriptor ≠ none →
    OnlyNamed (openFind L mode fuel now path flags s)
  | .kcreat fuel now path mode => ∀ u s₁ w t p,
    s.create L fuel now path mode = some (.ok u, s₁) → s.proc.allocDescriptor = some (w, t, p) →
      FindsNamed (Sys.get L { s₁ with proc := p } fuel now path true (inodeGetMode mode s.proc.umask))
  | .kclose now fd => ∀ t, LastOf s.proc fd t →
    (closeSync L t s).1 = .ok → (closeWrite L now t s).1 = .ok
  | .kdup _ => True
  | .kdup2 now fd newfd => s.proc.fileDesc fd ≠ none → s.proc.fileDesc newfd ≠ s.proc.fileDesc fd →
    ∀ t, LastOf s.proc newfd t → (closeSync L t s).1 = .ok ∧ (closeWrite L now t s).1 = .ok

/-- The tables of a system agree. -/
def DescOk (s : Sys σ × Origins) : Prop :=
  TablesOk s.1.proc.fileDesc s.1.proc.fileTab s.2.origin s.2.opens

variable {L} {s s' : Sys σ × Origins} {c : DescCall} {w : Int32}

theorem DescOk.same (h : DescOk s) (htab : SameTables s.1.proc s'.1.proc) (hnote : s'.2 = s.2) :
    DescOk s' := by
  rw [DescOk, htab.1, htab.2, hnote]
  exact h

theorem DescOk.opens (h : DescOk s) (hopen : Opens w s.1.proc s'.1.proc) {fd : Fin maxFiles}
    (hw : w = descNo fd)
    (hnote : s'.2 = ⟨Function.update s.2.origin fd s.2.opens, s.2.opens + 1⟩) : DescOk s' := by
  obtain ⟨fd', t, n, hfd', hfree, ht, hn, hdesc, htab⟩ := hopen
  obtain rfl : fd' = fd := descNo_injective (hfd'.symm.trans hw)
  rw [DescOk, hdesc, htab, hnote]
  exact TablesOk.opened h hfree ht hn

theorem Closes.tablesOk {p p' : Proc} {fd : Fin maxFiles} {h : Origins}
    (hok : TablesOk p.fileDesc p.fileTab h.origin h.opens) (hclose : Closes fd p p') :
    TablesOk p'.fileDesc p'.fileTab h.origin h.opens := by
  obtain ⟨t, hfd, hdesc, htab, hlast⟩ := hclose
  rw [hdesc]
  exact hok.released hfd htab hlast

theorem Duplicates.tablesOk {p p' : Proc} {fd newfd : Fin maxFiles} {h : Origins}
    (hok : TablesOk p.fileDesc p.fileTab h.origin h.opens) (hdup : Duplicates fd newfd p p') :
    TablesOk p'.fileDesc p'.fileTab (Function.update h.origin newfd (h.origin fd)) h.opens := by
  obtain ⟨t, hfd, hfree, hdesc, htab⟩ := hdup
  rw [hdesc, htab]
  exact hok.duplicated hfd hfree

/-- What a successful call does to the tables. -/
def DescCall.Changes (w : Int32) (p p' : Proc) : DescCall → Prop
  | .kopen .. | .kopen2 .. | .kcreat .. => Opens w p p'
  | .kclose _ fd => Closes fd p p'
  | .kdup fd => ∃ newfd, w = descNo newfd ∧ Duplicates fd newfd p p'
  | .kdup2 _ fd newfd => w = descNo newfd ∧ p.fileDesc fd ≠ none ∧
    (p.fileDesc newfd = p.fileDesc fd ∧ p' = p ∨ Duplicates fd newfd p p' ∨
      ∃ p₁, Closes newfd p p₁ ∧ Duplicates fd newfd p₁ p')

/-- **What a call does**: it leaves the tables alone and returns -1, or it succeeds. -/
theorem DescCall.Ok.cases {s s' : Sys σ} (hg : c.Ok L s) (h : c.run L s = some (w, s')) :
    w = -1 ∧ SameTables s.proc s'.proc ∨ w ≠ -1 ∧ c.Changes w s.proc s'.proc := by
  have hopen : Opens w s.proc s'.proc ∨ w = -1 ∧ SameTables s.proc s'.proc →
      w = -1 ∧ SameTables s.proc s'.proc ∨ w ≠ -1 ∧ Opens w s.proc s'.proc := by
    rintro (ho | hs)
    · refine Or.inr ⟨?_, ho⟩
      obtain ⟨fd, _, _, rfl, _⟩ := ho
      exact descNo_ne_neg_one fd
    · exact Or.inl hs
  cases c with
  | kopen fuel now path flags => exact hopen (openWith_tables hg h)
  | kopen2 fuel now path flags mode => exact hopen (openWith_tables hg h)
  | kcreat fuel now path mode => exact hopen (kcreat_tables hg h)
  | kclose now fd =>
      rcases kclose_tables hg (Option.some.inj h) with ⟨rfl, hcl⟩ | ⟨hw, hsame, _⟩
      · exact Or.inr ⟨by decide, hcl⟩
      · exact Or.inl ⟨hw, hsame⟩
  | kdup fd =>
      rcases kdup_tables (Option.some.inj h) with ⟨newfd, rfl, hdup⟩ | hsame
      · exact Or.inr ⟨descNo_ne_neg_one newfd, newfd, rfl, hdup⟩
      · exact Or.inl hsame
  | kdup2 now fd newfd =>
      rcases kdup2_tables hg (Option.some.inj h) with ⟨rfl, hfd, hdup⟩ | hsame
      · refine Or.inr ⟨descNo_ne_neg_one newfd, rfl, hfd, ?_⟩
        rcases hdup with ⟨he, hs⟩ | hdup
        · exact Or.inl ⟨he, by rw [hs]⟩
        · exact Or.inr hdup
      · exact Or.inl hsame

/-- **One call** keeps the tables in order. -/
theorem DescOk.step (h : DescOk s) (hg : c.Ok L s.1) (hs : (descSystem L).step c s s') :
    DescOk s' := by
  obtain ⟨w, hrun, hnote⟩ := hs
  rcases hg.cases hrun with ⟨rfl, hsame⟩ | ⟨hw, hchange⟩
  · rcases hnote with ⟨_, hnote⟩ | ⟨hne, _⟩
    · exact h.same hsame hnote
    · exact absurd rfl hne
  · rcases hnote with ⟨hw', _⟩ | ⟨_, hnote⟩
    · exact absurd hw' hw
    · cases c with
      | kopen fuel now path flags =>
          obtain ⟨fd, hfd, hnote⟩ := hnote
          exact h.opens hchange hfd hnote
      | kopen2 fuel now path flags mode =>
          obtain ⟨fd, hfd, hnote⟩ := hnote
          exact h.opens hchange hfd hnote
      | kcreat fuel now path mode =>
          obtain ⟨fd, hfd, hnote⟩ := hnote
          exact h.opens hchange hfd hnote
      | kclose now fd =>
          rw [DescOk, hnote]
          exact Closes.tablesOk h hchange
      | kdup fd =>
          obtain ⟨newfd, rfl, hdup⟩ := hchange
          obtain ⟨newfd', hfd', hnote⟩ := hnote
          obtain rfl := descNo_injective hfd'
          rw [DescOk, hnote]
          exact Duplicates.tablesOk h hdup
      | kdup2 now fd newfd =>
          obtain ⟨rfl, hfd, hdup⟩ := hchange
          obtain ⟨newfd', hfd', hnote⟩ := hnote
          obtain rfl := descNo_injective hfd'
          rw [DescOk, hnote]
          rcases hdup with ⟨he, hp⟩ | hdup | ⟨p₁, hcl, hdup⟩
          · obtain ⟨t, ht⟩ := Option.ne_none_iff_exists'.mp hfd
            have horigin := (h.shared newfd fd t t (he.trans ht) ht).mp rfl
            rw [hp, ← horigin, Function.update_eq_self]
            exact h
          · exact Duplicates.tablesOk h hdup
          · exact Duplicates.tablesOk (Closes.tablesOk h hcl) hdup

/-- **The table of descriptors.** In every state of a run whose calls do not leave the tables
in the middle of a change, each descriptor points to an open file, descriptors share an
entry just when they are duplicates of each other, and every entry in use has a descriptor;
and a further such call that returns -1 changes neither table. -/
theorem descriptors_ok (h : (descSystem L).Reach (fun s c => c.Ok L s.1) s) :
    DescOk s ∧ ∀ (c : DescCall) (s₁ : Sys σ), c.Ok L s.1 → c.run L s.1 = some (-1, s₁) →
      s₁.proc.fileDesc = s.1.proc.fileDesc ∧ s₁.proc.fileTab = s.1.proc.fileTab := by
  constructor
  · refine System.Reach.invariant ?_ ?_ h
    · rintro s ⟨hdesc, htab⟩
      refine TablesOk.empty hdesc fun t => ?_
      rw [htab]
      rfl
    · intro s c s' hok hg hs
      exact hok.step hg hs
  · intro c s₁ hg hrun
    rcases hg.cases hrun with ⟨_, hsame⟩ | ⟨hne, _⟩
    · exact hsame
    · exact absurd rfl hne

end Runs

/-! ## Runs on a flat volume -/

theorem Inode.unnamed_iff {n : Inode} : n.Unnamed ↔ n.name = [] := by
  rw [Inode.Unnamed, Inode.name, cstr, List.ofFn_succ, List.takeWhile_cons]
  by_cases h : n.path 0 = 0
  · exact iff_of_true h (if_neg (by simpa using h))
  · refine iff_of_false h ?_
    rw [if_pos (by simpa using h)]
    exact List.cons_ne_nil _ _

/-- A process without open files gets a descriptor. -/
theorem Proc.zero_allocDescriptor : ∃ w t p, Proc.zero.allocDescriptor = some (w, t, p) := by
  unfold allocDescriptor
  have htab : (List.finRange maxFiles).find? (fun i => decide ((Proc.zero.fileTab i).path 0 = 0)) ≠ none := by
    intro h
    have h0 := List.find?_eq_none.mp h 0 (List.mem_finRange 0)
    exact h0 (decide_eq_true rfl)
  have hdesc : (List.finRange maxFiles).find? (fun fd => (Proc.zero.fileDesc fd).isNone) ≠ none := by
    intro h
    have h0 := List.find?_eq_none.mp h 0 (List.mem_finRange 0)
    exact h0 rfl
  obtain ⟨i, hi⟩ := Option.ne_none_iff_exists'.mp htab
  obtain ⟨fd, hfd⟩ := Option.ne_none_iff_exists'.mp hdesc
  rw [hi, hfd]
  exact ⟨_, _, _, rfl⟩

section Flat
variable {fs : FsState Disk} {dev : DevNo} {root : BlockNo}

theorem Sys.start_init (fs : FsState Disk) (h : Origins) :
    (descSystem flatStore).init (Sys.start fs, h) := ⟨fun _ => rfl, fun _ => rfl⟩

/-- A creation of a path that is made absolute as a name without a slash does nothing. -/
theorem inodeCreate_lone {s : Names Disk} (hmount : rootBlock dev s.fs = some root)
    (hroot : (inodeAt (s.fs.store dev) root).name = [slash]) {path c : CStr}
    (hslash : path.head? = some slash) (hlen : path.length ≤ maxPath)
    (hcomp : components (normalize path) = [c]) (p : Cred) (now : BlockNo) (fuel : ℕ) (cwd : BlockNo)
    (perm umask group owner : UInt32) :
    inodeCreate flatStore dev p now fuel cwd path ⟨.createFile, perm, umask, group, owner, none⟩ s =
      some (.ok (), s) := by
  have hmounted : (ofOption (some root) : NameM Disk BlockNo) s = some (.ok root, s) := rfl
  have hmode : (none : Option CStr).isSome = true ∨
      InodeMode.createFile ≠ .createSymlink ∧ InodeMode.createFile ≠ .createHardlink := by decide
  have hnone : (Option.getD (none : Option CStr) []).length ≤ maxPath := Nat.zero_le _
  rw [inodeCreate, Call.get_bind_apply, hmount, Call.bind_of_ok hmounted,
    Call.bind_of_ok (Call.require_of_pos hmode), Call.bind_of_ok (Call.require_of_pos hlen),
    Call.bind_of_ok (Call.require_of_pos hnone),
    Call.bind_of_ok (krealpath_absolute hslash hlen)]
  dsimp only
  rw [Call.pure_bind_apply, Call.bind_of_ok (rootInode_flat hroot), hcomp]
  rfl

/-- `/../x` is made absolute as `x`: a creation does nothing and succeeds, and a lookup
fails. -/
theorem kcreat_lone {w : Int32} {t : Fin maxFiles} {p : Proc}
    (hmount : rootBlock 0 fs = some root) (hroot : (inodeAt (fs.store 0) root).name = [slash])
    (halloc : Proc.zero.allocDescriptor = some (w, t, p)) :
    kcreat flatStore 1 0 [slash, dot, dot, slash, 120] 0 (Sys.start fs) =
      some (-1, { Sys.start fs with proc := p }) := by
  have hcomp : components (normalize [slash, dot, dot, slash, 120]) = [[120]] := by decide +kernel
  have hlen : ([slash, dot, dot, slash, 120] : CStr).length ≤ maxPath := by decide
  have hcreate : Sys.create flatStore (Sys.start fs) 1 0 [slash, dot, dot, slash, 120] 0 =
      some (.ok (), Sys.start fs) := by
    rw [Sys.create, Sys.call, masterGetDev_start,
      inodeCreate_lone (s := (Sys.start fs).toNames) hmount hroot rfl hlen hcomp]
    rfl
  have hget : ∀ m, Sys.get flatStore { Sys.start fs with proc := p } 1 0
      [slash, dot, dot, slash, 120] true m =
        some (.error .fail, { Sys.start fs with proc := p }) := by
    intro m
    have hdev : masterGetDev { Sys.start fs with proc := p } = 0 := rfl
    rw [Sys.get, Sys.call, hdev,
      inodeGet_lone (s := (Sys.start fs).toNames) hmount hroot rfl hlen hcomp (by decide)]
    rfl
  rw [kcreat, hcreate]
  simp only [Option.bind_eq_bind, Option.bind_some]
  rw [show (Sys.start fs).proc = Proc.zero from rfl, halloc]
  dsimp only
  rw [hget]
  rfl

/-- The calls do leave a descriptor that points to an entry without a file: `kcreat` of a
name that the lookup after the creation does not find. -/
theorem kcreat_leaves_descriptor :
    ¬ ∀ s, (descSystem flatStore).Reach (fun _ _ => True) s → DescOk s := by
  intro hall
  obtain ⟨w, t, p, halloc⟩ := Proc.zero_allocDescriptor
  have hrun := kcreat_lone emptyVolume_rootBlock emptyVolume_root halloc
  have hreach : (descSystem flatStore).Reach (fun _ _ => True)
      ({ Sys.start emptyVolume with proc := p }, ⟨fun _ => 0, 0⟩) := by
    refine .step (.init (Sys.start_init emptyVolume ⟨fun _ => 0, 0⟩)) trivial
      (c := .kcreat 1 0 [slash, dot, dot, slash, 120] 0) ⟨-1, hrun, Or.inl ⟨rfl, rfl⟩⟩
  obtain ⟨fd, -, -, ht, rfl⟩ := Proc.allocDescriptor_eq_some halloc
  exact (hall _ hreach).holds fd t (Function.update_self ..) ht

theorem openFind_root (perm flags : UInt32) (hmount : rootBlock 0 fs = some root)
    (hroot : (inodeAt (fs.store 0) root).name = [slash]) :
    openFind flatStore perm 1 0 [slash] flags (Sys.start fs) =
      some (.ok (inodeAt (fs.store 0) root), Sys.start fs) := by
  have hget : Sys.get flatStore (Sys.start fs) 1 0 [slash] true (openMode flags) =
      some (.ok (inodeAt (fs.store 0) root), Sys.start fs) := by
    rw [Sys.get, Sys.call, masterGetDev_start,
      inodeGet_root (s := (Sys.start fs).toNames) hmount hroot]
    rfl
  rw [openFind, hget]
  rfl

/-- After the root directory has been opened. -/
theorem descriptors_ok_root :
    ∃ s, (descSystem flatStore).Reach (fun s c => c.Ok flatStore s.1) s ∧
      (∃ fd t, s.1.proc.fileDesc fd = some t) ∧ DescOk s := by
  have hfind := openFind_root (openPerm oRdonly) oRdonly emptyVolume_rootBlock emptyVolume_root
  have hok : (DescCall.kopen 1 0 [slash] oRdonly).Ok flatStore (Sys.start emptyVolume) := by
    intro _ n s' hn
    rw [hfind] at hn
    cases hn
    rw [Inode.unnamed_iff, emptyVolume_root]
    exact List.cons_ne_nil _ _
  obtain ⟨w, t, p, halloc⟩ := Proc.zero_allocDescriptor
  have hinode : ∀ dev n (fs : FsState Disk),
      ∃ n', openInode flatStore 1 0 dev oRdonly n fs = some (n', fs) := fun _ _ _ => ⟨_, rfl⟩
  have hrun : ∃ s', kopen flatStore 1 0 [slash] oRdonly (Sys.start emptyVolume) = some (w, s') := by
    obtain ⟨n', hn'⟩ := hinode (masterGetDev (Sys.start emptyVolume))
      (inodeAt (emptyVolume.store 0) 4100) (Sys.start emptyVolume).fs
    rw [kopen, openWith, hfind]
    simp only [Option.bind_eq_bind, Option.bind_some]
    rw [hn', Option.bind_some, show (Sys.start emptyVolume).proc = Proc.zero from rfl, halloc]
    exact ⟨_, rfl⟩
  obtain ⟨s', hrun⟩ := hrun
  obtain ⟨fd, hw, -, -, -⟩ := Proc.allocDescriptor_eq_some halloc
  have hne : w ≠ -1 := hw ▸ descNo_ne_neg_one fd
  have hreach : (descSystem flatStore).Reach (fun s c => c.Ok flatStore s.1)
      (s', ⟨Function.update (fun _ => 0) fd 0, 1⟩) :=
    .step (.init (Sys.start_init emptyVolume ⟨fun _ => 0, 0⟩)) hok
      ⟨w, hrun, Or.inr ⟨hne, fd, hw, rfl⟩⟩
  refine ⟨_, hreach, ?_, (descriptors_ok hreach).1⟩
  rcases hok.cases hrun with ⟨hw', _⟩ | ⟨_, fd', t', _, _, _, _, _, hdesc, _⟩
  · exact absurd hw' hne
  · exact ⟨fd', t', by rw [hdesc, Function.update_self]⟩

end Flat

end OxKernel.Fs
