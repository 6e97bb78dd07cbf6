import OxKernel.Fs.NameSpace
import OxKernel.Fs.Dir
import OxKernel.Fs.LinkCount

/-!
# Runs on the name space

Runs of lookups, creations and removals. Every call that keeps to the rules below leaves a
volume with a tree below its root, and changes the name space at one path at most: a call that
fails changes nothing or, for the removal of a hard link whose target is gone, removes the link.

The rules leave out what the functions do not survive. A creation is of a file, a directory or
a symbolic link and has room. A removal is not of the root, and it does not empty the first of
several block maps of its directory.

## Main definitions

* `PathCall.Orderly` — the rules.
* `volumeRuns` — the runs from a given state.
* `NameCall` — the system calls that make a directory or remove a node.

## Main results

* `name_space_runs` — the name space over runs of the path functions.
* `nameCalls_run` — the same over runs of the system calls.
-/
namespace OxKernel.Fs

open Lib (Call NameTree Space System)

section Free
variable {g : Shape} {dev : DevNo} {row : Fin inodeNrDev} {T : Tree} {s s' : Names Disk}
  {P b m : BlockNo} {j : Fin bmapBlocks} {p : Cred} {now cwd : BlockNo} {fuel : ℕ} {path : CStr}
  {r : Except InodeRtvl (Option Inode)}

/-- The blocks of a file are given back without an error. -/
theorem Stored.releaseNode_file_noError (h : Stored g dev row T s.fs) (hP : P ∈ T.nodes)
    (hb : b ∈ T.nodes) (hbP : b ≠ P) (hkind : (inodeAt (s.fs.store dev) b).HasKind .file)
    (hm : m ∈ T.chain P) (get : CStr → NameM Disk Inode) :
    NoError (releaseNode flatStore dev fuel get (inodeAt (s.fs.store dev) b))
      (s.setFs (cleared dev b m j s.fs)) := by
  have hmaps : ∀ q ∈ T.chain b,
      Dev.setSlot (s.fs.store dev) m j inodeNull q = s.fs.store dev q := by
    intro q hq
    refine Dev.setSlot_of_ne ?_
    rintro rfl
    exact h.shaped.map_not_mem hP hm hb hbP hq
  have hown : T.owned (s.fs.store dev) b = fileBlocks (s.fs.store dev) (T.chain b) := by
    rw [Tree.owned, if_neg hkind.not_link_of_file, if_pos (hkind.file.mpr rfl)]
  have hlist := fileBlocks_congr hmaps
  have hgive := giveChain_flat (s := s.setFs (cleared dev b m j s.fs)) fuel
    (h.inUse_cleared hb hP hm) (h.cleared_store hb)
    (((h.shaped.node b hb).chain hkind.not_link_of_file).congr hmaps)
    (by rw [hlist, ← hown]; exact h.shaped.nodup b hb) (by
      rw [hlist, ← hown]
      exact fun x hx => BlockSets.mem_remove.mpr ⟨fun hc => absurd hc.1 (by decide),
        Tree.mem_held_bmap.mpr ⟨b, hb, hx⟩⟩)
  rw [releaseNode, if_pos (hkind.file.mpr rfl)]
  intro e s₁ hrun
  rcases hgive with ⟨hnone, -⟩ | hok
  · rw [hnone] at hrun
    cases hrun
  · rw [hok] at hrun
    cases hrun

/-- **The blocks of a node** are given back, unless the target of a hard link is not found. -/
theorem Stored.releaseNode_error (h : Stored g dev row T s.fs) (hP : P ∈ T.nodes)
    (hb : b ∈ T.nodes) (hbP : b ≠ P) (hm : m ∈ T.chain P) {get : CStr → NameM Disk Inode}
    (hget : ∀ path, KeepsFs (cleared dev b m j s.fs) (get path)) {e : InodeRtvl}
    (hrun : releaseNode flatStore dev fuel get (inodeAt (s.fs.store dev) b)
      (s.setFs (cleared dev b m j s.fs)) = some (.error e, s')) :
    s'.fs = cleared dev b m j s.fs := by
  obtain ⟨k, hk⟩ := (h.shaped.node b hb).kind
  obtain ⟨hfile, hdir, hsym, -⟩ := hk.eq_zero
  cases k with
  | file => exact absurd hrun (h.releaseNode_file_noError hP hb hbP hk hm get e s')
  | dir =>
      rw [releaseNode, if_neg (not_not.mpr (hfile (by decide))), if_pos (hk.dir.mpr rfl)] at hrun
      cases hrun
  | symlink =>
      have hlink : (inodeAt (s.fs.store dev) b).IsLink := Or.inl (hk.symlink.mpr rfl)
      have hown : T.owned (s.fs.store dev) b = [(inodeAt (s.fs.store dev) b).next] := by
        rw [Tree.owned, if_pos hlink]
      have hmem : (inodeAt (s.fs.store dev) b).next ∈ T.held (s.fs.store dev) .bmap := by
        refine Tree.mem_held_bmap.mpr ⟨b, hb, ?_⟩
        rw [hown]
        exact List.mem_singleton_self _
      have hcov := h.inUse.covers hmem
      have huse := h.inUse_cleared (j := j) hb hP hm
      have hgive := @giveBlock_flat _ _ _ _ _ (s.setFs (cleared dev b m j s.fs)) huse.ok hcov
      rw [releaseNode, if_neg (not_not.mpr (hfile (by decide))),
        if_neg (not_not.mpr (hdir (by decide))), if_pos (hk.symlink.mpr rfl),
        if_pos (h.clear.ne_null _ _ hcov), hgive] at hrun
      cases hrun
  | hardlink =>
      rw [releaseNode, if_neg (not_not.mpr (hfile (by decide))),
        if_neg (not_not.mpr (hdir (by decide))), if_neg (not_not.mpr (hsym (by decide))),
        if_pos (hk.hardlink.mpr rfl)] at hrun
      split at hrun
      · rw [Call.bind_of_ok (readLink_flat ..)] at hrun
        rcases Call.bind_eq_error.mp hrun with hrun | ⟨n, s₁, -, hwrite⟩
        · obtain ⟨-, e', hrun⟩ := Call.orFail_eq_error.mp hrun
          exact (hget _).after rfl hrun
        · rw [writeSector_flat] at hwrite
          cases hwrite
      · cases hrun
        rfl

/-- The directory is tidied without an error. -/
theorem Between.fixParent_noError {fs : FsState Disk}
    (h : Between g dev row T (s.fs.store dev) P b m j fs) (hst : Stored g dev row T s.fs)
    (hm : m ∈ T.chain P) :
    NoError (fixParent flatStore dev (inodeAt (s.fs.store dev) P) fuel
      (inodeAt (s.fs.store dev) P).next (inodeAt (s.fs.store dev) P).next) (s.setFs fs) := by
  have hP := h.change.mem
  have hP' := h.change.mem'
  have hsame : inodeAt (Dev.setSlot (s.fs.store dev) m j inodeNull) P = inodeAt (s.fs.store dev) P :=
    inodeAt_setSlot (hst.shaped.map_ne_node hP hm hP)
  obtain ⟨hshown, hnext⟩ := h.copy hsame
  have hdir' : (inodeAt (fs.store dev) P).isDirectory ≠ 0 := by
    rw [← Inode.eq_of_shown hshown Inode.isDirectory fun _ => rfl]
    exact h.change.dir
  have hlinked := (h.stored.shaped.node P hP').linked_dir hdir'
  rw [← hnext] at hlinked
  intro e s₁ hrun
  rcases fixParent_flat (s := s.setFs fs) (inodeAt (s.fs.store dev) P) fuel h.inUse.ok rfl hlinked
    (fun q hq => h.stored.covers_map hP' hq) with
    ⟨hend, -⟩ | ⟨-, hend⟩ | ⟨m', post, -, -, hend⟩ | ⟨pre, q, m', post, -, -, -, hend⟩
  all_goals
    rw [hend] at hrun
    cases hrun

/-- **A removal that fails** has changed nothing, or it has removed a hard link. -/
theorem Stored.free_error (h : Stored g dev row T s.fs)
    (hroot : ∀ b, LeadsTo dev p now fuel cwd path b s → b ≠ g.regionStart .imap) {e : InodeRtvl}
    (hrun : inodeFree flatStore dev p now fuel cwd path none s = some (.error e, s')) :
    s'.fs = s.fs ∨ ∃ b ∈ T.nodes, (inodeAt (s.fs.store dev) b).parent ≠ b ∧
      ∃ P T', Unlinked g dev row T T' P b s.fs s'.fs := by
  have hreq : ∀ {c : Prop} [Decidable c] {e₀ : InodeRtvl} {α : Type} {f : Unit → NameM Disk α}
      {r : Except InodeRtvl α}, (Call.require c e₀ >>= f) s = some (r, s') →
      s' = s ∨ c ∧ f () s = some (r, s') := by
    intro c _ e₀ α f r hf
    rw [Call.require_bind_apply] at hf
    split at hf
    · exact Or.inr ⟨by assumption, hf⟩
    · cases hf
      exact Or.inl rfl
  rw [inodeFree] at hrun
  rcases hreq hrun with rfl | ⟨-, hrun₁⟩
  · exact Or.inl rfl
  rcases Call.bind_eq_error.mp hrun₁ with hget | ⟨n, s₁, hget, hrun₂⟩
  · have hkeep : KeepsFs s.fs (inodeGet flatStore dev p now fuel cwd path false .dontCheckPerms) :=
      keepsFs_inodeGet h.inUse.ok.rootBlock_eq h.shaped.rootName fuel cwd path false .dontCheckPerms
    exact Or.inl (hkeep.after rfl hget)
  obtain ⟨hs₁, b, hb, hn⟩ := h.inodeGet_ok hget
  rw [hs₁, hn] at hrun₂ hget
  have hlead : LeadsTo dev p now fuel cwd path b s := hget
  rcases hreq hrun₂ with rfl | ⟨hfull, hrun₃⟩
  · exact Or.inl rfl
  rcases hreq hrun₃ with rfl | ⟨-, hrun₄⟩
  · exact Or.inl rfl
  right
  -- From here on the entry is found and cleared.
  have hokb := h.shaped.node b hb
  have hleaf : (inodeAt (s.fs.store dev) b).isDirectory ≠ 0 → T.chain b = [] := by
    intro hbdir
    refine (hokb.linked_dir hbdir).nil_iff.mp ?_
    by_contra hne
    exact hfull ⟨rfl, hbdir, hne⟩
  have hP := hokb.parent
  have hdir := hokb.parentDir
  have hentry := hokb.listed (hroot b hlead)
  have hself : (inodeAt (s.fs.store dev) b).parent ≠ b :=
    h.shaped.parent_ne_leaf (hroot b hlead) hleaf hb
  have hokP := h.shaped.node _ hP
  obtain ⟨hb0, m, hm, j, hj⟩ := hentry
  have hchange := h.shaped.remove hP hdir hm hj hb0 hleaf
  have hclear := h.stored_cleared hP hdir hm hb hchange
  rw [Call.bind_of_ok (readInode_flat ..), Call.bind_of_ok (readInode_flat ..), hokb.self] at hrun₄
  rcases findEntry_flat fuel (hokP.linked_dir hdir) (hokP.distinct hdir) hm hj hb0 with
    ⟨hnone, -⟩ | hfind
  · rw [Call.bind_of_none hnone] at hrun₄
    cases hrun₄
  rw [Call.bind_of_ok hfind, Call.bind_of_ok (giveBlock_flat h.inUse.ok (h.covers_node hb)),
    Call.bind_of_ok (writeSector_flat ..), Names.write_eq, Names.setFs_fs, Names.setFs_setFs] at hrun₄
  have hcleared : (freed dev .imap b s.fs).write dev m
      (BlockMap.layout ((mapAt (s.fs.store dev) m).setSlot j inodeNull)) =
      cleared dev b m j s.fs := rfl
  simp only [hcleared] at hrun₄
  refine ⟨b, hb, hself, (inodeAt (s.fs.store dev) b).parent, T.remove b, ?_⟩
  rcases Call.bind_eq_error.mp hrun₄ with hrel | ⟨u, s₂, hrel, hfix⟩
  · have hfs := h.releaseNode_error hP hb hself.symm hm (fun path =>
      keepsFs_inodeGet hclear.inUse.ok.rootBlock_eq hclear.shaped.rootName fuel cwd path false .rw) hrel
    rw [hfs]
    refine ⟨hclear, rfl, fun c hc => ?_, fun c hc hcP => ?_⟩
    · rw [h.cleared_store hb]
      exact hchange.shown_eq (Finset.mem_of_mem_erase hc) hc
    · rw [h.cleared_store hb]
      exact hchange.kept c hc (Finset.mem_of_mem_erase hc) hcP
  · obtain ⟨fs, hs₂, hreleased⟩ := h.releaseNode_ok hb hP hm hself.symm hleaf rfl
      (h.endsAtNode hP hdir hm hb hchange) hrel
    have hbet := hreleased.between h hb hP hdir hm hchange
    rw [hs₂, Names.setFs_setFs] at hfix
    rcases Call.bind_eq_error.mp hfix with hfix | ⟨u', s₃, -, hend⟩
    · exact absurd hfix (hbet.fixParent_noError h hm e s')
    · cases hend

/-- **What a removal does**: nothing, or the node is gone. -/
theorem Stored.free_outcome (h : Stored g dev row T s.fs)
    (hroot : ∀ b, LeadsTo dev p now fuel cwd path b s → b ≠ g.regionStart .imap ∧
      ∀ ms, Linked (s.fs.store dev)
        (inodeAt (s.fs.store dev) (inodeAt (s.fs.store dev) b).parent).next ms →
        ¬ HeadEmptied (s.fs.store dev) b ms)
    (hrun : inodeFree flatStore dev p now fuel cwd path none s = some (r, s')) :
    s'.fs = s.fs ∨ ∃ b ∈ T.nodes, (inodeAt (s.fs.store dev) b).parent ≠ b ∧
      ∃ P T', Unlinked g dev row T T' P b s.fs s'.fs := by
  cases r with
  | error e => exact h.free_error (fun b hb => (hroot b hb).1) hrun
  | ok u =>
      right
      have hrun₁ := hrun
      rw [inodeFree] at hrun₁
      obtain ⟨-, hrun₂⟩ := Call.require_bind_eq_ok.mp hrun₁
      obtain ⟨n, s₁, hget, -⟩ := Call.bind_eq_ok.mp hrun₂
      obtain ⟨hs₁, b, hb, hn⟩ := h.inodeGet_ok hget
      rw [hs₁, hn] at hget
      have hlead : LeadsTo dev p now fuel cwd path b s := hget
      have hokb := h.shaped.node b hb
      have hP := hokb.parent
      have hdir := hokb.parentDir
      obtain ⟨hne, hhead⟩ := hroot b hlead
      have hentry := hokb.listed hne
      obtain ⟨T', hun⟩ := h.unlink_good hP hdir hentry hlead hrun
        (hhead _ ((h.shaped.node _ hP).linked_dir hdir))
      exact ⟨b, hb, h.ne_of_freed hP hdir hentry hlead hrun, _, T', hun⟩

end Free

/-! ## Runs -/

section Runs
variable (g : Shape) (dev : DevNo) (row : Fin inodeNrDev)

/-- The rules that a call keeps to. -/
def PathCall.Orderly (s : Names Disk) : PathCall → Prop
  | .inodeGet dev' _ _ _ _ _ _ _ => dev' = dev
  | .inodeCreate dev' _ _ _ _ _ a =>
    dev' = dev ∧ ∃ k, a.mode.kind = some k ∧ RoomFor g dev row k s.fs
  | .inodeFree dev' p now fuel cwd path newnode =>
    dev' = dev ∧ newnode = none ∧
      ∀ b, LeadsTo dev p now fuel cwd path b s → b ≠ g.regionStart .imap ∧
        ∀ ms, Linked (s.fs.store dev)
          (inodeAt (s.fs.store dev) (inodeAt (s.fs.store dev) b).parent).next ms →
          ¬ HeadEmptied (s.fs.store dev) b ms

/-- The runs from a given state. -/
def volumeRuns (s₀ : Names Disk) : System (Names Disk) PathCall where
  init s := s = s₀
  step c s s' := c.run flatStore s = some s'

variable {g dev row} {T T₀ : Tree} {s s' s₀ : Names Disk}

/-- A call that returns. -/
theorem run_eq_some {α : Type} {x : NameM Disk α} (h : (x s).map Prod.snd = some s') :
    ∃ r, x s = some (r, s') := by
  obtain ⟨⟨r, s₁⟩, hx, rfl⟩ := Option.map_eq_some_iff.mp h
  exact ⟨r, hx⟩

/-- **One call** leaves a tree below its root, and makes one step in the name space. -/
theorem PathCall.Orderly.step {c : PathCall} (hc : c.Orderly g dev row s)
    (h : Connected g dev row T s.fs) (hg : g.Disjoint) (hrun : c.run flatStore s = some s') :
    (∃ T', Connected g dev row T' s'.fs) ∧
      Space.Step .dir (volumeSpace (g.regionStart .imap) (s.fs.store dev))
        (volumeSpace (g.regionStart .imap) (s'.fs.store dev)) := by
  have hsame : s'.fs = s.fs → (∃ T', Connected g dev row T' s'.fs) ∧
      Space.Step .dir (volumeSpace (g.regionStart .imap) (s.fs.store dev))
        (volumeSpace (g.regionStart .imap) (s'.fs.store dev)) := by
    intro hfs
    rw [hfs]
    exact ⟨⟨T, h⟩, .same⟩
  cases c with
  | inodeGet dev' p now fuel cwd path doReadlink mode =>
      obtain rfl := hc
      obtain ⟨r, hrun⟩ := run_eq_some hrun
      have hkeep : KeepsFs s.fs (Fs.inodeGet flatStore dev' p now fuel cwd path doReadlink mode) :=
        keepsFs_inodeGet h.inUse.ok.rootBlock_eq h.shaped.rootName fuel cwd path doReadlink mode
      exact hsame (hkeep.after rfl hrun)
  | inodeCreate dev' p now fuel cwd path a =>
      obtain ⟨rfl, k, hk, hroom⟩ := hc
      obtain ⟨r, hrun⟩ := run_eq_some hrun
      rcases h.create_outcome hg hk hroom hrun with hfs | ⟨-, P, e, ms, name, hP, hdir, hmade⟩
      · exact hsame hfs
      · obtain ⟨names, hmakes⟩ := hmade.makes h hP hdir
        exact ⟨⟨_, hmade.connected h hP hdir⟩, .makes hmakes⟩
  | inodeFree dev' p now fuel cwd path newnode =>
      obtain ⟨rfl, rfl, hroot⟩ := hc
      obtain ⟨r, hrun⟩ := run_eq_some hrun
      rcases h.free_outcome hroot hrun with hfs | ⟨b, hb, hself, P, T', hun⟩
      · exact hsame hfs
      · obtain ⟨names, hdrops⟩ := hun.drops h hb hself
        exact ⟨⟨T', hun.connected h hb hself⟩, .drops hdrops⟩

/-- **A run** leaves a tree below its root, and makes one step after the other in the name
space. -/
theorem Connected.run (h₀ : Connected g dev row T₀ s₀.fs) (hg : g.Disjoint)
    (h : (volumeRuns s₀).Reach (fun s c => c.Orderly g dev row s) s) :
    (∃ T, Connected g dev row T s.fs) ∧
      Relation.ReflTransGen (Space.Step .dir)
        (volumeSpace (g.regionStart .imap) (s₀.fs.store dev))
        (volumeSpace (g.regionStart .imap) (s.fs.store dev)) := by
  refine System.Reach.invariant (P := fun s => (∃ T, Connected g dev row T s.fs) ∧
    Relation.ReflTransGen (Space.Step .dir)
      (volumeSpace (g.regionStart .imap) (s₀.fs.store dev))
      (volumeSpace (g.regionStart .imap) (s.fs.store dev))) ?_ ?_ h
  · rintro s rfl
    exact ⟨⟨T₀, h₀⟩, .refl⟩
  · rintro s c s' ⟨⟨T, hT⟩, hsteps⟩ hc hrun
    obtain ⟨hT', hstep⟩ := hc.step hT hg hrun
    exact ⟨hT', hsteps.tail hstep⟩

/-- **The name space over runs.** After every run of orderly calls the volume holds a tree below
its root, and its name space comes from the one at the start by making and dropping single
entries: what is at a path is in a directory. -/
theorem name_space_runs (h₀ : Connected g dev row T₀ s₀.fs) (hg : g.Disjoint)
    (h : (volumeRuns s₀).Reach (fun s c => c.Orderly g dev row s) s) :
    (∃ T, Connected g dev row T s.fs) ∧
      Relation.ReflTransGen (Space.Step .dir)
        (volumeSpace (g.regionStart .imap) (s₀.fs.store dev))
        (volumeSpace (g.regionStart .imap) (s.fs.store dev)) ∧
      (volumeSpace (g.regionStart .imap) (s.fs.store dev)).Closed .dir := by
  have hrun := h₀.run hg h
  refine ⟨hrun.1, hrun.2, ?_⟩
  have hclosed := h₀.sound.closed
  rw [← h₀.shaped.volumeSpace_eq] at hclosed
  exact hclosed.run hrun.2

end Runs

/-! ## System calls -/

/-- A system call that makes a directory or removes a node, with the rounds and the time of
its path function. -/
inductive NameCall
  | kmkdir (fuel : ℕ) (now : BlockNo) (path : CStr) (mode : UInt32)
  | krmdir (fuel : ℕ) (now : BlockNo) (path : CStr)
  | kunlink (fuel : ℕ) (now : BlockNo) (path : CStr)

namespace NameCall
variable {σ : Type} (L : BlockLayer σ)

/-- Make a call. -/
def exec (s : Sys σ) : NameCall → Option (Int32 × Sys σ)
  | .kmkdir fuel now path mode => Fs.kmkdir L fuel now path mode s
  | .krmdir fuel now path => Fs.krmdir L fuel now path s
  | .kunlink fuel now path => Fs.kunlink L fuel now path s

/-- The path function that a call comes to. -/
def pathCall (s : Sys σ) : NameCall → PathCall
  | .kmkdir fuel now path mode =>
    .inodeCreate (masterGetDev s) s.proc.cred now fuel s.proc.cwd path
      ⟨.createDir, mode, s.proc.umask, s.proc.group, s.proc.owner, none⟩
  | .krmdir fuel now path | .kunlink fuel now path =>
    .inodeFree (masterGetDev s) s.proc.cred now fuel s.proc.cwd path none

/-- The runs of a process from a given state. -/
def system (s₀ : Sys σ) : System (Sys σ) NameCall where
  init s := s = s₀
  step c s s' := ∃ r, c.exec L s = some (r, s')

variable {L} {s s' : Sys σ} {r : Int32}

/-- A path function is called, and its result turned into a number. -/
theorem run_of_call {α : Type} {x : NameM σ α}
    {f : Except InodeRtvl α × Sys σ → Option (Int32 × Sys σ)} (hf : ∀ a, ∃ i, f a = some (i, a.2))
    (h : (s.call x).bind f = some (r, s')) : (x s.toNames).map Prod.snd = some s'.toNames := by
  obtain ⟨a, hcall, ha⟩ := Option.bind_eq_some_iff.mp h
  obtain ⟨i, hi⟩ := hf a
  obtain rfl : a.2 = s' := (Prod.mk.inj (Option.some.inj (hi.symm.trans ha))).2
  obtain ⟨b, hb, rfl⟩ := Option.map_eq_some_iff.mp hcall
  rw [hb]
  rfl

/-- **A system call does what its path function does.** -/
theorem exec_run {c : NameCall} (h : c.exec L s = some (r, s')) :
    (c.pathCall s).run L s.toNames = some s'.toNames := by
  cases c with
  | kmkdir fuel now path mode =>
      refine run_of_call ?_ h
      rintro ⟨_ | _, t⟩
      · exact ⟨-1, rfl⟩
      · exact ⟨0, rfl⟩
  | krmdir fuel now path =>
      refine run_of_call ?_ h
      rintro ⟨_ | _, t⟩
      · exact ⟨-1, rfl⟩
      · exact ⟨0, rfl⟩
  | kunlink fuel now path =>
      refine run_of_call ?_ h
      rintro ⟨_ | _, t⟩
      · exact ⟨-1, rfl⟩
      · exact ⟨0, rfl⟩

end NameCall

/-- **The name space over the system calls** of a process: after every run of calls that keep to
the rules the volume holds a tree below its root, and its name space comes from the one at the
start by making and dropping single entries. -/
theorem nameCalls_run {g : Shape} {dev : DevNo} {row : Fin inodeNrDev} {T₀ : Tree}
    {s₀ s : Sys Disk} (h₀ : Connected g dev row T₀ s₀.fs) (hg : g.Disjoint)
    (h : (NameCall.system flatStore s₀).Reach
      (fun s c => (c.pathCall s).Orderly g dev row s.toNames) s) :
    (∃ T, Connected g dev row T s.fs) ∧
      Relation.ReflTransGen (Space.Step .dir)
        (volumeSpace (g.regionStart .imap) (s₀.fs.store dev))
        (volumeSpace (g.regionStart .imap) (s.fs.store dev)) := by
  have hruns : (volumeRuns s₀.toNames).Reach (fun s c => c.Orderly g dev row s) s.toNames := by
    refine h.map Sys.toNames ?_ ?_
    · rintro s rfl
      rfl
    · rintro s c s' hc ⟨r, hrun⟩
      exact ⟨c.pathCall s, hc, NameCall.exec_run hrun⟩
  exact h₀.run hg hruns

theorem emptyVolume_connected :
    Connected (volumeShape (5242880 / 512)) 0 0 (leafTree []) emptyVolume := by
  refine ⟨emptyVolume_stored, fun b hb => ⟨[], ?_⟩⟩
  obtain rfl : b = 4100 := (Finset.mem_insert.mp hb).resolve_right (List.not_mem_nil)
  rw [shape_10240.1]
  exact .root

/-- A file is made in the root directory of an empty volume. -/
theorem name_space_runs_file :
    ∃ s, (volumeRuns ⟨emptyVolume, 0⟩).step
        (.inodeCreate 0 ⟨0, 0⟩ 0 1 4100 [slash, 120] emptyFile) ⟨emptyVolume, 0⟩ s ∧
      Relation.ReflTransGen (Space.Step .dir) (volumeSpace 4100 (emptyVolume.store 0))
        (volumeSpace 4100 (s.fs.store 0)) ∧
      (volumeSpace 4100 (s.fs.store 0)).Closed .dir := by
  have hst : Stored (volumeShape (5242880 / 512)) 0 0 (leafTree [])
      (⟨emptyVolume, 0⟩ : Names Disk).fs := emptyVolume_stored
  have hrwx : inodeCheckPermissions (inodeAt (emptyVolume.store 0) 4100) ⟨0, 0⟩ .rwx := by
    rw [emptyVolume, leavesOk_nil.root]
    decide
  obtain ⟨s, hrun⟩ := hst.create_returns (a := emptyFile) emptyVolume_createsIn (by decide)
    (by decide) hrwx emptyVolume_new (Or.inl rfl) rfl emptyVolume_room
  have hstep : (volumeRuns ⟨emptyVolume, 0⟩).step
      (.inodeCreate 0 ⟨0, 0⟩ 0 1 4100 [slash, 120] emptyFile) ⟨emptyVolume, 0⟩ s := by
    show Option.map Prod.snd (inodeCreate flatStore 0 ⟨0, 0⟩ 0 1 4100 [slash, 120] emptyFile _) = _
    rw [hrun]
    rfl
  have horderly : (PathCall.inodeCreate 0 ⟨0, 0⟩ 0 1 4100 [slash, 120] emptyFile).Orderly
      (volumeShape (5242880 / 512)) 0 0 ⟨emptyVolume, 0⟩ := ⟨rfl, .file, rfl, emptyVolume_room⟩
  have hinit : (volumeRuns ⟨emptyVolume, 0⟩).init ⟨emptyVolume, 0⟩ := rfl
  have hreach : (volumeRuns ⟨emptyVolume, 0⟩).Reach
      (fun s c => c.Orderly (volumeShape (5242880 / 512)) 0 0 s) s :=
    .step (.init hinit) horderly hstep
  have hst₀ : Connected (volumeShape (5242880 / 512)) 0 0 (leafTree [])
      (⟨emptyVolume, 0⟩ : Names Disk).fs := emptyVolume_connected
  obtain ⟨-, hsteps, hclosed⟩ :=
    name_space_runs hst₀ (volumeShape_disjoint (by decide) (by decide)) hreach
  rw [shape_10240.1] at hsteps hclosed
  exact ⟨s, hstep, hsteps, hclosed⟩

end OxKernel.Fs
