import OxKernel.Fs.CreateRoom

/-!
# The directory after a creation

A creation leaves a tree with one more node in the directory that the path leads to, and a
lookup of the path ends at the new node, with one exception. The bitmaps number up to 512 blocks
for every map block, whatever the size of the volume, so on a small volume an inode block can be
one of the data region. If such a block is in use there, the new inode is written over it.

## Main definitions

* `Created` — the tree with the new node.
* `Apart` — the blocks that the maps hand out next are in use for nothing else.
* `CreateLaw` — what a creation is to do.
-/
namespace OxKernel.Fs

open Lib (Call)

section Defs
variable (g : Shape) (dev : DevNo) (row : Fin inodeNrDev) (T : Tree) (P : BlockNo)

/-- The directory `P` has another entry `e`, in a slot that was empty or in a new block map, and
the volume stores the tree with it. The blocks that belong to the tree now and did not before
were free, and they are the only ones that have been allocated. -/
structure Created (e : BlockNo) (ms : List BlockNo) (k : NodeKind) (name : CStr)
    (fs fs' : FsState Disk) : Prop where
  grown : Grown T P e ms k name (fs.store dev) (fs'.store dev)
  stored : Stored g dev row (T.grow P ms e) fs'
  free : ∀ κ, ∀ b ∈ (T.grow P ms e).held (fs'.store dev) κ, b ∉ T.held (fs.store dev) κ →
    recorded g dev row fs κ b = 0
  record : ∀ κ b, g.Covers κ b → recorded g dev row fs' κ b =
    if b ∈ (T.grow P ms e).held (fs'.store dev) κ ∧ b ∉ T.held (fs.store dev) κ then 1
    else recorded g dev row fs κ b

/-- The blocks that the maps hand out next to a creation in `P` are in use for nothing else. -/
def Apart (k : NodeKind) (fs : FsState Disk) : Prop :=
  ∀ i ∈ handed .imap dev 1 fs, i ∉ T.held (fs.store dev) .bmap ∧
    ∀ m ∈ handed .bmap dev (mapsNeeded (fs.store dev) (T.chain P) + k.links) fs,
      m ∉ T.nodes ∧ m ≠ i

/-- What a creation is to do: there is one more node, and a lookup of the path that does not
follow a link at its end finds it, given enough rounds. -/
def CreateLaw (p : Cred) (cwd : BlockNo) (path : CStr) (k : NodeKind) (name : CStr)
    (s s' : Names Disk) : Prop :=
  ∃ e ms, Created g dev row T P e ms k name s.fs s'.fs ∧
    ∃ rounds, ∀ fuel now, rounds ≤ fuel →
      inodeGet flatStore dev p now fuel cwd path false .dontCheckPerms s' =
        some (.ok (inodeAt (s'.fs.store dev) e), s')

end Defs

section Law
variable {g : Shape} {dev : DevNo} {row : Fin inodeNrDev} {T : Tree} {s s' : Names Disk}
  {p : Cred} {now cwd P e : BlockNo} {fuel : ℕ} {path name : CStr} {names : List CStr}
  {a : NewNode} {k : NodeKind} {u : Unit} {ms ext lnk : List BlockNo} {d₁ d' : Dev}
  {fs fs' : FsState Disk} {r : Except InodeRtvl Unit}

/-- The blocks that a map numbers are outside the maps. -/
theorem Outside.eq_of_covers {d : Dev} (h : Outside g d d') (hclear : g.Clear) {κ : MapKind}
    {b : BlockNo} (hb : g.Covers κ b) : d' b = d b :=
  h b (hclear.ne_master κ b hb) (hclear.not_map κ b hb)

/-! ## The blocks that a creation takes -/

namespace CreateRun

theorem handed_eq (h : CreateRun g dev row T P k name e ext lnk d₁ d' fs fs') :
    handed .imap dev 1 fs = [e] ∧
      handed .bmap dev (mapsNeeded (fs.store dev) (T.chain P) + k.links) fs = ext ++ lnk := by
  have hlen : mapsNeeded (fs.store dev) (T.chain P) + k.links = (ext ++ lnk).length := by
    rw [List.length_append, h.extLength, h.linkLength]
  rw [hlen]
  exact ⟨h.progress.handed_imap, h.progress.handed_bmap⟩

/-- What is taken was not in use before. -/
theorem not_held (h : CreateRun g dev row T P k name e ext lnk d₁ d' fs fs')
    (hst : Stored g dev row T fs) {κ : MapKind} {b : BlockNo}
    (hb : b ∈ draws [e] (ext ++ lnk) κ) : b ∉ T.held (fs.store dev) κ := by
  intro hmem
  have h0 := (h.progress.free κ b hb).2
  rw [hst.inUse.recorded_eq hmem] at h0
  cases h0

/-- The condition says that they are in use for nothing else. -/
theorem apart_iff (h : CreateRun g dev row T P k name e ext lnk d₁ d' fs fs') :
    Apart dev T P k fs ↔
      e ∉ T.held (fs.store dev) .bmap ∧ ∀ m ∈ ext ++ lnk, m ∉ T.nodes ∧ m ≠ e := by
  rw [Apart, h.handed_eq.1, h.handed_eq.2]
  exact List.forall_mem_singleton

theorem newBlocks (h : CreateRun g dev row T P k name e ext lnk d₁ d' fs fs')
    (hst : Stored g dev row T fs) (hap : Apart dev T P k fs) :
    NewBlocks T (fs.store dev) e ext lnk := by
  obtain ⟨he, hdata⟩ := h.apart_iff.mp hap
  have hnot : ∀ κ, ∀ b ∈ draws [e] (ext ++ lnk) κ, b ∉ T.held (fs.store dev) κ :=
    fun κ b hb => h.not_held hst hb
  refine ⟨⟨hnot .imap e (List.mem_singleton_self e), fun c hc hec => ?_⟩, fun m hm => ?_,
    h.progress.nodup .bmap⟩
  · exact he (Tree.mem_held_bmap.mpr ⟨c, hc, hec⟩)
  · refine ⟨⟨(hdata m hm).1, fun c hc hmc => ?_⟩, (hdata m hm).2, ?_⟩
    · exact hnot .bmap m hm (Tree.mem_held_bmap.mpr ⟨c, hc, hmc⟩)
    · exact hst.clear.ne_null .bmap m (h.data m hm)

/-! ## The tree with the new node -/

/-- The new inode, on the device. -/
theorem nodeMade (h : CreateRun g dev row T P k name e ext lnk d₁ d' fs fs')
    (hst : Stored g dev row T fs) : NodeMade e P k name lnk (inodeAt (fs'.store dev) e) := by
  rw [inodeAt, h.progress.device.eq_of_covers hst.clear h.node]
  exact h.made

/-- **The directory and the new node**, on the device. -/
theorem grown (h : CreateRun g dev row T P k name e ext lnk d₁ d' fs fs')
    (hst : Stored g dev row T fs) (hP : P ∈ T.nodes)
    (hdir : (inodeAt (fs.store dev) P).isDirectory ≠ 0) (hap : Apart dev T P k fs) :
    Grown T P e (T.chain P ++ ext) k name (fs.store dev) (fs'.store dev) ∧
      Grown.OwnBlocks T P e (T.chain P ++ ext) (fs.store dev) (fs'.store dev) := by
  have hnew := h.newBlocks hst hap
  have hdev : ∀ κ b, g.Covers κ b → fs'.store dev b = d' b := fun κ b hb =>
    h.progress.device.eq_of_covers hst.clear hb
  have hlnk : ∀ b ∈ lnk, T.Unused (fs.store dev) b := fun b hb =>
    (hnew.data b (List.mem_append_right _ hb)).1
  refine h.planted.grown hst.shaped hP hdir hnew (h.nodeMade hst) (fun c hc => ?_) (fun c hc m hm => ?_)
    fun m hm => ?_
  · rw [hdev .imap c (hst.covers_node hc)]
    refine h.other c ?_ fun hcl => (hlnk c hcl).node hc
    rintro rfl
    exact hnew.node.node hc
  · rw [hdev .bmap m (hst.inUse.covers (Tree.mem_held_bmap.mpr ⟨c, hc, hm⟩))]
    refine h.other m ?_ fun hml => (hlnk m hml).owned c hc hm
    rintro rfl
    exact hnew.node.owned c hc hm
  · have hmem := List.mem_append_left lnk hm
    rw [hdev .bmap m (h.data m hmem)]
    exact h.other m (hnew.data m hmem).2.1 fun hml =>
      (List.nodup_append.mp hnew.nodup).2.2 m hm m hml rfl

/-- The blocks of the tree afterwards. -/
theorem mem_held_grow (h : CreateRun g dev row T P k name e ext lnk d₁ d' fs fs')
    (hst : Stored g dev row T fs) (hP : P ∈ T.nodes)
    (hdir : (inodeAt (fs.store dev) P).isDirectory ≠ 0) (hap : Apart dev T P k fs) {κ : MapKind}
    {b : BlockNo} :
    b ∈ (T.grow P (T.chain P ++ ext) e).held (fs'.store dev) κ ↔
      b ∈ T.held (fs.store dev) κ ∨ b ∈ draws [e] (ext ++ lnk) κ := by
  obtain ⟨hgrown, hown⟩ := h.grown hst hP hdir hap
  cases κ with
  | imap =>
      have hset : b ∈ (T.grow P (T.chain P ++ ext) e).held (fs'.store dev) .imap ↔
          b ∈ insert e T.nodes := Iff.rfl
      rw [hset, Finset.mem_insert, or_comm]
      exact or_congr Iff.rfl List.mem_singleton.symm
  | bmap =>
      have hlink : ∀ m ∈ lnk, (inodeAt (fs'.store dev) e).IsLink ∧
          lnk = [(inodeAt (fs'.store dev) e).next] := by
        intro m hm
        by_cases hl : (inodeAt (fs'.store dev) e).IsLink
        · exact ⟨hl, (h.nodeMade hst).link hl⟩
        · rw [((h.nodeMade hst).next hl).1] at hm
          cases hm
      constructor
      · intro hb
        obtain ⟨c, hc, hbc⟩ := Tree.mem_held_bmap.mp hb
        rcases Finset.mem_insert.mp hc with rfl | hcT
        · right
          obtain ⟨hl, rfl⟩ := Tree.mem_owned_new hbc
          refine List.mem_append_right ext ?_
          rw [(h.nodeMade hst).link hl]
          exact List.mem_singleton_self _
        · rcases hgrown.mem_owned_old hst.shaped hP hdir hown hcT hbc with hbc | ⟨-, hb, hfree, -⟩
          · exact Or.inl (Tree.mem_held_bmap.mpr ⟨c, hcT, hbc⟩)
          · right
            refine List.mem_append_left lnk ((List.mem_append.mp hb).resolve_left fun hbP => ?_)
            exact hfree.owned P hP ((hst.shaped.node P hP).chain_subset b hbP)
      · rintro (hb | hb)
        · obtain ⟨c, hc, hbc⟩ := Tree.mem_held_bmap.mp hb
          exact Tree.mem_held_bmap.mpr ⟨c, Finset.mem_insert_of_mem hc,
            hgrown.owned_subset hst.shaped hP hdir hc hbc⟩
        · refine Tree.mem_held_bmap.mpr ?_
          rcases List.mem_append.mp hb with hb | hb
          · refine ⟨P, Finset.mem_insert_of_mem hP, ?_⟩
            rw [hgrown.owned_dir hst.shaped hP hdir]
            exact List.mem_append_right _ hb
          · obtain ⟨hl, hlnk⟩ := hlink b hb
            refine ⟨e, Finset.mem_insert_self e _, ?_⟩
            rw [Tree.grow_owned_new, if_pos hl, ← hlnk]
            exact hb

/-- **The tree with the new node is stored**, if the new blocks are in use for nothing else. -/
theorem created (h : CreateRun g dev row T P k name e ext lnk d₁ d' fs fs')
    (hst : Stored g dev row T fs) (hP : P ∈ T.nodes)
    (hdir : (inodeAt (fs.store dev) P).isDirectory ≠ 0)
    (hname : ∀ y, HasEntry (fs.store dev) (T.chain P) y → (inodeAt (fs.store dev) y).name ≠ name)
    (hap : Apart dev T P k fs) :
    Created g dev row T P e (T.chain P ++ ext) k name fs fs' := by
  obtain ⟨hgrown, hown⟩ := h.grown hst hP hdir hap
  have hmem : ∀ κ b, b ∈ (T.grow P (T.chain P ++ ext) e).held (fs'.store dev) κ ↔
      b ∈ T.held (fs.store dev) κ ∨ b ∈ draws [e] (ext ++ lnk) κ := fun κ b =>
    h.mem_held_grow hst hP hdir hap
  have hchange := hgrown.change hst.shaped hP hdir (hst.clear.ne_null .imap e h.node) hname hown
  refine ⟨hgrown, ⟨hst.clear, hchange.shaped hst.shaped, ?_⟩, fun κ b hb hold => ?_, fun κ b hb => ?_⟩
  · refine h.progress.inUse.mono fun κ b hb => ?_
    rw [Finset.mem_union, List.mem_toFinset]
    exact (hmem κ b).mp hb
  · exact (h.progress.free κ b (((hmem κ b).mp hb).resolve_left hold)).2
  · rw [h.progress.record κ b hb]
    refine if_congr ⟨fun hd => ⟨(hmem κ b).mpr (Or.inr hd), h.not_held hst hd⟩, fun hd => ?_⟩ rfl rfl
    exact ((hmem κ b).mp hd.1).resolve_left hd.2

/-- The blocks of a stored tree with a new node are apart. -/
theorem apart_of_created (h : CreateRun g dev row T P k name e ext lnk d₁ d' fs fs')
    (hst : Stored g dev row T fs) (hP : P ∈ T.nodes)
    (hdir : (inodeAt (fs.store dev) P).isDirectory ≠ 0) {e' : BlockNo}
    (hc : Created g dev row T P e' ms k name fs fs') : Apart dev T P k fs := by
  -- What has been taken is recorded, so it belongs to the tree.
  have hheld : ∀ κ, ∀ b ∈ draws [e] (ext ++ lnk) κ,
      b ∈ (T.grow P ms e').held (fs'.store dev) κ := by
    intro κ b hb
    obtain ⟨hcov, hfree⟩ := h.progress.free κ b hb
    have hrec := hc.record κ b hcov
    rw [h.progress.record κ b hcov, if_pos hb, hfree] at hrec
    by_contra hnot
    rw [if_neg fun hin => hnot hin.1] at hrec
    cases hrec
  have hsep := hc.stored.shaped.toSeparate
  have he : e ∈ (T.grow P ms e').nodes := hheld .imap e (List.mem_singleton_self e)
  refine h.apart_iff.mpr ⟨fun hmem => ?_, fun m hm => ?_⟩
  · obtain ⟨c, hcT, hec⟩ := Tree.mem_held_bmap.mp hmem
    exact hsep.apart c (Finset.mem_insert_of_mem hcT) e he
      (hc.grown.owned_subset hst.shaped hP hdir hcT hec)
  · obtain ⟨c, hcT, hmc⟩ := Tree.mem_held_bmap.mp (hheld .bmap m hm)
    refine ⟨fun hmT => hsep.apart c hcT m (Finset.mem_insert_of_mem hmT) hmc, ?_⟩
    rintro rfl
    exact hsep.apart c hcT m he hmc

end CreateRun

/-! ## The lookup of the new node -/

/-- Who may do everything may search. -/
theorem inodeCheckPermissions_rx_of_rwx {n : Inode} (h : inodeCheckPermissions n p .rwx) :
    inodeCheckPermissions n p .rx := by
  have hgrant : ∀ {r w x : UInt8}, InodeMode.rwx.Grants r w x → InodeMode.rx.Grants r w x :=
    fun h => ⟨h.1, h.2.2⟩
  rcases h with h | ⟨howner, h⟩ | ⟨hgroup, h⟩ | h
  · cases h
  · exact Or.inr (Or.inl ⟨howner, hgrant h⟩)
  · exact Or.inr (Or.inr (Or.inl ⟨hgroup, hgrant h⟩))
  · exact Or.inr (Or.inr (Or.inr (hgrant h)))

namespace Created
variable {n : Names Disk}

/-- What the volume showed it still shows. -/
theorem view (hc : Created g dev row T P e ms k name fs fs') (hst : Stored g dev row T fs)
    (hP : P ∈ T.nodes) (hdir : (inodeAt (fs.store dev) P).isDirectory ≠ 0) :
    View (g.regionStart .imap) T.nodes (T.grow P ms e).maxLength (fs.store dev) (fs'.store dev) where
  root_mem := hst.shaped.rootMem
  root_name := hst.shaped.rootName
  self b hb := (hst.shaped.node b hb).self
  parent b hb := (hst.shaped.node b hb).parent
  shown _ hb := hc.grown.shown hb
  link b hb hl := by
    have hbP : b ≠ P := by
      rintro rfl
      obtain ⟨κ, hκ⟩ := (hst.shaped.node b hb).kind
      exact (hκ.not_link_of_dir hdir).1 hl
    have hnext : (inodeAt (fs.store dev) b).next ∈ T.owned (fs.store dev) b := by
      rw [Tree.owned, if_pos hl]
      exact List.mem_singleton_self _
    rw [hc.grown.inode_eq hb hbP]
    exact ⟨rfl, (hc.grown.kept b hb hbP).2 _ hnext⟩
  dir b hb hbdir := by
    have hold := hst.shaped.node b hb
    have hb' : b ∈ (T.grow P ms e).nodes := Finset.mem_insert_of_mem hb
    have hnew := hc.stored.shaped.node b hb'
    have hbdir' : (inodeAt (fs'.store dev) b).isDirectory ≠ 0 := by
      rw [Inode.eq_of_shown (hc.grown.shown hb) Inode.isDirectory fun _ => rfl]
      exact hbdir
    refine ⟨T.chain b, (T.grow P ms e).chain b, hold.linked_dir hbdir, hnew.linked_dir hbdir',
      Tree.length_le hb', fun x y hy => ?_⟩
    obtain ⟨hentry, hx⟩ := namedEntry_some hy
    obtain ⟨hyT, hpar, hroot⟩ := hold.entries hbdir y hentry
    refine ⟨hyT, ?_⟩
    have hentry' : HasEntry (fs'.store dev) ((T.grow P ms e).chain b) y :=
      (hc.stored.shaped.hasEntry_iff hb' hbdir').mpr
        ⟨Finset.mem_insert_of_mem hyT, (hc.grown.parent_eq hyT).trans hpar, hroot⟩
    rw [← hx, ← hc.grown.name_eq hyT]
    exact (hnew.distinct hbdir').namedEntry_eq hentry'

theorem shows (hc : Created g dev row T P e ms k name s.fs fs') (hst : Stored g dev row T s.fs)
    (hP : P ∈ T.nodes) (hdir : (inodeAt (s.fs.store dev) P).isDirectory ≠ 0) :
    Shows dev (g.regionStart .imap) T.nodes (T.grow P ms e).maxLength s (s.setFs fs') where
  toView := hc.view hst hP hdir
  mounted := hst.inUse.ok.rootBlock_eq
  mounted' := hc.stored.inUse.ok.rootBlock_eq
  count := rfl

/-- The new node is found in its directory. -/
theorem namedEntry_eq (hc : Created g dev row T P e ms k name fs fs') (hP : P ∈ T.nodes)
    (hdir : (inodeAt (fs.store dev) P).isDirectory ≠ 0) :
    namedEntry (fs'.store dev) ((T.grow P ms e).chain P) name = some e := by
  have hP' : P ∈ (T.grow P ms e).nodes := Finset.mem_insert_of_mem hP
  have he' : e ∈ (T.grow P ms e).nodes := Finset.mem_insert_self e _
  have hdir' : (inodeAt (fs'.store dev) P).isDirectory ≠ 0 := by
    rw [Inode.eq_of_shown (hc.grown.shown hP) Inode.isDirectory fun _ => rfl]
    exact hdir
  have hroot : e ≠ g.regionStart .imap := by
    rintro rfl
    have hpar : P = g.regionStart .imap := hc.grown.up.symm.trans hc.stored.shaped.rootParent
    exact hc.grown.fresh (hpar ▸ hP)
  have hentry : HasEntry (fs'.store dev) ((T.grow P ms e).chain P) e :=
    (hc.stored.shaped.hasEntry_iff hP' hdir').mpr ⟨he', hc.grown.up, hroot⟩
  rw [← hc.grown.name]
  exact ((hc.stored.shaped.node P hP').distinct hdir').namedEntry_eq hentry

/-- A lookup goes to the directory as before. -/
theorem enterPath_eq (hc : Created g dev row T P e ms k name s.fs fs')
    (hst : Stored g dev row T s.fs)
    (hdir : (inodeAt (s.fs.store dev) P).isDirectory ≠ 0) (hP : P ∈ T.nodes)
    (henter : enterPath dev p now (g.regionStart .imap) fuel names s =
      some (.ok (found (s.fs.store dev) P), s)) {fuel' : ℕ}
    (hf : fuel + (T.grow P ms e).maxLength ≤ fuel') (now' : BlockNo) :
    enterPath dev p now' (g.regionStart .imap) fuel' names (s.setFs fs') =
      some (.ok (found (fs'.store dev) P), s.setFs fs') := by
  have hmore : Call.Mirrors
      (fun a a' => SameEntry s (s.setFs fs') dev T.nodes a a' ∧ a.2.isDirectory ≠ 0)
      (enterPath dev p now (g.regionStart .imap) fuel names) s
      (enterPath dev p now' (g.regionStart .imap) fuel' names) (s.setFs fs') :=
    (hc.shows hst hP hdir).mirrors_enterPath hf names
  obtain ⟨-, a', hrun, ⟨b, hb, heq, rfl⟩, -⟩ := hmore _ _ henter
  obtain rfl : P = b := congrArg Prod.fst heq
  exact hrun

/-- **The new node can be looked up** under the path it was created with. -/
theorem inodeGet_new (hc : Created g dev row T P e ms k name s.fs fs')
    (hst : Stored g dev row T s.fs)
    (hin : CreatesIn dev p now (g.regionStart .imap) fuel cwd path names name P s)
    (hcwd : path.head? = some slash ∨ cwd ∈ T.nodes) (hlen : path.length ≤ maxPath)
    (hrwx : inodeCheckPermissions (inodeAt (s.fs.store dev) P) p .rwx) {fuel' : ℕ}
    (hf : fuel + (T.grow P ms e).maxLength ≤ fuel') (now' : BlockNo) :
    inodeGet flatStore dev p now' (fuel' + 1) cwd path false .dontCheckPerms (s.setFs fs') =
      some (.ok (inodeAt (fs'.store dev) e), s.setFs fs') := by
  obtain ⟨hP, hdir⟩ := hst.enterPath_mem hin.dir
  obtain ⟨abs, habs, hcomp⟩ := hin.path
  have hst' : Stored g dev row (T.grow P ms e) (s.setFs fs').fs := hc.stored
  have hP' : P ∈ (T.grow P ms e).nodes := Finset.mem_insert_of_mem hP
  have hshown := hc.grown.shown hP
  have hdir' : (inodeAt (fs'.store dev) P).isDirectory ≠ 0 := by
    rw [Inode.eq_of_shown hshown Inode.isDirectory fun _ => rfl]
    exact hdir
  have hrx : inodeCheckPermissions (inodeAt (fs'.store dev) P) p .rx :=
    inodeCheckPermissions_rx_of_rwx ((inodeCheckPermissions_shown hshown).mpr hrwx)
  have hself := (hst'.shaped.node _ hst'.shaped.rootMem).self
  -- The path is made absolute in the same way.
  have hsame := (hc.shows hst hP hdir).samePath hcwd
  obtain ⟨-, abs', habs', rfl⟩ := hsame fuel fuel' (Nat.le_of_add_right_le hf) _ _ habs
  rw [inodeGet, Call.get_bind_apply, Call.bind_of_ok hst'.ofOption_rootBlock]
  refine getFrom_eq_ok.mpr ⟨hlen, abs, _, _, habs', hst'.rootInode_ok, ?_⟩
  rw [hcomp, getBelow_concat, hself]
  -- The walk to the directory, and the step to the new entry.
  have henter := hc.enterPath_eq hst hdir hP hin.dir hf now'
  obtain ⟨b, t, hwalk, henter⟩ := Call.bind_eq_ok.mp henter
  obtain ⟨rfl, -⟩ := hst'.walk_ok hwalk
  have hstep := hst'.stepDir_entered (p := p) hP' hdir' hrx (hc.namedEntry_eq hP hdir)
    ((Tree.length_le hP').trans (Nat.le_of_add_left_le hf)) henter
  refine (Call.bind_of_ok hwalk).trans ((Call.bind_of_ok hstep).trans ?_)
  rw [finishGet, if_neg fun hcond => Bool.false_ne_true hcond.2, Call.pure_bind_apply]
  exact Call.bind_of_ok (Call.require_of_pos (Or.inl rfl))

end Created

/-! ## The law -/

/-- **The directory law of creation**: a creation that returns keeps to it exactly if the blocks
that it took were in use for nothing else. The directory is the one that a lookup of the path
without its last component ends at. -/
theorem create_law_iff (hst : Stored g dev row T s.fs)
    (hcwd : path.head? = some slash ∨ cwd ∈ T.nodes)
    (hpath : PathIs dev (g.regionStart .imap) fuel cwd path (names ++ [name]) s)
    (hk : a.mode.kind = some k)
    (hrun : inodeCreate flatStore dev p now fuel cwd path a s = some (.ok u, s')) :
    ∃ P ∈ T.nodes, CreatesIn dev p now (g.regionStart .imap) fuel cwd path names name P s ∧
      (∀ ppath, ppath.length ≤ maxPath →
        PathIs dev (g.regionStart .imap) fuel cwd ppath names s →
        inodeGet flatStore dev p now (fuel + 1) cwd ppath true .dontCheckPerms s =
          some (.ok (inodeAt (s.fs.store dev) P), s)) ∧
      (CreateLaw g dev row T P p cwd path k name s s' ↔ Apart dev T P k s.fs) := by
  obtain ⟨abs, habs, hcomp⟩ := hpath
  obtain ⟨hlen, P, henter, hrwx, hname, e, ext, lnk, d₁, d', fs', rfl, hmade⟩ :=
    hst.create_ok habs hcomp hk hrun
  obtain ⟨hP, hdir⟩ := hst.enterPath_mem henter
  have hin : CreatesIn dev p now (g.regionStart .imap) fuel cwd path names name P s :=
    ⟨⟨abs, habs, hcomp⟩, henter⟩
  refine ⟨P, hP, hin, fun ppath hplen hpp => hin.inodeGet_parent hst hplen hpp, ?_, fun hap => ?_⟩
  · rintro ⟨e', ms, hc, -⟩
    exact hmade.apart_of_created hst hP hdir hc
  · have hc := hmade.created hst hP hdir hname hap
    refine ⟨e, _, hc, fuel + (T.grow P (T.chain P ++ ext) e).maxLength + 1, fun fuel' now' hf => ?_⟩
    obtain ⟨rounds, rfl⟩ : ∃ k, fuel' = k + 1 := ⟨fuel' - 1, by omega⟩
    exact hc.inodeGet_new hst hin hcwd hlen hrwx (by omega) now'

/-! ## Volumes whose maps do not meet -/

/-- The two maps number different blocks. -/
def Shape.Disjoint (g : Shape) : Prop := ∀ b, g.Covers .imap b → ¬ g.Covers .bmap b

/-- The maps of a volume of 2560 blocks or more do. -/
theorem volumeShape_disjoint {n : BlockNo} (hn : n.toNat < 8388608) (hsize : 2560 ≤ n.toNat) :
    (volumeShape n).Disjoint := fun _ hi hd =>
  (volumeShape_apart hn (covers_inRegion hn hsize hi)).1 (covers_inRegion hn hsize hd)

/-- The blocks that a creation takes are then in use for nothing else. -/
theorem CreateRun.apart {g : Shape} {dev : DevNo} {row : Fin inodeNrDev} {T : Tree} {P e : BlockNo}
    {k : NodeKind} {name : CStr} {ext lnk : List BlockNo} {d₁ d' : Dev} {fs fs' : FsState Disk}
    (h : CreateRun g dev row T P k name e ext lnk d₁ d' fs fs') (hst : Stored g dev row T fs)
    (hg : g.Disjoint) : Apart dev T P k fs := by
  refine h.apart_iff.mpr ⟨fun hmem => hg e h.node (hst.inUse.covers hmem), fun m hm => ⟨fun hmT => ?_, ?_⟩⟩
  · exact hg m (hst.covers_node hmT) (h.data m hm)
  · rintro rfl
    exact hg m h.node (h.data m hm)

/-- **A creation with room**: it fails and leaves the file system alone, or it is of the root
itself, or there is a new node, if the maps number different blocks. -/
theorem Stored.create_outcome (h : Stored g dev row T s.fs) (hg : g.Disjoint)
    (hk : a.mode.kind = some k) (hroom : RoomFor g dev row k s.fs)
    (hrun : inodeCreate flatStore dev p now fuel cwd path a s = some (r, s')) :
    s'.fs = s.fs ∨ r = .ok () ∧ ∃ P e ms name, P ∈ T.nodes ∧
      (inodeAt (s.fs.store dev) P).isDirectory ≠ 0 ∧ Created g dev row T P e ms k name s.fs s'.fs := by
  cases r with
  | error e => exact Or.inl (h.create_error hk hroom hrun)
  | ok u =>
      obtain ⟨-, abs, habs, linkPath, hat⟩ := h.create_absolute hrun
      rcases components_cases abs with hshort | ⟨c, names, name, hcomp⟩
      · rw [createAt_short hshort, Call.bind_of_ok h.rootInode_ok, Call.pure_apply] at hat
        cases hat
        exact Or.inl rfl
      · right
        obtain ⟨-, P, henter, -, hname, e, ext, lnk, d₁, d', fs', rfl, hmade⟩ :=
          h.create_ok habs hcomp hk hrun
        obtain ⟨hP, hdir⟩ := h.enterPath_mem henter
        exact ⟨rfl, P, e, _, name, hP, hdir, hmade.created h hP hdir hname (hmade.apart h hg)⟩

end Law

/-! ## A file in an empty directory -/

/-- A file is made on the empty volume. -/
def emptyFile : NewNode := ⟨.createFile, 420, 0, 0, 0, none⟩

theorem emptyVolume_stored :
    Stored (volumeShape (5242880 / 512)) 0 0 (leafTree []) emptyVolume := leavesOk_nil.stored

theorem emptyVolume_createsIn :
    CreatesIn 0 ⟨0, 0⟩ 0 ((volumeShape (5242880 / 512)).regionStart .imap) 1 4100 [slash, 120] []
      [120] 4100 ⟨emptyVolume, 0⟩ where
  path := ⟨_, krealpath_absolute rfl (by decide), by decide +kernel⟩
  dir := by
    have hdir : (inodeAt (emptyVolume.store 0) 4100).isDirectory ≠ 0 :=
      leavesOk_nil.rootKind.dir.mpr rfl
    have hsym : ¬ (inodeAt (emptyVolume.store 0) 4100).isSymlink ≠ 0 := fun h =>
      (leavesOk_nil.rootKind.not_link_of_dir hdir).1 (Or.inl h)
    rw [shape_10240.1]
    have hwalk : walk flatStore 0 ⟨0, 0⟩ (follow 0 ⟨0, 0⟩ 0 4100 1) 1 [] 4100
        (⟨emptyVolume, 0⟩ : Names Disk) = some (.ok 4100, ⟨emptyVolume, 0⟩) := rfl
    rw [enterPath, Call.bind_of_ok hwalk, enterDir, Call.bind_of_ok (readInode_flat ..),
      if_pos (Or.inl hdir), if_neg hsym]
    rfl

/-- The ninth block of each region is free. -/
theorem emptyVolume_room : RoomFor (volumeShape (5242880 / 512)) 0 0 .file emptyVolume := by
  have hfresh : Fresh (volumeShape (5242880 / 512)) 0 (mountedVolume 5242880) :=
    mountedVolume_fresh rfl
  have hok := hfresh.ok
  have hstart : ∀ k, (startVolume.masterTab 0).ptr k = (volumeShape (5242880 / 512)).mapStart k :=
    hfresh.ptr
  have hused : MapsOk (volumeShape (5242880 / 512)) 0 0 startVolume :=
    ⟨hok.sound, hok.mounted, hok.shape, hok.ptr, hok.bit⟩
  have hfree : ∀ k b, (volumeShape (5242880 / 512)).Covers k b →
      (volumeShape (5242880 / 512)).ptrOf k b = (volumeShape (5242880 / 512)).mapStart k →
      bitGet usedSector ((volumeShape (5242880 / 512)).bitOf k b).toNat = 0 →
      b ∈ freeOf (volumeShape (5242880 / 512)) 0 0 emptyVolume k := by
    intro k b hb hptr h0
    rw [freeOf, Finset.mem_filter, Shape.mem_covered hok.sound]
    refine ⟨hb, ?_⟩
    have hstore : recorded (volumeShape (5242880 / 512)) 0 0 startVolume k b = 0 := by
      rw [recorded, mapContents, if_pos (hptr.trans (hstart k).symm)]
      exact h0
    rw [← hstore, emptyVolume, leafVolume, FsState.writes_cons, FsState.writes_cons]
    have hlast : ∀ fs : FsState Disk, fs.writes 0 [] = fs := fun _ => rfl
    simp only [List.map_nil, List.nil_append, hlast]
    rw [(SameBits.write (hused.write _ _) (not_inMap_10240 (by decide)) _).record b hb,
      (SameBits.write hused (not_inMap_10240 (by decide)) _).record b hb]
  constructor
  · exact Finset.card_pos.mpr ⟨4108, hfree .imap 4108 (by decide) (by decide) (by decide)⟩
  · exact Finset.card_pos.mpr ⟨6156, hfree .bmap 6156 (by decide) (by decide) (by decide)⟩

theorem emptyVolume_new :
    namedEntry (emptyVolume.store 0) ((leafTree []).chain 4100) [120] = none := by
  refine List.find?_eq_none.mpr fun e he => ?_
  have hnot : ¬ HasEntry (emptyVolume.store 0) [6148] e := fun h => by
    cases leavesOk_nil.hasEntry.mp h
  simp only [decide_eq_true_eq, not_and]
  exact fun hne => absurd ⟨hne, mem_dirSlots.mp he⟩ hnot

theorem create_law_empty :
    ∃ s', inodeCreate flatStore 0 ⟨0, 0⟩ 0 1 4100 [slash, 120] emptyFile ⟨emptyVolume, 0⟩ =
        some (.ok (), s') ∧
      CreateLaw (volumeShape (5242880 / 512)) 0 0 (leafTree []) 4100 ⟨0, 0⟩ 4100 [slash, 120] .file
        [120] ⟨emptyVolume, 0⟩ s' := by
  have hst : Stored (volumeShape (5242880 / 512)) 0 0 (leafTree [])
      (⟨emptyVolume, 0⟩ : Names Disk).fs := emptyVolume_stored
  have hrwx : inodeCheckPermissions (inodeAt (emptyVolume.store 0) 4100) ⟨0, 0⟩ .rwx := by
    rw [emptyVolume, leavesOk_nil.root]
    right
    right
    right
    decide
  obtain ⟨s', hrun⟩ := hst.create_returns (a := emptyFile) emptyVolume_createsIn (by decide) (by decide)
    hrwx emptyVolume_new (Or.inl rfl) rfl emptyVolume_room
  obtain ⟨P, hP, hin, -, hiff⟩ := create_law_iff hst (Or.inl rfl) emptyVolume_createsIn.path rfl hrun
  obtain rfl : 4100 = P := congrArg Prod.fst (Except.ok.inj (congrArg Prod.fst
    (Option.some.inj (emptyVolume_createsIn.dir.symm.trans hin.dir))))
  refine ⟨s', hrun, hiff.mpr ?_⟩
  obtain ⟨abs, habs, hcomp⟩ := hin.path
  obtain ⟨-, P, henter, -, -, e, ext, lnk, d₁, d', fs', rfl, hmade⟩ := hst.create_ok habs hcomp rfl hrun
  obtain rfl : 4100 = P := congrArg Prod.fst (Except.ok.inj (congrArg Prod.fst
    (Option.some.inj (hin.dir.symm.trans henter))))
  exact hmade.apart hst (volumeShape_disjoint (by decide) (by decide))

end OxKernel.Fs
