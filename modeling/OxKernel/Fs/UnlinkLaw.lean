import OxKernel.Fs.Unlink

/-!
# The directory after a removal

A removal leaves a tree in which the node is gone from its directory, with one exception. The
last branch of `inode_free` takes an empty block map out of the chain, and at the head of a
longer chain it gives the block back without setting `parent.next`; the directory then starts
at a free block. This needs a chain of two block maps of which the first has no other entry.

## Main definitions

* `ListsExactly` — the chain of a directory is sound and lists given entries.
* `HeadEmptied` — the removal empties the first of several block maps.
* `Unlinked` — the tree after a removal.
-/
namespace OxKernel.Fs

open Lib (Call)

section Law
variable {g : Shape} {dev : DevNo} {row : Fin inodeNrDev} {T : Tree} {s s' : Names Disk}
  {P b : BlockNo} {p : Cred} {now cwd : BlockNo} {fuel : ℕ} {path : CStr} {r : Option Inode}

/-- The chain of a directory on disk is acyclic, its blocks are allocated, and it lists the
entries `E`. -/
def ListsExactly (g : Shape) (dev : DevNo) (row : Fin inodeNrDev) (P : BlockNo)
    (E : BlockNo → Prop) (fs : FsState Disk) : Prop :=
  ∃ ms, Linked (fs.store dev) (inodeAt (fs.store dev) P).next ms ∧ ms.Nodup ∧
    (∀ m ∈ ms, recorded g dev row fs .bmap m = 1) ∧ ∀ e, HasEntry (fs.store dev) ms e ↔ E e

/-- A directory of a stored tree lists its entries. -/
theorem Stored.listsExactly {fs : FsState Disk} (h : Stored g dev row T fs) (hP : P ∈ T.nodes)
    (hdir : (inodeAt (fs.store dev) P).isDirectory ≠ 0) :
    ListsExactly g dev row P (HasEntry (fs.store dev) (T.chain P)) fs := by
  have hok := h.shaped.node P hP
  have hlinked := hok.linked_dir hdir
  refine ⟨T.chain P, hlinked, hlinked.nodup, fun m hm => ?_, fun e => Iff.rfl⟩
  exact h.inUse.recorded_eq (Tree.mem_held_bmap.mpr ⟨P, hP, hok.chain_subset m hm⟩)

/-- The first block map of a directory has no entry but `b`, and it is not the only one. -/
def HeadEmptied (d : Dev) (b : BlockNo) (ms : List BlockNo) : Prop :=
  ∃ m m' post, ms = m :: m' :: post ∧ Emptied d b m

theorem Tidied.stored {H : BlockSets} {pre post : List BlockNo} {m : BlockNo} {fs fs' : FsState Disk}
    (ht : Tidied g dev row T P H pre m post fs fs') (h : Stored g dev row T fs)
    (hH : ∀ k, T.held (fs.store dev) k ⊆ H k) (hgood : ¬ (pre = [] ∧ post ≠ [])) :
    Stored g dev row (T.setChain P (pre ++ post)) fs' := by
  have hchange := ht.change hgood
  have hshaped := hchange.shaped h.shaped
  have hdir := hchange.dir
  have hdir' : (inodeAt (fs'.store dev) P).isDirectory ≠ 0 := by
    rw [Inode.eq_of_shown hchange.shown Inode.isDirectory fun _ => rfl]
    exact hdir
  refine ⟨h.clear, hshaped, ht.inUse.mono fun k x hx => ?_⟩
  cases k with
  | imap =>
      exact BlockSets.mem_remove.mpr ⟨fun hc => absurd hc.1 (by decide), hH _ hx⟩
  | bmap =>
      obtain ⟨c, hc, hxc⟩ := Tree.mem_held_bmap.mp hx
      have hcT : c ∈ T.nodes := hc
      have hmP : m ∈ T.owned (fs.store dev) P := by
        refine (h.shaped.node P hchange.mem).chain_subset m ?_
        rw [ht.chain]
        exact List.mem_append_right _ List.mem_cons_self
      by_cases hcP : c = P
      · subst hcP
        have hown : (T.setChain c (pre ++ post)).owned (fs'.store dev) c = pre ++ post := by
          rw [Tree.owned_dir (hshaped.node c hc).kind hdir']
          exact Function.update_self ..
        have hnd : (pre ++ m :: post).Nodup := by
          rw [← ht.chain]
          exact ((h.shaped.node c hcT).linked_dir hdir).nodup
        rw [hown] at hxc
        refine BlockSets.mem_remove.mpr ⟨?_, hH _ (Tree.mem_held_bmap.mpr ⟨c, hcT, ?_⟩)⟩
        · rintro ⟨-, hxm⟩
          rw [List.mem_singleton.mp hxm] at hxc
          exact (List.nodup_cons.mp (List.nodup_middle.mp hnd)).1 hxc
        · rw [Tree.owned_dir (h.shaped.node c hcT).kind hdir, ht.chain]
          rcases List.mem_append.mp hxc with hxc | hxc
          · exact List.mem_append_left _ hxc
          · exact List.mem_append_right _ (List.mem_cons_of_mem _ hxc)
      · rw [(hchange.kept c hc hcT hcP).owned_eq] at hxc
        refine BlockSets.mem_remove.mpr ⟨?_, hH _ (Tree.mem_held_bmap.mpr ⟨c, hcT, hxc⟩)⟩
        rintro ⟨-, hxm⟩
        rw [List.mem_singleton.mp hxm] at hxc
        exact h.shaped.disjoint c hcT P hchange.mem hcP hxc hmP

/-- The tree `T'` is stored, in which `b` is gone from the directory `P` and the other nodes are
as they were for a lookup. -/
structure Unlinked (g : Shape) (dev : DevNo) (row : Fin inodeNrDev) (T T' : Tree) (P b : BlockNo)
    (fs fs' : FsState Disk) : Prop where
  stored : Stored g dev row T' fs'
  nodes : T'.nodes = T.nodes.erase b
  shown : ∀ c ∈ T'.nodes, (inodeAt (fs'.store dev) c).shown = (inodeAt (fs.store dev) c).shown
  kept : ∀ c ∈ T'.nodes, c ≠ P → NodeKept T T' (fs.store dev) (fs'.store dev) c

theorem NodeKept.trans {T T' T'' : Tree} {d d' d'' : Dev} {c : BlockNo}
    (h : NodeKept T T' d d' c) (h' : NodeKept T' T'' d' d'' c) : NodeKept T T'' d d'' c where
  shown := h'.shown.trans h.shown
  next := h'.next.trans h.next
  chain := h'.chain.trans h.chain
  maps m hm := (h'.maps m (h.chain.symm ▸ hm)).trans (h.maps m hm)

theorem Between.kept_old {d : Dev} {m : BlockNo} {j : Fin bmapBlocks} {fs : FsState Disk}
    (h : Between g dev row T d P b m j fs) {c : BlockNo} (hc : c ∈ (T.remove b).nodes)
    (hcP : c ≠ P) : NodeKept T (T.remove b) d (fs.store dev) c :=
  (h.change.kept c hc (Finset.mem_of_mem_erase hc) hcP).trans (h.kept c hc)

theorem Between.shown_eq {d : Dev} {m : BlockNo} {j : Fin bmapBlocks} {fs : FsState Disk}
    (h : Between g dev row T d P b m j fs) {c : BlockNo} (hc : c ∈ (T.remove b).nodes) :
    (inodeAt (fs.store dev) c).shown = (inodeAt d c).shown :=
  (h.kept c hc).shown.trans (h.change.shown_eq (Finset.mem_of_mem_erase hc) hc)

theorem Between.held_subset {d : Dev} {m : BlockNo} {j : Fin bmapBlocks} {fs : FsState Disk}
    (h : Between g dev row T d P b m j fs) (hd : Shaped (g.regionStart .imap) T d)
    (hb : b ∈ T.nodes) (hm : m ∈ T.chain P) (k : MapKind) :
    (T.remove b).held (fs.store dev) k ⊆ T.leftover d b k := by
  intro x hx
  have hown : ∀ c ∈ (T.remove b).nodes, (T.remove b).owned (fs.store dev) c = T.owned d c := by
    intro c hc
    rw [(h.kept c hc).owned_eq]
    exact hd.owned_setSlot h.change.mem h.change.dir hm (Finset.mem_of_mem_erase hc)
  obtain ⟨hne, hmem⟩ := BlockSets.mem_remove.mp (Tree.held_remove_subset hd.toSeparate hb hown k hx)
  refine BlockSets.mem_remove.mpr ⟨?_, hmem⟩
  rintro ⟨hk, hrel⟩
  exact hne ⟨hk, Tree.released_subset x hrel⟩

/-- A directory is not removed from itself. -/
theorem Stored.ne_of_freed (h : Stored g dev row T s.fs) (hP : P ∈ T.nodes)
    (hdir : (inodeAt (s.fs.store dev) P).isDirectory ≠ 0)
    (hentry : HasEntry (s.fs.store dev) (T.chain P) b)
    (hlead : LeadsTo dev p now fuel cwd path b s)
    (hrun : inodeFree flatStore dev p now fuel cwd path none s = some (.ok r, s')) : P ≠ b := by
  rintro rfl
  obtain ⟨m, j, fs, -, -, -, hbet, -⟩ := h.unlinked hP hdir hentry hlead hrun
  exact Finset.notMem_erase P T.nodes hbet.change.mem'

/-- **A removal that does not empty the head** of a longer chain leaves a tree. -/
theorem Stored.unlink_good (h : Stored g dev row T s.fs) (hP : P ∈ T.nodes)
    (hdir : (inodeAt (s.fs.store dev) P).isDirectory ≠ 0)
    (hentry : HasEntry (s.fs.store dev) (T.chain P) b)
    (hlead : LeadsTo dev p now fuel cwd path b s)
    (hrun : inodeFree flatStore dev p now fuel cwd path none s = some (.ok r, s'))
    (hhead : ¬ HeadEmptied (s.fs.store dev) b (T.chain P)) :
    ∃ T', Unlinked g dev row T T' P b s.fs s'.fs := by
  obtain ⟨m, j, fs, hm, hj, hrel, hbet, hcase⟩ := h.unlinked hP hdir hentry hlead hrun
  have hdist := (h.shaped.node P hP).distinct hdir
  have hbT := ((h.shaped.node P hP).entries hdir b hentry).1
  rcases hcase with ⟨hs', hall⟩ | ⟨pre, m₀, post, fs', hs', htidy⟩
  · refine ⟨T.remove b, ?_⟩
    rw [hs', Names.setFs_fs]
    exact ⟨hbet.stored, rfl, fun c hc => hbet.shown_eq hc, fun c hc hcP => hbet.kept_old hc hcP⟩
  · have hgood : ¬ (pre = [] ∧ post ≠ []) := by
      rintro ⟨rfl, hpost⟩
      obtain ⟨m', post, rfl⟩ := List.exists_cons_of_ne_nil hpost
      have hchain : T.chain P = m₀ :: m' :: post := htidy.chain
      refine hhead ⟨m₀, m', post, hchain, (hbet.empty_iff hdist hm hj ?_).mp htidy.empty⟩
      rw [hchain]
      exact List.mem_cons_self
    have hchange := htidy.change hgood
    refine ⟨(T.remove b).setChain P (pre ++ post), ?_⟩
    rw [hs', Names.setFs_fs]
    refine ⟨htidy.stored hbet.stored (hbet.held_subset h.shaped hbT hm) hgood, rfl, fun c hc => ?_,
      fun c hc hcP => ?_⟩
    · exact (hchange.shown_eq hc hc).trans (hbet.shown_eq hc)
    · exact (hbet.kept_old hc hcP).trans (hchange.kept c hc hc hcP)

/-- **A removal that empties the head** of a longer chain gives it back, and the directory
still starts there. -/
theorem Stored.unlink_bad (h : Stored g dev row T s.fs) (hP : P ∈ T.nodes)
    (hdir : (inodeAt (s.fs.store dev) P).isDirectory ≠ 0)
    (hentry : HasEntry (s.fs.store dev) (T.chain P) b)
    (hlead : LeadsTo dev p now fuel cwd path b s)
    (hrun : inodeFree flatStore dev p now fuel cwd path none s = some (.ok r, s'))
    (hhead : HeadEmptied (s.fs.store dev) b (T.chain P)) :
    (inodeAt (s'.fs.store dev) P).next ≠ inodeNull ∧
      recorded g dev row s'.fs .bmap (inodeAt (s'.fs.store dev) P).next = 0 := by
  obtain ⟨m, j, fs, hm, hj, hrel, hbet, hcase⟩ := h.unlinked hP hdir hentry hlead hrun
  have hdist := (h.shaped.node P hP).distinct hdir
  obtain ⟨m₁, m', post₁, hchain₁, hemptied⟩ := hhead
  have hmem : m₁ ∈ T.chain P := by
    rw [hchain₁]
    exact List.mem_cons_self
  have hempty := (hbet.empty_iff hdist hm hj hmem).mpr hemptied
  rcases hcase with ⟨hs', hall⟩ | ⟨pre, m₀, post, fs', hs', htidy⟩
  · exact absurd hempty (hall m₁ hmem)
  · have hchain : m₁ :: m' :: post₁ = pre ++ m₀ :: post := by
      rw [← hchain₁]
      exact htidy.chain
    -- The head is the first empty block map.
    obtain rfl : pre = [] := by
      cases pre with
      | nil => rfl
      | cons x pre =>
          have hx : m₁ = x := (List.cons.inj hchain).1
          exact absurd hempty (htidy.first m₁ (hx ▸ List.mem_cons_self))
    cases hchain
    have hcov := h.covers_map hP hmem
    rw [hs', Names.setFs_fs, htidy.stuck rfl (List.cons_ne_nil _ _)]
    refine ⟨h.clear.ne_null _ _ hcov, ?_⟩
    rw [htidy.bmap.record m₁ hcov, recorded_freed hbet.inUse.ok hcov hcov, if_pos rfl, if_pos rfl]

/-- **The directory law of `inode_free`.** When a removal returns, the chain of the directory is
acyclic, has only allocated blocks and lists the entries that were there apart from the removed
one, if and only if the removal does not empty the first of several block maps. -/
theorem unlink_law_iff (h : Stored g dev row T s.fs) (hP : P ∈ T.nodes)
    (hdir : (inodeAt (s.fs.store dev) P).isDirectory ≠ 0)
    (hentry : HasEntry (s.fs.store dev) (T.chain P) b)
    (hlead : LeadsTo dev p now fuel cwd path b s)
    (hrun : inodeFree flatStore dev p now fuel cwd path none s = some (.ok r, s')) :
    ListsExactly g dev row P (fun e => HasEntry (s.fs.store dev) (T.chain P) e ∧ e ≠ b) s'.fs ↔
      ¬ HeadEmptied (s.fs.store dev) b (T.chain P) := by
  constructor
  · rintro ⟨ms, hlinked, -, hrec, -⟩ hhead
    obtain ⟨hne, h0⟩ := h.unlink_bad hP hdir hentry hlead hrun hhead
    cases ms with
    | nil => exact hne hlinked
    | cons m ms =>
        rw [hlinked.1, hrec m List.mem_cons_self] at h0
        cases h0
  · intro hhead
    obtain ⟨T', hun⟩ := h.unlink_good hP hdir hentry hlead hrun hhead
    have hbP := h.ne_of_freed hP hdir hentry hlead hrun
    have hP' : P ∈ T'.nodes := by
      rw [hun.nodes]
      exact Finset.mem_erase.mpr ⟨hbP, hP⟩
    have hdir' : (inodeAt (s'.fs.store dev) P).isDirectory ≠ 0 := by
      rw [Inode.eq_of_shown (hun.shown P hP') Inode.isDirectory fun _ => rfl]
      exact hdir
    obtain ⟨ms, hlinked, hnd, hrec, hlist⟩ := hun.stored.listsExactly hP' hdir'
    refine ⟨ms, hlinked, hnd, hrec, fun e => ?_⟩
    show _ ↔ HasEntry (s.fs.store dev) (T.chain P) e ∧ e ≠ b
    rw [hlist, hun.stored.shaped.hasEntry_iff hP' hdir', h.shaped.hasEntry_iff hP hdir, hun.nodes,
      Finset.mem_erase]
    constructor
    · rintro ⟨⟨hne, he⟩, hpar, hroot⟩
      have hshown := hun.shown e (hun.nodes ▸ Finset.mem_erase.mpr ⟨hne, he⟩)
      rw [Inode.eq_of_shown hshown Inode.parent fun _ => rfl] at hpar
      exact ⟨⟨he, hpar, hroot⟩, hne⟩
    · rintro ⟨⟨he, hpar, hroot⟩, hne⟩
      have hshown := hun.shown e (hun.nodes ▸ Finset.mem_erase.mpr ⟨hne, he⟩)
      rw [Inode.eq_of_shown hshown Inode.parent fun _ => rfl]
      exact ⟨⟨hne, he⟩, hpar, hroot⟩

/-- **A leaf is removed**, given enough rounds, if its blocks can be given back. -/
theorem Stored.inodeFree_returns (h : Stored g dev row T s.fs) (hP : P ∈ T.nodes)
    (hdir : (inodeAt (s.fs.store dev) P).isDirectory ≠ 0)
    (hentry : HasEntry (s.fs.store dev) (T.chain P) b)
    (hlead : LeadsTo dev p now fuel cwd path b s) (hlen : path.length ≤ maxPath)
    (hleaf : (inodeAt (s.fs.store dev) b).isDirectory = 0)
    (hcount : (inodeAt (s.fs.store dev) b).isFile ≠ 0 → (inodeAt (s.fs.store dev) b).refcount = 0)
    (hfuel : (T.chain P).length < fuel)
    (hrelease : ∀ m j, m ∈ T.chain P → (mapAt (s.fs.store dev) m).blocks j = b →
      ∃ s₁, releaseNode flatStore dev fuel
        (fun path => inodeGet flatStore dev p now fuel cwd path false .rw) (inodeAt (s.fs.store dev) b)
        (s.setFs (cleared dev b m j s.fs)) = some (.ok (), s₁)) :
    ∃ s', inodeFree flatStore dev p now fuel cwd path none s = some (.ok none, s') := by
  have hok := h.shaped.node P hP
  obtain ⟨hbT, hbpar, hbroot⟩ := hok.entries hdir b hentry
  have hokb := h.shaped.node b hbT
  obtain ⟨hb0, m, hm, j, hj⟩ := hentry
  have hleaf' : (inodeAt (s.fs.store dev) b).isDirectory ≠ 0 → T.chain b = [] :=
    fun hbdir => absurd hleaf hbdir
  have hbP : b ≠ P := by
    rintro rfl
    exact hdir hleaf
  have hreq : ¬ ((none : Option Inode).isNone ∧ (inodeAt (s.fs.store dev) b).isDirectory ≠ 0 ∧
      (inodeAt (s.fs.store dev) b).next ≠ inodeNull) := fun hc => hc.2.1 hleaf
  have hreq' : ¬ ((none : Option Inode).isNone ∧ (inodeAt (s.fs.store dev) b).isFile ≠ 0 ∧
      0 < (inodeAt (s.fs.store dev) b).refcount) := by
    rintro ⟨-, hfile, hpos⟩
    rw [hcount hfile] at hpos
    exact absurd hpos (by decide)
  have hfind := (findEntry_flat fuel (hok.linked_dir hdir) (hok.distinct hdir) hm hj hb0).resolve_left
    fun hc => absurd hc.2 (Nat.not_lt.mpr (Nat.le_of_lt hfuel))
  have hclear : (freed dev .imap b s.fs).write dev m
      (BlockMap.layout ((mapAt (s.fs.store dev) m).setSlot j inodeNull)) =
      cleared dev b m j s.fs := rfl
  rw [inodeFree, Call.bind_of_ok (Call.require_of_pos hlen), Call.bind_of_ok hlead,
    Call.bind_of_ok (Call.require_of_pos hreq), Call.bind_of_ok (Call.require_of_pos hreq'),
    Call.bind_of_ok (readInode_flat ..), Call.bind_of_ok (readInode_flat ..), hbpar, hokb.self,
    Call.bind_of_ok hfind, Call.bind_of_ok (giveBlock_flat h.inUse.ok (h.covers_node hbT)),
    Call.bind_of_ok (writeSector_flat ..), Names.write_eq, Names.setFs_fs, Names.setFs_setFs]
  simp only [hclear]
  have hchange := h.shaped.remove hP hdir hm hj hb0 hleaf'
  obtain ⟨s₁, hrel⟩ := hrelease m j hm hj
  obtain ⟨fs, rfl, hreleased⟩ := h.releaseNode_ok hbT hP hm hbP hleaf' rfl
    (h.endsAtNode hP hdir hm hbT hchange) hrel
  have hbet := hreleased.between h hbT hP hdir hm hchange
  rw [Names.setFs_setFs] at hrel
  obtain ⟨hshown, hnext⟩ := hbet.copy (inodeAt_setSlot (h.shaped.map_ne_node hP hm hP))
  have hdir' : (inodeAt (fs.store dev) P).isDirectory ≠ 0 := by
    rw [← Inode.eq_of_shown hshown Inode.isDirectory fun _ => rfl]
    exact hdir
  have hlinked := (hbet.stored.shaped.node P hbet.change.mem').linked_dir hdir'
  rw [← hnext] at hlinked
  rcases fixParent_flat (s := s.setFs fs) (inodeAt (s.fs.store dev) P) fuel hbet.stored.inUse.ok rfl
      hlinked fun q hq => h.covers_map hP hq with
    ⟨-, hle⟩ | ⟨-, hrun⟩ | ⟨m₀, post, -, -, hrun⟩ | ⟨pre, q, m₀, post, -, -, -, hrun⟩
  · exact absurd hle (Nat.not_le.mpr hfuel)
  all_goals
    exact ⟨_, (Call.bind_of_ok hrel).trans ((Call.bind_of_ok hrun).trans rfl)⟩

/-- The blocks of a file are given back. -/
theorem Stored.releaseNode_file (h : Stored g dev row T s.fs) (hP : P ∈ T.nodes)
    (hb : b ∈ T.nodes) (hbP : b ≠ P) (hkind : (inodeAt (s.fs.store dev) b).HasKind .file)
    (hfuel : (T.chain b).length < fuel) {m : BlockNo} {j : Fin bmapBlocks} (hm : m ∈ T.chain P)
    (get : CStr → NameM Disk Inode) :
    ∃ s₁, releaseNode flatStore dev fuel get (inodeAt (s.fs.store dev) b)
      (s.setFs (cleared dev b m j s.fs)) = some (.ok (), s₁) := by
  have hokb := h.shaped.node b hb
  have hmaps : ∀ q ∈ T.chain b,
      Dev.setSlot (s.fs.store dev) m j inodeNull q = s.fs.store dev q := by
    intro q hq
    refine Dev.setSlot_of_ne ?_
    rintro rfl
    exact h.shaped.map_not_mem hP hm hb hbP hq
  have hown : T.owned (s.fs.store dev) b = fileBlocks (s.fs.store dev) (T.chain b) := by
    rw [Tree.owned, if_neg hkind.not_link_of_file, if_pos (hkind.file.mpr rfl)]
  have hlist := fileBlocks_congr hmaps
  have hgive := giveChain_flat (s := s.setFs (cleared dev b m j s.fs)) fuel
    (h.inUse_cleared hb hP hm) (h.cleared_store hb)
    ((hokb.chain hkind.not_link_of_file).congr hmaps)
    (by rw [hlist, ← hown]; exact h.shaped.nodup b hb) (by
      rw [hlist, ← hown]
      exact fun x hx => BlockSets.mem_remove.mpr ⟨fun hc => absurd hc.1 (by decide),
        Tree.mem_held_bmap.mpr ⟨b, hb, hx⟩⟩)
  rw [releaseNode, if_pos (hkind.file.mpr rfl)]
  exact ⟨_, hgive.resolve_left fun hc => absurd hc.2 (Nat.not_le.mpr hfuel)⟩

/-- The count of the target of a hard link is lowered. -/
theorem Stored.releaseNode_hardlink {s : Names Disk} {n : Inode} (hkind : n.HasKind .hardlink)
    (hnext : n.next ≠ inodeNull) {get : CStr → NameM Disk Inode} {t : Inode}
    (hget : get (linkAt (s.fs.store dev) n.next) s = some (.ok t, s)) :
    releaseNode flatStore dev fuel get n s = some (.ok (), s.write dev t.self
      (Inode.layout { t with refcount := t.refcount - 1 })) := by
  obtain ⟨hfile, hdir, hsym, -⟩ := hkind.eq_zero
  rw [releaseNode, if_neg (not_not.mpr (hfile (by decide))), if_neg (not_not.mpr (hdir (by decide))),
    if_neg (not_not.mpr (hsym (by decide))), if_pos (hkind.hardlink.mpr rfl), if_pos hnext,
    Call.bind_of_ok (readLink_flat ..)]
  exact Call.bind_of_ok (Call.orFail_of_ok hget)

end Law

/-! ## A directory with two block maps -/

/-- The volume of 10240 blocks that the examples start from. -/
def startVolume : FsState Disk := usedVolume (volumeShape (5242880 / 512)) (mountedVolume 5242880)

/-- A root directory with the files `a` and `b` in two block maps. -/
def twoMaps : FsState Disk :=
  ((((startVolume.write 0 4100 (Inode.layout { Inode.zero.asRoot 0 0 4100 with next := 6148 })).write 0
    4101 (Inode.layout { newInode 0 [97] 0 0 0 0 4101 4100 with isFile := 1 })).write 0
    4102 (Inode.layout { newInode 0 [98] 0 0 0 0 4102 4100 with isFile := 1 })).write 0
    6148 (BlockMap.layout ((⟨6149, fun _ => 0⟩ : BlockMap).setSlot ⟨0, by decide⟩ 4101))).write 0
    6149 (BlockMap.layout ((⟨0, fun _ => 0⟩ : BlockMap).setSlot ⟨0, by decide⟩ 4102))

theorem twoMaps_contents :
    inodeAt (twoMaps.store 0) 4100 = { Inode.zero.asRoot 0 0 4100 with next := 6148 } ∧
    inodeAt (twoMaps.store 0) 4101 = { newInode 0 [97] 0 0 0 0 4101 4100 with isFile := 1 } ∧
    inodeAt (twoMaps.store 0) 4102 = { newInode 0 [98] 0 0 0 0 4102 4100 with isFile := 1 } ∧
    mapAt (twoMaps.store 0) 6148 = (⟨6149, fun _ => 0⟩ : BlockMap).setSlot ⟨0, by decide⟩ 4101 ∧
    mapAt (twoMaps.store 0) 6149 = (⟨0, fun _ => 0⟩ : BlockMap).setSlot ⟨0, by decide⟩ 4102 := by
  refine ⟨?_, ?_, ?_, ?_, ?_⟩ <;> rw [twoMaps]
  · rw [FsState.write_store, inodeAt_update_of_ne (by decide), FsState.write_store,
      inodeAt_update_of_ne (by decide), FsState.write_store, inodeAt_update_of_ne (by decide),
      FsState.write_store, inodeAt_update_of_ne (by decide), FsState.write_store, inodeAt_update]
  · rw [FsState.write_store, inodeAt_update_of_ne (by decide), FsState.write_store,
      inodeAt_update_of_ne (by decide), FsState.write_store, inodeAt_update_of_ne (by decide),
      FsState.write_store, inodeAt_update]
  · rw [FsState.write_store, inodeAt_update_of_ne (by decide), FsState.write_store,
      inodeAt_update_of_ne (by decide), FsState.write_store, inodeAt_update]
  · rw [FsState.write_store, mapAt_update_of_ne (by decide), FsState.write_store, mapAt_update]
  · rw [FsState.write_store, mapAt_update]

/-- The only entry of a block map with one used slot. -/
theorem blocks_setSlot_zero {next x : BlockNo} {i j : Fin bmapBlocks}
    (h : ((⟨next, fun _ => 0⟩ : BlockMap).setSlot i x).blocks j ≠ inodeNull) :
    j = i ∧ ((⟨next, fun _ => 0⟩ : BlockMap).setSlot i x).blocks j = x := by
  by_cases hj : j = i
  · subst hj
    exact ⟨rfl, BlockMap.setSlot_self ..⟩
  · exact absurd (BlockMap.setSlot_of_ne _ _ hj) h

theorem twoMaps_slot {m : BlockNo} (hm : m ∈ [6148, 6149]) {j : Fin bmapBlocks}
    (h : (mapAt (twoMaps.store 0) m).blocks j ≠ inodeNull) :
    j = ⟨0, by decide⟩ ∧ (mapAt (twoMaps.store 0) m).blocks j = if m = 6148 then 4101 else 4102 := by
  obtain ⟨-, -, -, hm1, hm2⟩ := twoMaps_contents
  rcases List.mem_pair.mp hm with rfl | rfl
  · rw [hm1] at h ⊢
    exact blocks_setSlot_zero h
  · rw [hm2] at h ⊢
    exact blocks_setSlot_zero h

theorem twoMaps_entry {e : BlockNo} :
    HasEntry (twoMaps.store 0) [6148, 6149] e ↔ e ∈ ({4101, 4102} : Finset BlockNo) := by
  obtain ⟨-, -, -, hm1, hm2⟩ := twoMaps_contents
  constructor
  · rintro ⟨he, m, hm, j, rfl⟩
    rw [(twoMaps_slot hm he).2]
    split <;> decide
  · intro he
    rcases Finset.mem_insert.mp he with rfl | he
    · refine ⟨by decide, 6148, by decide, ⟨0, by decide⟩, ?_⟩
      rw [hm1, BlockMap.setSlot_self]
    · rw [Finset.mem_singleton.mp he]
      refine ⟨by decide, 6149, by decide, ⟨0, by decide⟩, ?_⟩
      rw [hm2, BlockMap.setSlot_self]

/-- The tree on it. -/
def twoTree : Tree := flatTree 4100 {4101, 4102} [6148, 6149]

theorem twoMaps_kinds :
    (inodeAt (twoMaps.store 0) 4100).HasKind .dir ∧
      ∀ e ∈ ({4101, 4102} : Finset BlockNo), (inodeAt (twoMaps.store 0) e).HasKind .file := by
  obtain ⟨hr, ha, hb, -⟩ := twoMaps_contents
  constructor
  · rw [hr]
    exact ⟨by decide, by decide, by decide, by decide⟩
  · intro e he
    simp only [Finset.mem_insert, Finset.mem_singleton] at he
    rcases he with rfl | rfl
    · rw [ha]
      exact ⟨by decide, by decide, by decide, by decide⟩
    · rw [hb]
      exact ⟨by decide, by decide, by decide, by decide⟩

theorem twoMaps_names :
    (inodeAt (twoMaps.store 0) 4101).name = [97] ∧ (inodeAt (twoMaps.store 0) 4102).name = [98] := by
  obtain ⟨-, ha, hb, -⟩ := twoMaps_contents
  constructor
  · rw [ha]
    exact cstr_strcpy (.of_all (by decide) (by decide))
  · rw [hb]
    exact cstr_strcpy (.of_all (by decide) (by decide))

theorem twoMaps_shaped : Shaped 4100 twoTree (twoMaps.store 0) := by
  obtain ⟨hr, ha, hb, hm1, hm2⟩ := twoMaps_contents
  refine Shaped.of_leaves ?_ ?_ ?_ ?_ ?_ ?_ ?_ ?_ (fun e => twoMaps_entry) ?_
  · rw [hr]
    exact cstr_strcpy (.of_all (by decide) (by decide))
  · rw [hr]
    rfl
  · rw [hr]
    rfl
  · exact twoMaps_kinds.1
  · rw [hr]
    refine ⟨rfl, by decide, ?_⟩
    rw [hm1]
    refine ⟨rfl, by decide, ?_⟩
    rw [hm2]
    rfl
  · constructor
    · intro m hm m' hm' j j' hne heq
      obtain ⟨hj, hx⟩ := twoMaps_slot hm hne
      obtain ⟨hj', hx'⟩ := twoMaps_slot hm' (heq ▸ hne)
      refine ⟨?_, hj.trans hj'.symm⟩
      rw [hx, hx'] at heq
      rcases List.mem_pair.mp hm with rfl | rfl <;> rcases List.mem_pair.mp hm' with rfl | rfl
      · rfl
      · exact absurd heq (by decide)
      · exact absurd heq (by decide)
      · rfl
    · intro e e' he he' heq
      obtain ⟨hna, hnb⟩ := twoMaps_names
      have he := twoMaps_entry.mp he
      have he' := twoMaps_entry.mp he'
      simp only [Finset.mem_insert, Finset.mem_singleton] at he he'
      rcases he with rfl | rfl <;> rcases he' with rfl | rfl
      · rfl
      · rw [hna, hnb] at heq
        exact absurd heq (by decide)
      · rw [hna, hnb] at heq
        exact absurd heq (by decide)
      · rfl
  · exact List.forall_mem_cons.mpr ⟨by decide, List.forall_mem_singleton.mpr (by decide)⟩
  · decide
  · intro e he
    have hkind := twoMaps_kinds.2 e he
    have hlink := hkind.not_link_of_file
    simp only [Finset.mem_insert, Finset.mem_singleton] at he
    rcases he with rfl | rfl
    · refine ⟨?_, ?_, ⟨_, hkind, by decide⟩, fun _ => ?_, fun hl => absurd hl hlink⟩ <;> rw [ha] <;> rfl
    · refine ⟨?_, ?_, ⟨_, hkind, by decide⟩, fun _ => ?_, fun hl => absurd hl hlink⟩ <;> rw [hb] <;> rfl

theorem shape_10240 :
    (volumeShape (5242880 / 512)).regionStart .imap = 4100 ∧
      (volumeShape (5242880 / 512)).regionStart .bmap = 6148 := by decide

theorem startVolume_inUse {H : BlockSets} (hi : ∀ b ∈ H .imap, 4100 ≤ b.toNat ∧ b.toNat < 4108)
    (hd : ∀ b ∈ H .bmap, 6148 ≤ b.toNat ∧ b.toNat < 6156) :
    InUse (volumeShape (5242880 / 512)) 0 0 H startVolume := by
  refine (mountedVolume_fresh rfl).inUse fun k b hb => ?_
  cases k with
  | imap =>
      rw [shape_10240.1]
      exact hi b hb
  | bmap =>
      rw [shape_10240.2]
      exact hd b hb

/-- Blocks from the first inode on are in no map of this volume. -/
theorem not_inMap_10240 {b : BlockNo} (hb : 4100 ≤ b.toNat) (k : MapKind) :
    ¬ (volumeShape (5242880 / 512)).InMap k b := by
  have hend : ((volumeShape (5242880 / 512)).mapEnd k).toNat ≤ 4100 := by
    cases k <;> decide
  exact fun hin => absurd hin.2 (by omega)

theorem twoMaps_inUse {H : BlockSets} (hi : ∀ b ∈ H .imap, 4100 ≤ b.toNat ∧ b.toNat < 4108)
    (hd : ∀ b ∈ H .bmap, 6148 ≤ b.toNat ∧ b.toNat < 6156) :
    InUse (volumeShape (5242880 / 512)) 0 0 H twoMaps := by
  rw [twoMaps]
  refine ((((InUse.write ?_ (not_inMap_10240 (by decide)) _).write (not_inMap_10240 (by decide))
    _).write (not_inMap_10240 (by decide)) _).write (not_inMap_10240 (by decide)) _).write
    (not_inMap_10240 (by decide)) _
  exact startVolume_inUse hi hd

theorem twoMaps_stored : Stored (volumeShape (5242880 / 512)) 0 0 twoTree twoMaps := by
  refine ⟨volumeShape_clear (by decide), ?_, ?_⟩
  · rw [shape_10240.1]
    exact twoMaps_shaped
  · refine twoMaps_inUse (fun b hb => ?_) fun b hb => ?_
    · have hb : b ∈ ({4100, 4101, 4102} : Finset BlockNo) := hb
      simp only [Finset.mem_insert, Finset.mem_singleton] at hb
      rcases hb with rfl | rfl | rfl <;> decide
    · obtain ⟨c, hc, hbc⟩ := Tree.mem_held_bmap.mp hb
      rw [twoTree, owned_flatTree twoMaps_kinds.1 (by decide) hc] at hbc
      by_cases hr : c = 4100
      · rw [if_pos hr] at hbc
        rcases List.mem_pair.mp hbc with rfl | rfl <;> decide
      · have hlink := (twoMaps_kinds.2 c ((Finset.mem_insert.mp hc).resolve_left hr)).not_link_of_file
        rw [if_neg hr, if_neg hlink] at hbc
        cases hbc

/-- Both files can be looked up. -/
theorem twoMaps_leads {e : BlockNo} {c : UInt8} (path : CStr) (hpath : path = [slash, c])
    (hcomp : components (normalize path) = [[], [c]]) (he : e ∈ ({4101, 4102} : Finset BlockNo))
    (hname : (inodeAt (twoMaps.store 0) e).name = [c]) :
    LeadsTo 0 ⟨0, 0⟩ 0 3 4100 path e ⟨twoMaps, 0⟩ := by
  have hst : Stored (volumeShape (5242880 / 512)) 0 0 twoTree (⟨twoMaps, 0⟩ : Names Disk).fs :=
    twoMaps_stored
  have hchain : twoTree.chain ((volumeShape (5242880 / 512)).regionStart .imap) = [6148, 6149] := by
    rw [shape_10240.1]
    rfl
  refine hst.inodeGet_child (by rw [hpath]; rfl) (by rw [hpath]; show 2 ≤ 256; decide) hcomp ?_ ?_
    (Or.inl rfl) (by rw [hchain]; decide)
  · rw [shape_10240.1, twoMaps_contents.1]
    decide
  · rw [hchain, ← hname]
    have hdist := ((twoMaps_shaped.node 4100 (by decide)).distinct
      (twoMaps_kinds.1.dir.mpr rfl) : EntriesOk _ [6148, 6149])
    exact hdist.namedEntry_eq (twoMaps_entry.mpr he)

theorem twoMaps_removed {e : BlockNo} {path : CStr} (he : e ∈ ({4101, 4102} : Finset BlockNo))
    (hlen : path.length ≤ maxPath) (hlead : LeadsTo 0 ⟨0, 0⟩ 0 3 4100 path e ⟨twoMaps, 0⟩) :
    ∃ s', inodeFree flatStore 0 ⟨0, 0⟩ 0 3 4100 path none ⟨twoMaps, 0⟩ = some (.ok none, s') := by
  have hst : Stored (volumeShape (5242880 / 512)) 0 0 twoTree (⟨twoMaps, 0⟩ : Names Disk).fs :=
    twoMaps_stored
  have hkind := twoMaps_kinds.2 e he
  have hr : e ≠ 4100 := by
    rintro rfl
    exact absurd he (by decide)
  refine hst.inodeFree_returns (P := 4100) (by decide) (twoMaps_kinds.1.dir.mpr rfl)
    (twoMaps_entry.mpr he) hlead hlen (hkind.eq_zero.2.1 (by decide)) (fun _ => ?_) (by decide)
    fun m j hm _ => hst.releaseNode_file (P := 4100) (by decide) (Finset.mem_insert_of_mem he) hr hkind
      ?_ hm _
  · obtain ⟨-, ha, hb, -⟩ := twoMaps_contents
    simp only [Finset.mem_insert, Finset.mem_singleton] at he
    rcases he with rfl | rfl
    · rw [ha]
      rfl
    · rw [hb]
      rfl
  · rw [show twoTree.chain e = [] from if_neg hr]
    decide

/-- Removing `b`, in the second block map, leaves a directory with `a`. -/
theorem unlink_law_second_map :
    ∃ s', inodeFree flatStore 0 ⟨0, 0⟩ 0 3 4100 [slash, 98] none ⟨twoMaps, 0⟩ = some (.ok none, s') ∧
      ListsExactly (volumeShape (5242880 / 512)) 0 0 4100
        (fun e => HasEntry (twoMaps.store 0) [6148, 6149] e ∧ e ≠ 4102) s'.fs := by
  have hlead := twoMaps_leads [slash, 98] rfl (by decide +kernel) (by decide) twoMaps_names.2
  obtain ⟨s', hrun⟩ := twoMaps_removed (by decide) (by decide) hlead
  refine ⟨s', hrun, (unlink_law_iff (s := ⟨twoMaps, 0⟩) (P := 4100) twoMaps_stored (by decide)
    (twoMaps_kinds.1.dir.mpr rfl) (twoMaps_entry.mpr (by decide)) hlead hrun).mpr ?_⟩
  rintro ⟨m, m', post, hchain, hempty⟩
  cases hchain
  have h0 := hempty ⟨0, by decide⟩
  rw [twoMaps_contents.2.2.2.1, BlockMap.setSlot_self] at h0
  exact absurd h0 (by decide)

/-- Removing `a`, alone in the first of two block maps, leaves the directory with a block map
that has been given back. -/
theorem unlink_law_first_map :
    ∃ s', inodeFree flatStore 0 ⟨0, 0⟩ 0 3 4100 [slash, 97] none ⟨twoMaps, 0⟩ = some (.ok none, s') ∧
      ¬ ListsExactly (volumeShape (5242880 / 512)) 0 0 4100
        (fun e => HasEntry (twoMaps.store 0) [6148, 6149] e ∧ e ≠ 4101) s'.fs := by
  have hlead := twoMaps_leads [slash, 97] rfl (by decide +kernel) (by decide) twoMaps_names.1
  obtain ⟨s', hrun⟩ := twoMaps_removed (by decide) (by decide) hlead
  have hhead : HeadEmptied (twoMaps.store 0) 4101 [6148, 6149] := by
    refine ⟨6148, 6149, [], rfl, fun j => ?_⟩
    by_contra hne
    rw [not_or] at hne
    exact hne.2 (twoMaps_slot (by decide) hne.1).2
  refine ⟨s', hrun, ?_⟩
  rintro ⟨ms, hlinked, -, hrec, -⟩
  obtain ⟨hne, h0⟩ := Stored.unlink_bad (s := ⟨twoMaps, 0⟩) (P := 4100) twoMaps_stored (by decide)
    (twoMaps_kinds.1.dir.mpr rfl) (twoMaps_entry.mpr (by decide)) hlead hrun hhead
  cases ms with
  | nil => exact hne hlinked
  | cons m ms =>
      rw [hlinked.1, hrec m List.mem_cons_self] at h0
      cases h0

end OxKernel.Fs
