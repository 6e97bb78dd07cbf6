import OxKernel.Fs.AllocatorNext
import OxKernel.Fs.TreeGrowth
import OxKernel.Fs.Stored

/-!
# Where a new entry goes

What `inode_create` does to a directory before it makes the inode: the inode block is put into
the first empty slot of the chain, or a new block map is hung on at its end and the inode block
put into its first slot. Which blocks these are is up to the allocator, and nothing is read of
them, so the writes are the same whatever the blocks are.

## Main definitions

* `Progress` — a call that has taken blocks and written others.
* `Planted` — the device with the new entry.
* `NodeMade` — the new inode.
-/
namespace OxKernel.Fs

open Lib (Call)

/-! ## A call in progress -/

/-- Inode blocks and data blocks. -/
def draws (i l : List BlockNo) : MapKind → List BlockNo
  | .imap => i
  | .bmap => l

/-- After the inode blocks `i` and the data blocks `l` have been taken. Outside the maps and
the master the device is `d`. -/
structure Progress (g : Shape) (dev : DevNo) (row : Fin inodeNrDev) (H : BlockSets)
    (i l : List BlockNo) (fs : FsState Disk) (d : Dev) (fs' : FsState Disk) : Prop extends
    Drawn g dev row H (draws i l) fs fs' where
  device : Outside g d (fs'.store dev)

section Progress
variable {g : Shape} {dev : DevNo} {row : Fin inodeNrDev} {H : BlockSets} {i l : List BlockNo}
  {fs fs' : FsState Disk} {d : Dev} {s s' : Names Disk} {b : BlockNo}

theorem draws_nil : (fun _ => []) = draws [] [] := by
  funext k
  cases k <;> rfl

theorem draws_imap : Function.update (draws i l) .imap (i ++ [b]) = draws (i ++ [b]) l := by
  funext k
  cases k <;> rfl

theorem draws_bmap : Function.update (draws i l) .bmap (l ++ [b]) = draws i (l ++ [b]) := by
  funext k
  cases k <;> rfl

namespace Progress

theorem start (h : InUse g dev row H fs) : Progress g dev row H [] [] fs (fs.store dev) fs where
  toDrawn := draws_nil ▸ Drawn.start h
  device _ _ _ := rfl

theorem write (h : Progress g dev row H i l fs d fs') {q : BlockNo} (hq : ∀ k, ¬ g.InMap k q)
    (data : Sector) :
    Progress g dev row H i l fs (Function.update d q data) (fs'.write dev q data) where
  toDrawn := h.toDrawn.write hq data
  device := h.device.write q data

/-- A get that succeeds. -/
theorem takeBlock_ok (h : Progress g dev row H i l fs d s.fs) {k : MapKind}
    (hrun : takeBlock flatStore dev k s = some (.ok b, s')) :
    g.Covers k b ∧ ∃ fs', s' = s.setFs fs' ∧
      Drawn g dev row H (Function.update (draws i l) k (draws i l k ++ [b])) fs fs' ∧
      Outside g d (fs'.store dev) := by
  rcases h.inUse.take k with ⟨b', fs', hok, ht⟩ | ⟨fs', hfail, -⟩
  · rw [hok] at hrun
    cases hrun
    exact ⟨ht.covers, fs', rfl, h.toDrawn.take ht, h.device.trans ht.same⟩
  · rw [hfail] at hrun
    cases hrun

theorem takeInode_ok (h : Progress g dev row H i l fs d s.fs)
    (hrun : takeBlock flatStore dev .imap s = some (.ok b, s')) :
    g.Covers .imap b ∧ ∃ fs', s' = s.setFs fs' ∧ Progress g dev row H (i ++ [b]) l fs d fs' := by
  obtain ⟨hcov, fs', hs', hdrawn, hdev⟩ := h.takeBlock_ok hrun
  exact ⟨hcov, fs', hs', draws_imap (l := l) ▸ hdrawn, hdev⟩

theorem takeData_ok (h : Progress g dev row H i l fs d s.fs)
    (hrun : takeBlock flatStore dev .bmap s = some (.ok b, s')) :
    g.Covers .bmap b ∧ ∃ fs', s' = s.setFs fs' ∧ Progress g dev row H i (l ++ [b]) fs d fs' := by
  obtain ⟨hcov, fs', hs', hdrawn, hdev⟩ := h.takeBlock_ok hrun
  exact ⟨hcov, fs', hs', draws_bmap (i := i) ▸ hdrawn, hdev⟩

/-- What a call has taken are the next blocks of the maps. -/
theorem handed_bmap (h : Progress g dev row H i l fs d fs') :
    handed .bmap dev l.length fs = l := by
  have hnext := h.next .bmap 0
  have hnil : handed .bmap dev 0 fs' = [] := rfl
  rw [hnil, List.append_nil] at hnext
  exact hnext

theorem handed_imap (h : Progress g dev row H i l fs d fs') :
    handed .imap dev i.length fs = i := by
  have hnext := h.next .imap 0
  have hnil : handed .imap dev 0 fs' = [] := rfl
  rw [hnil, List.append_nil] at hnext
  exact hnext

end Progress

end Progress

/-! ## The entry -/

/-- A block map with one entry. -/
def BlockMap.single (e : BlockNo) : BlockMap := BlockMap.zero.setEntry 0 e

/-- The device after the block `e` has been put into the chain `ms` of the directory `P`, with
the block maps `ext` that were added. -/
inductive Planted (d : Dev) (P : BlockNo) (ms : List BlockNo) (e : BlockNo) :
    List BlockNo → Dev → Prop
  | hole (m : BlockNo) (j : Fin bmapBlocks) (hm : m ∈ ms)
      (hj : (mapAt d m).blocks j = inodeNull) : Planted d P ms e [] (d.setSlot m j e)
  | first (m : BlockNo) (hms : ms = []) :
      Planted d P ms e [m]
        (Function.update (Function.update d P (Inode.layout { inodeAt d P with next := m })) m
          (BlockMap.layout (BlockMap.single e)))
  | append (pre : List BlockNo) (q m : BlockNo) (hms : ms = pre ++ [q]) :
      Planted d P ms e [m]
        (Function.update (Function.update d q (BlockMap.layout { mapAt d q with next := m })) m
          (BlockMap.layout (BlockMap.single e)))

/-- A chain has no empty slot. -/
def FullChain (d : Dev) (ms : List BlockNo) : Prop :=
  ∀ m ∈ ms, ∀ j, (mapAt d m).blocks j ≠ inodeNull

instance (d : Dev) (ms : List BlockNo) : Decidable (FullChain d ms) :=
  inferInstanceAs (Decidable (∀ m ∈ ms, ∀ _, _))

/-- The number of block maps that a new entry needs. -/
def mapsNeeded (d : Dev) (ms : List BlockNo) : ℕ := if FullChain d ms then 1 else 0

section Place
variable {g : Shape} {dev : DevNo} {row : Fin inodeNrDev} {H : BlockSets} {s s' : Names Disk}
  {P e next : BlockNo} {ms : List BlockNo} {fuel : ℕ}

theorem BlockMap.freeSlot_some {m : BlockMap} {j : Fin bmapBlocks} (h : m.freeSlot = some j) :
    m.blocks j = inodeNull := by
  have hj := List.find?_some h
  rwa [decide_eq_true_eq] at hj

theorem BlockMap.freeSlot_none {m : BlockMap} (h : m.freeSlot = none) (j : Fin bmapBlocks) :
    m.blocks j ≠ inodeNull := by
  have hj := List.find?_eq_none.mp h j (List.mem_finRange j)
  rwa [decide_eq_true_eq] at hj

/-- **The search for an empty slot**: the first one is taken, or the search ends at the last
block map. -/
theorem placeInChain_ok (hclear : g.Clear) (huse : InUse g dev row H s.fs)
    (hcov : ∀ m ∈ ms, g.Covers .bmap m) (hl : Linked (s.fs.store dev) next ms) (hms : ms ≠ [])
    {r : BlockNo ⊕ (BlockNo × BlockMap)}
    (hrun : placeInChain flatStore dev fuel next s = some (.ok r, s')) :
    (∃ m j e fs, r = .inl e ∧ s' = s.setFs fs ∧ m ∈ ms ∧
      (mapAt (s.fs.store dev) m).blocks j = inodeNull ∧ g.Covers .imap e ∧
      Progress g dev row H [e] [] s.fs (Dev.setSlot (s.fs.store dev) m j e) fs) ∨
    (∃ pre q, ms = pre ++ [q] ∧ r = .inr (q, mapAt (s.fs.store dev) q) ∧ s' = s ∧
      FullChain (s.fs.store dev) ms) := by
  induction fuel generalizing next ms with
  | zero => cases hrun
  | succ fuel ih =>
      cases ms with
      | nil => exact absurd rfl hms
      | cons m ms =>
          obtain ⟨rfl, -, hrest⟩ := hl
          rw [placeInChain, Call.bind_of_ok (readBmap_flat ..)] at hrun
          cases hslot : (mapAt (s.fs.store dev) next).freeSlot with
          | some j =>
              left
              rw [hslot] at hrun
              obtain ⟨e, s₁, htake, hrun⟩ := Call.bind_eq_ok.mp hrun
              obtain ⟨hcovE, fs, hs₁, hprog⟩ := (Progress.start huse).takeInode_ok htake
              have hmap := hclear.not_map .bmap next (hcov next List.mem_cons_self)
              rw [Call.bind_of_ok (writeSector_flat ..), if_pos (hclear.ne_null .imap e hcovE)] at hrun
              cases hrun
              refine ⟨next, j, e, _, rfl, ?_, List.mem_cons_self, BlockMap.freeSlot_some hslot, hcovE,
                hprog.write hmap _⟩
              rw [hs₁, Names.write_eq, Names.setFs_fs, Names.setFs_setFs]
          | none =>
              rw [hslot] at hrun
              have hfull := BlockMap.freeSlot_none hslot
              by_cases hnext : (mapAt (s.fs.store dev) next).next = inodeNull
              · right
                have hend := hrest.nil_iff.mp hnext
                rw [if_pos hnext] at hrun
                cases hrun
                refine ⟨[], next, by rw [hend]; rfl, rfl, rfl, ?_⟩
                rw [hend]
                intro m hm
                rw [List.mem_singleton.mp hm]
                exact hfull
              · rw [if_neg hnext] at hrun
                have hms' : ms ≠ [] := fun h0 => hnext (hrest.nil_iff.mpr h0)
                rcases ih (fun m hm => hcov m (List.mem_cons_of_mem _ hm)) hrest hms' hrun with
                  ⟨m, j, e, fs, hr, hs', hm, hrest⟩ | ⟨pre, q, hpre, hr, hs', hall⟩
                · exact Or.inl ⟨m, j, e, fs, hr, hs', List.mem_cons_of_mem _ hm, hrest⟩
                · refine Or.inr ⟨next :: pre, q, by rw [hpre]; rfl, hr, hs', ?_⟩
                  exact List.forall_mem_cons.mpr ⟨hfull, hall⟩

/-- **A new block map** with the entry in its first slot. -/
theorem placeInNewMap_ok {x : BlockNo} {data : BlockNo → Sector} (hclear : g.Clear)
    (huse : InUse g dev row H s.fs) (hx : ∀ k, ¬ g.InMap k x)
    (hrun : placeInNewMap flatStore dev (fun next => writeSector flatStore dev x (data next)) s =
      some (.ok e, s')) :
    g.Covers .imap e ∧ ∃ m fs, s' = s.setFs fs ∧ g.Covers .bmap m ∧
      Progress g dev row H [e] [m] s.fs
        (Function.update (Function.update (s.fs.store dev) x (data m)) m
          (BlockMap.layout (BlockMap.single e))) fs := by
  rw [placeInNewMap] at hrun
  obtain ⟨m, s₁, htake, hrun⟩ := Call.bind_eq_ok.mp hrun
  obtain ⟨hcovM, fs₁, hs₁, hprog⟩ := (Progress.start huse).takeData_ok htake
  rw [Call.bind_of_ok (writeSector_flat ..)] at hrun
  obtain ⟨e', s₂, htake, hrun⟩ := Call.bind_eq_ok.mp hrun
  have hlinked := hprog.write hx (data m)
  rw [hs₁, Names.write_eq, Names.setFs_fs] at htake
  obtain ⟨hcovE, fs₂, hs₂, hprog⟩ := Progress.takeInode_ok (s := (s.setFs fs₁).setFs
    (fs₁.write dev x (data m))) hlinked htake
  rw [Call.bind_of_ok (writeSector_flat ..)] at hrun
  cases hrun
  refine ⟨hcovE, m, _, ?_, hcovM, hprog.write (hclear.not_map .bmap m hcovM) _⟩
  rw [hs₂, Names.write_eq, Names.setFs_fs, Names.setFs_setFs, Names.setFs_setFs, Names.setFs_setFs]
  rfl

/-- **The place of a new entry.** -/
theorem placeEntry_ok (hclear : g.Clear) (huse : InUse g dev row H s.fs)
    (hcov : ∀ m ∈ ms, g.Covers .bmap m) (hP : g.Covers .imap P)
    (hself : (inodeAt (s.fs.store dev) P).self = P)
    (hl : Linked (s.fs.store dev) (inodeAt (s.fs.store dev) P).next ms)
    (hrun : placeEntry flatStore dev fuel (inodeAt (s.fs.store dev) P) s = some (.ok e, s')) :
    g.Covers .imap e ∧ ∃ ext d fs, s' = s.setFs fs ∧ (∀ m ∈ ext, g.Covers .bmap m) ∧
      Planted (s.fs.store dev) P ms e ext d ∧ ext.length = mapsNeeded (s.fs.store dev) ms ∧
      Progress g dev row H [e] ext s.fs d fs := by
  rw [placeEntry] at hrun
  by_cases hnext : (inodeAt (s.fs.store dev) P).next = inodeNull
  · have hlink : (fun next => writeSector flatStore dev (inodeAt (s.fs.store dev) P).self
        (Inode.layout { inodeAt (s.fs.store dev) P with next := next })) = fun next =>
          writeSector flatStore dev P (Inode.layout { inodeAt (s.fs.store dev) P with next := next }) := by
      funext next
      exact congrArg (fun x => writeSector flatStore dev x _) hself
    rw [if_pos hnext, hlink] at hrun
    have hnil := hl.nil_iff.mp hnext
    obtain ⟨hcovE, m, fs, hs', hcovM, hprog⟩ :=
      placeInNewMap_ok hclear huse (hclear.not_map .imap P hP) hrun
    refine ⟨hcovE, [m], _, fs, hs', List.forall_mem_singleton.mpr hcovM, .first m hnil, ?_, hprog⟩
    have hfull : FullChain (s.fs.store dev) ms := by
      rw [hnil]
      exact List.forall_mem_nil _
    rw [mapsNeeded, if_pos hfull]
    rfl
  · rw [if_neg hnext] at hrun
    have hms : ms ≠ [] := fun h0 => hnext (hl.nil_iff.mpr h0)
    obtain ⟨r, s₁, hchain, hrun⟩ := Call.bind_eq_ok.mp hrun
    rcases placeInChain_ok hclear huse hcov hl hms hchain with
      ⟨m, j, e', fs, rfl, hs₁, hm, hj, hcovE, hprog⟩ | ⟨pre, q, hpre, rfl, rfl, hfull⟩
    · cases hrun
      refine ⟨hcovE, [], _, fs, hs₁, List.forall_mem_nil _, .hole m j hm hj, ?_, hprog⟩
      rw [mapsNeeded, if_neg fun hfull => hfull m hm j hj]
      rfl
    · have hq := hcov q (by rw [hpre]; exact List.mem_append_right _ (List.mem_singleton_self q))
      obtain ⟨hcovE, m, fs, hs', hcovM, hprog⟩ :=
        placeInNewMap_ok hclear huse (hclear.not_map .bmap q hq) hrun
      refine ⟨hcovE, [m], _, fs, hs', List.forall_mem_singleton.mpr hcovM, .append pre q m hpre, ?_,
        hprog⟩
      rw [mapsNeeded, if_pos hfull]
      rfl

end Place

/-! ## The new inode -/

/-- An inode with a name and a place, of no kind yet. -/
structure Inode.Blank (n : Inode) (e P : BlockNo) (name : CStr) : Prop where
  self : n.self = e
  parent : n.parent = P
  name : n.name = name
  next : n.next = inodeNull
  isFile : n.isFile = 0
  isDirectory : n.isDirectory = 0
  isSymlink : n.isSymlink = 0
  isHardlink : n.isHardlink = 0

/-- The inode of a new node, with the link block `lnk` of a link. -/
structure NodeMade (e P : BlockNo) (k : NodeKind) (name : CStr) (lnk : List BlockNo) (n : Inode) :
    Prop where
  self : n.self = e
  parent : n.parent = P
  name : n.name = name
  kind : n.HasKind k
  link : n.IsLink → lnk = [n.next]
  next : ¬ n.IsLink → lnk = [] ∧ n.next = inodeNull

/-- The kind of node that a mode makes, hard links apart. -/
def InodeMode.kind : InodeMode → Option NodeKind
  | .createFile => some .file
  | .createDir => some .dir
  | .createSymlink => some .symlink
  | _ => none

/-- The number of link blocks that a new node needs. -/
def NodeKind.links : NodeKind → ℕ
  | .symlink => 1
  | _ => 0

section Made
variable {e P l : BlockNo} {name : CStr} {n : Inode}

/-- Without a kind. -/
theorem newInode_blank {now : BlockNo} {perm umask group owner : UInt32} (hname : name.Fits) :
    (newInode now name perm umask group owner e P).Blank e P name :=
  ⟨rfl, rfl, cstr_strcpy hname, rfl, rfl, rfl, rfl, rfl⟩

theorem Inode.Blank.file (h : n.Blank e P name) :
    NodeMade e P .file name [] { n with isFile := 1 } where
  self := h.self
  parent := h.parent
  name := h.name
  kind := ⟨by simp, by simp [h.isDirectory], by simp [h.isSymlink], by simp [h.isHardlink]⟩
  link := by simp [Inode.IsLink, h.isSymlink, h.isHardlink]
  next _ := ⟨rfl, h.next⟩

theorem Inode.Blank.dir (h : n.Blank e P name) :
    NodeMade e P .dir name [] { n with isDirectory := 1 } where
  self := h.self
  parent := h.parent
  name := h.name
  kind := ⟨by simp [h.isFile], by simp, by simp [h.isSymlink], by simp [h.isHardlink]⟩
  link := by simp [Inode.IsLink, h.isSymlink, h.isHardlink]
  next _ := ⟨rfl, h.next⟩

theorem Inode.Blank.symlink (h : n.Blank e P name) :
    NodeMade e P .symlink name [l] { n with isSymlink := 1, next := l } where
  self := h.self
  parent := h.parent
  name := h.name
  kind := ⟨by simp [h.isFile], by simp [h.isDirectory], by simp, by simp [h.isHardlink]⟩
  link _ := rfl
  next := by simp [Inode.IsLink]

end Made

section Make
variable {g : Shape} {dev : DevNo} {row : Fin inodeNrDev} {H : BlockSets} {s s' : Names Disk}
  {P e : BlockNo} {ext : List BlockNo} {fs₀ : FsState Disk} {d : Dev} {name : CStr}

/-- **The new inode is written**, with the block of a link in front of it. -/
theorem makeNode_ok (hclear : g.Clear) (hprog : Progress g dev row H [e] ext fs₀ d s.fs)
    (he : g.Covers .imap e) {n : Inode} (hblank : n.Blank e P name) {mode : InodeMode}
    {k : NodeKind} (hk : mode.kind = some k) {get : BlockNo → CStr → NameM Disk Inode}
    {linkPath : CStr} {u : Unit}
    (hrun : makeNode flatStore dev get mode linkPath n s = some (.ok u, s')) :
    ∃ lnk d' fs, s' = s.setFs fs ∧ (∀ m ∈ lnk, g.Covers .bmap m) ∧ lnk.length = k.links ∧
      NodeMade e P k name lnk (inodeAt d' e) ∧ (∀ q, q ≠ e → q ∉ lnk → d' q = d q) ∧
      Progress g dev row H [e] (ext ++ lnk) fs₀ d' fs := by
  have hmap := hclear.not_map .imap e he
  -- A node without a link block is one write.
  have hplain : ∀ {k : NodeKind} {n' : Inode}, n'.self = e → NodeMade e P k name [] n' →
      k.links = 0 → writeSector flatStore dev n'.self (Inode.layout n') s = some (.ok u, s') →
      ∃ lnk d' fs, s' = s.setFs fs ∧ (∀ m ∈ lnk, g.Covers .bmap m) ∧ lnk.length = k.links ∧
        NodeMade e P k name lnk (inodeAt d' e) ∧ (∀ q, q ≠ e → q ∉ lnk → d' q = d q) ∧
        Progress g dev row H [e] (ext ++ lnk) fs₀ d' fs := by
    intro k n' hself hmade hlinks hwrite
    rw [hself, writeSector_flat, Names.write_eq] at hwrite
    cases hwrite
    refine ⟨[], Function.update d e (Inode.layout n'), _, rfl, List.forall_mem_nil _, hlinks.symm, ?_,
      fun q hq _ => Function.update_of_ne hq _ _, ?_⟩
    · rw [inodeAt_update]
      exact hmade
    · rw [List.append_nil]
      exact hprog.write hmap _
  cases mode with
  | createFile =>
      cases hk
      rw [makeNode, Call.bind_of_ok (readInode_flat ..)] at hrun
      have hmade := hblank.file
      exact hplain hmade.self hmade rfl hrun
  | createDir =>
      cases hk
      rw [makeNode, Call.bind_of_ok (readInode_flat ..)] at hrun
      have hmade := hblank.dir
      exact hplain hmade.self hmade rfl hrun
  | createSymlink =>
      cases hk
      rw [makeNode, Call.bind_of_ok (readInode_flat ..), writeLink] at hrun
      obtain ⟨l, s₁, htake, hrun⟩ := Call.bind_eq_ok.mp hrun
      obtain ⟨hcov, fs, hs₁, hprog⟩ := hprog.takeData_ok htake
      have hself := hblank.self
      subst hself
      rw [Call.bind_of_ok (writeSector_flat ..), writeSector_flat, hs₁, Names.write_eq,
        Names.write_eq, Names.setFs_fs, Names.setFs_fs, Names.setFs_setFs, Names.setFs_setFs] at hrun
      cases hrun
      refine ⟨[l], _, _, rfl, List.forall_mem_singleton.mpr hcov, rfl, ?_, fun q hqe hql => ?_,
        (hprog.write (hclear.not_map .bmap l hcov) _).write hmap _⟩
      · rw [inodeAt_update]
        exact hblank.symlink
      · have hne : q ≠ l := fun h0 => hql (List.mem_singleton.mpr h0)
        rw [Function.update_of_ne hqe, Function.update_of_ne hne]
  | _ => cases hk

end Make

end OxKernel.Fs
