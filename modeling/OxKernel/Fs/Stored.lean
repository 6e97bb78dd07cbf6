import OxKernel.Fs.Blocks
import OxKernel.Fs.TreeChanges
import OxKernel.Fs.Capacity

/-!
# A tree on a volume

A volume that holds a tree: the device has its shape, and its inode blocks and the blocks of
its nodes are allocated. Every lookup ends at a node.

## Main definitions

* `Shape.Clear` — no block that can be allocated is one of the maps or the master.
* `Tree.held` — the blocks of a tree.
* `Stored` — a mounted volume that holds a tree.
-/
namespace OxKernel.Fs

open Lib (Call)

/-- The blocks that a map numbers are not NULL, and they are apart from the master and the
maps. -/
structure Shape.Clear (g : Shape) : Prop where
  ne_null : ∀ k b, g.Covers k b → b ≠ inodeNull
  ne_master : ∀ k b, g.Covers k b → b ≠ g.blockStart
  not_map : ∀ k b, g.Covers k b → ∀ k', ¬ g.InMap k' b

/-- On a volume the maps and the master come before the inodes and the data. -/
theorem volumeShape_clear {n : BlockNo} (hn : n.toNat < 8388608) : (volumeShape n).Clear := by
  have H := volumeShape_numbers hn
  have habove : ∀ k b, (volumeShape n).Covers k b →
      4097 + mapBlocks (volumeInodes n.toNat) + mapBlocks (volumeBlocks n.toNat) ≤ b.toNat := by
    intro k b hb
    have hstart := H.regionStart k
    have hle := hb.1
    cases k <;> simp only at hstart <;> omega
  constructor
  · intro k b hb h0
    have hle := habove k b hb
    have hnull : b.toNat = 0 := by
      rw [h0]
      rfl
    omega
  · intro k b hb h0
    have hle := habove k b hb
    rw [h0, H.blockStart] at hle
    omega
  · intro k b hb k' hin
    have hle := habove k b hb
    have hend := H.mapEnd k'
    have hstart := H.mapStart k'
    have hlt := hin.2
    cases k' <;> simp only [volumeCount] at hend hstart <;> omega

/-- The blocks of a tree. -/
def Tree.held (T : Tree) (d : Dev) : BlockSets
  | .imap => T.nodes
  | .bmap => T.nodes.biUnion fun b => (T.owned d b).toFinset

theorem Tree.mem_held_bmap {T : Tree} {d : Dev} {x : BlockNo} :
    x ∈ T.held d .bmap ↔ ∃ b ∈ T.nodes, x ∈ T.owned d b := by
  simp [held]

/-- A mounted volume that holds a tree. -/
structure Stored (g : Shape) (dev : DevNo) (row : Fin inodeNrDev) (T : Tree) (fs : FsState Disk) :
    Prop where
  clear : g.Clear
  shaped : Shaped (g.regionStart .imap) T (fs.store dev)
  inUse : InUse g dev row (T.held (fs.store dev)) fs

namespace Stored
variable {g : Shape} {dev : DevNo} {row : Fin inodeNrDev} {T : Tree} {s s' : Names Disk}
  {fs : FsState Disk}

theorem covers_node (h : Stored g dev row T fs) {b : BlockNo} (hb : b ∈ T.nodes) :
    g.Covers .imap b :=
  h.inUse.covers hb

theorem covers_map (h : Stored g dev row T fs) {b m : BlockNo} (hb : b ∈ T.nodes)
    (hm : m ∈ T.chain b) : g.Covers .bmap m :=
  h.inUse.covers (Tree.mem_held_bmap.mpr ⟨b, hb, (h.shaped.node b hb).chain_subset m hm⟩)

/-- What is there for a lookup is there for it. -/
theorem shows (h : Stored g dev row T s.fs) :
    Shows dev (g.regionStart .imap) T.nodes T.maxLength s s where
  toView := h.shaped.view
  mounted := h.inUse.ok.rootBlock_eq
  mounted' := h.inUse.ok.rootBlock_eq
  count := rfl

/-- **A lookup that succeeds** ends at a node and leaves the state alone. -/
theorem inodeGet_ok (h : Stored g dev row T s.fs) {p : Cred} {now cwd : BlockNo} {fuel : ℕ}
    {path : CStr} {doReadlink : Bool} {mode : InodeMode} {n : Inode}
    (hrun : inodeGet flatStore dev p now fuel cwd path doReadlink mode s = some (.ok n, s')) :
    s' = s ∧ ∃ b ∈ T.nodes, n = inodeAt (s.fs.store dev) b := by
  have hmore : Call.Mirrors (SameNode s s dev T.nodes)
      (inodeGet flatStore dev p now fuel cwd path doReadlink mode) s
      (inodeGet flatStore dev p now (fuel + T.maxLength) cwd path doReadlink mode) s :=
    h.shows.mirrors_inodeGet (le_refl _) (samePath_self s cwd path) doReadlink mode
  obtain ⟨hs, -, -, b, hb, hn, -⟩ := hmore n s' hrun
  exact ⟨hs, b, hb, hn⟩

/-- A component of a directory that has been entered. -/
theorem stepDir_entered (h : Stored g dev row T s.fs) {p : Cred} {b P e : BlockNo} {fuel : ℕ}
    {name : CStr} (hP : P ∈ T.nodes) (hdir : (inodeAt (s.fs.store dev) P).isDirectory ≠ 0)
    (hrx : inodeCheckPermissions (inodeAt (s.fs.store dev) P) p .rx)
    (hent : namedEntry (s.fs.store dev) (T.chain P) name = some e)
    (hfuel : (T.chain P).length ≤ fuel) {rl : BlockNo → NameM Disk BlockNo}
    (henter : enterDir flatStore dev rl b s = some (.ok (found (s.fs.store dev) P), s)) :
    stepDir flatStore dev p rl fuel name b s = some (.ok (found (s.fs.store dev) e), s) := by
  have hlinked := (h.shaped.node _ hP).linked_dir hdir
  have hchain : T.chain P ≠ [] := by
    intro h0
    rw [h0] at hent
    cases hent
  have hne := hlinked.head_ne hchain
  have hscan := (scanChain_flat name fuel hlinked hchain).resolve_left
    fun hc => absurd hc.2 (Nat.not_lt.mpr hfuel)
  rw [stepDir, Call.bind_of_ok henter]
  refine (Call.bind_of_ok (Call.require_of_pos hrx)).trans ?_
  refine (Call.bind_of_ok (Call.require_of_pos hne)).trans ((Call.bind_of_ok hscan).trans ?_)
  rw [hent]
  rfl

/-- A component of a directory. -/
theorem stepDir_dir (h : Stored g dev row T s.fs) {p : Cred} {P e : BlockNo} {fuel : ℕ}
    {name : CStr} (hP : P ∈ T.nodes) (hdir : (inodeAt (s.fs.store dev) P).isDirectory ≠ 0)
    (hrx : inodeCheckPermissions (inodeAt (s.fs.store dev) P) p .rx)
    (hent : namedEntry (s.fs.store dev) (T.chain P) name = some e)
    (hfuel : (T.chain P).length ≤ fuel) (rl : BlockNo → NameM Disk BlockNo) :
    stepDir flatStore dev p rl fuel name P s = some (.ok (found (s.fs.store dev) e), s) := by
  obtain ⟨k, hk⟩ := (h.shaped.node _ hP).kind
  have hsym : ¬ (inodeAt (s.fs.store dev) P).isSymlink ≠ 0 :=
    fun hs => (hk.not_link_of_dir hdir).1 (Or.inl hs)
  refine h.stepDir_entered hP hdir hrx hent hfuel ?_
  rw [enterDir, Call.bind_of_ok (readInode_flat ..), if_pos (Or.inl hdir), if_neg hsym]
  rfl

/-- A path with one component leads to an entry of the root, and from there along the link
if it is one. -/
theorem getFrom_child (h : Stored g dev row T s.fs) {p : Cred} {now cwd e : BlockNo} {fuel : ℕ}
    {path name : CStr} (hslash : path.head? = some slash) (hlen : path.length ≤ maxPath)
    (hcomp : components (normalize path) = [[], name])
    (hrx : inodeCheckPermissions (inodeAt (s.fs.store dev) (g.regionStart .imap)) p .rx)
    (hent : namedEntry (s.fs.store dev) (T.chain (g.regionStart .imap)) name = some e)
    (hfuel : (T.chain (g.regionStart .imap)).length ≤ fuel) (rl : BlockNo → NameM Disk BlockNo)
    (doReadlink : Bool) (mode : InodeMode) :
    getFrom flatStore dev p now (g.regionStart .imap) rl fuel cwd path doReadlink mode s =
      finishGet flatStore dev p rl doReadlink mode (inodeAt (s.fs.store dev) e) s := by
  have hok := h.shaped.node _ h.shaped.rootMem
  have hwalk : walk flatStore dev p rl fuel [name].dropLast (g.regionStart .imap) s =
      some (.ok (g.regionStart .imap), s) := rfl
  rw [getFrom, Call.bind_of_ok (Call.require_of_pos hlen),
    Call.bind_of_ok (krealpath_absolute hslash hlen),
    Call.bind_of_ok (rootInode_flat h.shaped.rootName), hcomp, hok.self]
  exact (Call.bind_of_ok hwalk).trans (Call.bind_of_ok (h.stepDir_dir h.shaped.rootMem h.shaped.rootDir hrx hent
    hfuel rl))

theorem inodeGet_entry (h : Stored g dev row T s.fs) {p : Cred} {now cwd e : BlockNo} {fuel : ℕ}
    {path name : CStr} {doReadlink : Bool} {mode : InodeMode} (hslash : path.head? = some slash)
    (hlen : path.length ≤ maxPath) (hcomp : components (normalize path) = [[], name])
    (hrx : inodeCheckPermissions (inodeAt (s.fs.store dev) (g.regionStart .imap)) p .rx)
    (hent : namedEntry (s.fs.store dev) (T.chain (g.regionStart .imap)) name = some e)
    (hnl : ¬ ((inodeAt (s.fs.store dev) e).IsLink ∧ doReadlink = true))
    (hmode : inodeCheckPermissions (inodeAt (s.fs.store dev) e) p mode)
    (hfuel : (T.chain (g.regionStart .imap)).length ≤ fuel) :
    inodeGet flatStore dev p now (fuel + 1) cwd path doReadlink mode s =
      some (.ok (inodeAt (s.fs.store dev) e), s) := by
  have hmount : (ofOption (some (g.regionStart .imap)) : NameM Disk BlockNo) s =
      some (.ok (g.regionStart .imap), s) := rfl
  have hcond : ¬ (((inodeAt (s.fs.store dev) e).isSymlink ≠ 0 ∨
      (inodeAt (s.fs.store dev) e).isHardlink ≠ 0) ∧ doReadlink = true) := hnl
  rw [inodeGet, Call.get_bind_apply, h.inUse.ok.rootBlock_eq, Call.bind_of_ok hmount,
    h.getFrom_child hslash hlen hcomp hrx hent hfuel, finishGet, if_neg hcond]
  exact Call.bind_of_ok (Call.require_of_pos hmode)

theorem inodeGet_child (h : Stored g dev row T s.fs) {p : Cred} {now cwd e : BlockNo} {fuel : ℕ}
    {path name : CStr} {mode : InodeMode} (hslash : path.head? = some slash)
    (hlen : path.length ≤ maxPath) (hcomp : components (normalize path) = [[], name])
    (hrx : inodeCheckPermissions (inodeAt (s.fs.store dev) (g.regionStart .imap)) p .rx)
    (hent : namedEntry (s.fs.store dev) (T.chain (g.regionStart .imap)) name = some e)
    (hmode : inodeCheckPermissions (inodeAt (s.fs.store dev) e) p mode)
    (hfuel : (T.chain (g.regionStart .imap)).length ≤ fuel) :
    inodeGet flatStore dev p now (fuel + 1) cwd path false mode s =
      some (.ok (inodeAt (s.fs.store dev) e), s) :=
  h.inodeGet_entry hslash hlen hcomp hrx hent (fun hc => Bool.false_ne_true hc.2) hmode hfuel

/-- A path with two components leads to an entry of an entry of the root. -/
theorem inodeGet_grandchild (h : Stored g dev row T s.fs) {p : Cred} {now cwd a e : BlockNo}
    {fuel : ℕ} {path first last : CStr} {doReadlink : Bool} {mode : InodeMode}
    (hslash : path.head? = some slash) (hlen : path.length ≤ maxPath)
    (hcomp : components (normalize path) = [[], first, last])
    (hrx : inodeCheckPermissions (inodeAt (s.fs.store dev) (g.regionStart .imap)) p .rx)
    (henta : namedEntry (s.fs.store dev) (T.chain (g.regionStart .imap)) first = some a)
    (hfuel : (T.chain (g.regionStart .imap)).length ≤ fuel)
    (hdir : (inodeAt (s.fs.store dev) a).isDirectory ≠ 0)
    (hrxa : inodeCheckPermissions (inodeAt (s.fs.store dev) a) p .rx)
    (hent : namedEntry (s.fs.store dev) (T.chain a) last = some e)
    (hfuela : (T.chain a).length ≤ fuel) (hnl : ¬ (inodeAt (s.fs.store dev) e).IsLink)
    (hmode : inodeCheckPermissions (inodeAt (s.fs.store dev) e) p mode) :
    inodeGet flatStore dev p now (fuel + 1) cwd path doReadlink mode s =
      some (.ok (inodeAt (s.fs.store dev) e), s) := by
  have hmount : (ofOption (some (g.regionStart .imap)) : NameM Disk BlockNo) s =
      some (.ok (g.regionStart .imap), s) := rfl
  have hroot := h.shaped.node _ h.shaped.rootMem
  have hmem := (hroot.entries h.shaped.rootDir a (namedEntry_some henta).1).1
  have hcond : ¬ (((inodeAt (s.fs.store dev) e).isSymlink ≠ 0 ∨
      (inodeAt (s.fs.store dev) e).isHardlink ≠ 0) ∧ doReadlink = true) := fun hc => hnl hc.1
  rw [inodeGet, Call.get_bind_apply, h.inUse.ok.rootBlock_eq, Call.bind_of_ok hmount]
  generalize (kreadlink flatStore dev (g.regionStart .imap) fuel fun cwd path =>
    inodeGet flatStore dev p now fuel cwd path true .dontCheckPerms) = rl
  have hfirst := h.stepDir_dir h.shaped.rootMem h.shaped.rootDir hrx henta hfuel rl
  have hwalk : walk flatStore dev p rl fuel [first] (g.regionStart .imap) s = some (.ok a, s) :=
    Call.bind_of_ok hfirst
  rw [getFrom, Call.bind_of_ok (Call.require_of_pos hlen),
    Call.bind_of_ok (krealpath_absolute hslash hlen),
    Call.bind_of_ok (rootInode_flat h.shaped.rootName), hcomp, hroot.self]
  refine (Call.bind_of_ok hwalk).trans
    ((Call.bind_of_ok (h.stepDir_dir hmem hdir hrxa hent hfuela rl)).trans ?_)
  rw [found, finishGet, if_neg hcond, Call.pure_bind_apply]
  exact Call.bind_of_ok (Call.require_of_pos hmode)

end Stored

/-! ## Volumes in use -/

/-- A map block with its first eight bits set. -/
def usedSector : Sector := fun i => if i.val = 0 then 255 else 0

/-- A volume on which the first eight inode blocks and the first eight data blocks are in use. -/
def usedVolume (g : Shape) (fs : FsState Disk) : FsState Disk :=
  { fs with
    store := fun dev b =>
      if b = g.mapStart .imap ∨ b = g.mapStart .bmap then usedSector else fs.store dev b
    window := fun _ _ => usedSector }

theorem bitGet_usedSector : ∀ i < 8, bitGet usedSector i = 1 := by decide

theorem usedVolume_map {g : Shape} {fs : FsState Disk} {dev : DevNo} (k : MapKind) :
    (usedVolume g fs).store dev (g.mapStart k) = usedSector := by
  cases k
  · exact if_pos (Or.inl rfl)
  · exact if_pos (Or.inr rfl)

theorem Fresh.inUse {g : Shape} {row : Fin inodeNrDev} {fs : FsState Disk} (h : Fresh g row fs)
    {H : BlockSets} (hH : ∀ k, ∀ b ∈ H k, (g.regionStart k).toNat ≤ b.toNat ∧
      b.toNat < (g.regionStart k).toNat + 8) : InUse g 0 row H (usedVolume g fs) := by
  have hlen : ∀ k, 0 < g.mapLen k := fun k => Nat.sub_pos_of_lt (h.ok.sound.nonempty k)
  have hcov : ∀ k, ∀ b ∈ H k, g.Covers k b := by
    intro k b hb
    have hpos := hlen k
    obtain ⟨hle, hlt⟩ := hH k b hb
    exact ⟨hle, by omega⟩
  have hptr : ∀ k, ∀ b ∈ H k, g.ptrOf k b = g.mapStart k := by
    intro k b hb
    obtain ⟨hle, hlt⟩ := hH k b hb
    refine UInt32.toNat_inj.mp ?_
    rw [Shape.ptrOf_toNat h.ok.sound (hcov k b hb)]
    omega
  have hbit : ∀ k, ∀ b ∈ H k, bitGet usedSector (g.bitOf k b).toNat = 1 := by
    intro k b hb
    obtain ⟨hle, hlt⟩ := hH k b hb
    refine bitGet_usedSector _ ?_
    rw [Shape.bitOf_toNat (hcov k b hb)]
    omega
  have hok : MapsOk g 0 row (usedVolume g fs) := ⟨h.ok.sound, h.ok.mounted, h.ok.shape, h.ok.ptr, h.ok.bit⟩
  have hstart : ∀ k, ((usedVolume g fs).masterTab row).ptr k = g.mapStart k := h.ptr
  constructor
  · refine ⟨hok, hcov, fun k b hb => ?_, fun k b hb _ => hbit k b hb⟩
    show bitGet ((usedVolume g fs).store 0 (g.ptrOf k b)) _ = 1
    rw [hptr k b hb, usedVolume_map]
    exact hbit k b hb
  · intro k
    left
    rw [hstart k, usedVolume_map]
    rfl

/-- The tree of a root directory without directories in it. -/
def flatTree (root : BlockNo) (N : Finset BlockNo) (ms : List BlockNo) : Tree :=
  ⟨insert root N, fun b => if b = root then ms else []⟩

section Flat
variable {root : BlockNo} {d : Dev} {ms : List BlockNo} {N : Finset BlockNo}

theorem owned_flatTree (hdir : (inodeAt d root).HasKind .dir) (hroot : root ∉ N) {b : BlockNo}
    (hb : b ∈ (flatTree root N ms).nodes) :
    (flatTree root N ms).owned d b =
      if b = root then ms else if (inodeAt d b).IsLink then [(inodeAt d b).next] else [] := by
  rcases Finset.mem_insert.mp hb with rfl | hb
  · rw [if_pos rfl, Tree.owned_dir ⟨_, hdir⟩ (hdir.dir.mpr rfl)]
    exact if_pos rfl
  · have hne : b ≠ root := fun h0 => hroot (h0 ▸ hb)
    have hempty : (flatTree root N ms).chain b = [] := if_neg hne
    rw [if_neg hne, Tree.owned, hempty, fileBlocks_nil, ite_self]

/-- An entry of a root directory that has no blocks but a link block. -/
structure LeafOk (root : BlockNo) (d : Dev) (ms : List BlockNo) (N : Finset BlockNo) (e : BlockNo) :
    Prop where
  self : (inodeAt d e).self = e
  parent : (inodeAt d e).parent = root
  kind : ∃ k, (inodeAt d e).HasKind k ∧ k ≠ .dir
  next : ¬ (inodeAt d e).IsLink → (inodeAt d e).next = inodeNull
  link : (inodeAt d e).IsLink → (inodeAt d e).next ∉ ms ∧ (inodeAt d e).next ≠ root ∧
    (inodeAt d e).next ∉ N ∧ ∀ e' ∈ N, (inodeAt d e').IsLink → (inodeAt d e').next = (inodeAt d e).next →
      e' = e

/-- **A root directory with leaves** is a tree. -/
theorem Shaped.of_leaves (hname : (inodeAt d root).name = [slash])
    (hself : (inodeAt d root).self = root) (hparent : (inodeAt d root).parent = root)
    (hdir : (inodeAt d root).HasKind .dir) (hlinked : Linked d (inodeAt d root).next ms)
    (hdist : EntriesOk d ms) (hmaps : ∀ m ∈ ms, m ≠ root ∧ m ∉ N) (hroot : root ∉ N)
    (hN : ∀ e, HasEntry d ms e ↔ e ∈ N) (hleaf : ∀ e ∈ N, LeafOk root d ms N e) :
    Shaped root (flatTree root N ms) d := by
  have hdir0 : (inodeAt d root).isDirectory ≠ 0 := hdir.dir.mpr rfl
  have hne : ∀ e ∈ N, e ≠ root := fun e he h0 => hroot (h0 ▸ he)
  have hownRoot : (flatTree root N ms).owned d root = ms := by
    rw [owned_flatTree hdir hroot (Finset.mem_insert_self _ _), if_pos rfl]
  -- The one block of a leaf is the link block of a link.
  have hownLeaf : ∀ e ∈ N, ∀ x ∈ (flatTree root N ms).owned d e,
      (inodeAt d e).IsLink ∧ x = (inodeAt d e).next := by
    intro e he x hx
    rw [owned_flatTree hdir hroot (Finset.mem_insert_of_mem he), if_neg (hne e he)] at hx
    split at hx
    · rename_i hl
      exact ⟨hl, List.mem_singleton.mp hx⟩
    · cases hx
  refine ⟨⟨?_, ?_, ?_⟩, Finset.mem_insert_self _ _, hname, hdir0, hparent, ?_⟩
  · intro a ha b hb hmem
    rcases Finset.mem_insert.mp ha with rfl | ha
    · rw [hownRoot] at hmem
      obtain ⟨h1, h2⟩ := hmaps b hmem
      exact (Finset.mem_insert.mp hb).elim h1 h2
    · obtain ⟨hl, rfl⟩ := hownLeaf a ha b hmem
      obtain ⟨-, h1, h2, -⟩ := (hleaf a ha).link hl
      exact (Finset.mem_insert.mp hb).elim h1 h2
  · intro a ha b hb hab x hxa hxb
    rcases Finset.mem_insert.mp ha with rfl | haN
    · rw [hownRoot] at hxa
      have hb := (Finset.mem_insert.mp hb).resolve_left hab.symm
      obtain ⟨hl, rfl⟩ := hownLeaf b hb x hxb
      exact ((hleaf b hb).link hl).1 hxa
    · obtain ⟨hl, rfl⟩ := hownLeaf a haN x hxa
      rcases Finset.mem_insert.mp hb with rfl | hbN
      · rw [hownRoot] at hxb
        exact ((hleaf a haN).link hl).1 hxb
      · obtain ⟨hl', heq⟩ := hownLeaf b hbN _ hxb
        exact hab (((hleaf b hbN).link hl').2.2.2 a haN hl heq)
  · intro a ha
    rcases Finset.mem_insert.mp ha with rfl | ha
    · rw [hownRoot]
      exact hlinked.nodup
    · rw [owned_flatTree hdir hroot (Finset.mem_insert_of_mem ha), if_neg (hne a ha)]
      split
      · exact List.nodup_singleton _
      · exact List.nodup_nil
  · intro b hb
    rcases Finset.mem_insert.mp hb with rfl | hb
    · have hl : ¬ (inodeAt d b).IsLink := (hdir.not_link_of_dir hdir0).1
      refine ⟨hself, ⟨_, hdir⟩, fun _ => ?_, fun h => absurd h hl, ?_, ?_, fun h => absurd rfl h,
        fun _ => ?_, fun _ e he => ?_⟩
      · simp only [flatTree, if_true]
        exact hlinked
      · rw [hparent]
        exact Finset.mem_insert_self _ _
      · rw [hparent]
        exact hdir0
      · simp only [flatTree, if_true]
        exact hdist
      · simp only [flatTree, if_true] at he
        have heN := (hN e).mp he
        exact ⟨Finset.mem_insert_of_mem heN, (hleaf e heN).parent, hne e heN⟩
    · have hok := hleaf b hb
      obtain ⟨k, hk, hkd⟩ := hok.kind
      have hchain : (flatTree root N ms).chain b = [] := if_neg (hne b hb)
      have hnd0 : ¬ (inodeAt d b).isDirectory ≠ 0 := not_not.mpr (hk.eq_zero.2.1 hkd)
      refine ⟨hok.self, ⟨_, hk⟩, fun hl => ?_, fun _ => hchain, ?_, ?_, fun _ => ?_,
        fun h => absurd h hnd0, fun h => absurd h hnd0⟩
      · rw [hchain]
        exact hok.next hl
      · rw [hok.parent]
        exact Finset.mem_insert_self _ _
      · rw [hok.parent]
        exact hdir0
      · rw [hok.parent]
        simp only [flatTree, if_true]
        exact (hN b).mpr hb

end Flat

end OxKernel.Fs
