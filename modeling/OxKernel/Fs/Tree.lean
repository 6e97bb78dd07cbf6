import OxKernel.Fs.Resolve
import Mathlib

/-!
# The tree on a device

Which blocks of a device are inodes and which block maps belong to a directory or a file is
not recorded in one place, so a tree is given beside the device: the inode blocks in use and
the chain of each of them. `Shaped` says that the device holds this tree. Every node names
itself and its parent, a directory lists nodes that name it as their parent, under names that
are all different, and no block belongs to two nodes.

The changes that `inode_create` and `inode_free` make to a device keep the shape: a directory
gets one more entry, loses one, or loses an empty block map.

## Main definitions

* `Tree`, `Tree.owned` — the nodes, and the blocks that belong to one of them.
* `NodeOk`, `Shaped` — a device that holds a tree.
* `Shaped.view` — a lookup on such a device ends at a node.
-/
namespace OxKernel.Fs

/-- The inode blocks in use and the block maps of each. -/
structure Tree where
  nodes : Finset BlockNo
  chain : BlockNo → List BlockNo

/-- `is_file`, `is_directory`, `is_symlink` and `is_hardlink`. -/
inductive NodeKind
  | file
  | dir
  | symlink
  | hardlink
  deriving DecidableEq, Repr

/-- Exactly the flag of a kind is set. -/
structure Inode.HasKind (n : Inode) (k : NodeKind) : Prop where
  file : n.isFile ≠ 0 ↔ k = .file
  dir : n.isDirectory ≠ 0 ↔ k = .dir
  symlink : n.isSymlink ≠ 0 ↔ k = .symlink
  hardlink : n.isHardlink ≠ 0 ↔ k = .hardlink

section Entries
variable (d : Dev) (ms : List BlockNo)

/-- A used slot of a chain. -/
def HasEntry (e : BlockNo) : Prop := e ≠ inodeNull ∧ ∃ m ∈ ms, ∃ j, (mapAt d m).blocks j = e

/-- The entries are in different slots and have different names. -/
structure EntriesOk : Prop where
  slots : ∀ m ∈ ms, ∀ m' ∈ ms, ∀ j j', (mapAt d m).blocks j ≠ inodeNull →
    (mapAt d m).blocks j = (mapAt d m').blocks j' → m = m' ∧ j = j'
  names : ∀ e e', HasEntry d ms e → HasEntry d ms e' → (inodeAt d e).name = (inodeAt d e').name →
    e = e'

/-- The used slots of a block map. -/
def mapEntries (m : BlockNo) : List BlockNo :=
  (List.ofFn (mapAt d m).blocks).filter (· ≠ inodeNull)

/-- The blocks of a file in the order in which they are given back. -/
def fileBlocks : List BlockNo := ms.flatMap fun m => mapEntries d m ++ [m]

@[simp] theorem fileBlocks_nil : fileBlocks d [] = [] := rfl

@[simp] theorem fileBlocks_cons (m : BlockNo) :
    fileBlocks d (m :: ms) = mapEntries d m ++ [m] ++ fileBlocks d ms := by
  rw [fileBlocks, List.flatMap_cons, fileBlocks]

variable {d ms}

theorem mem_dirSlots {e : BlockNo} :
    e ∈ dirSlots d ms ↔ ∃ m ∈ ms, ∃ j, (mapAt d m).blocks j = e := by
  simp only [dirSlots, List.mem_flatMap, List.mem_ofFn]

/-- What the search of a chain finds. -/
theorem namedEntry_some {name : CStr} {e : BlockNo} (h : namedEntry d ms name = some e) :
    HasEntry d ms e ∧ (inodeAt d e).name = name := by
  have hprop := List.find?_some h
  have hmem := List.mem_of_find?_eq_some h
  simp only [decide_eq_true_eq] at hprop
  exact ⟨⟨hprop.1, mem_dirSlots.mp hmem⟩, hprop.2⟩

/-- Under different names the search finds the entry with the name. -/
theorem EntriesOk.namedEntry_eq (h : EntriesOk d ms) {e : BlockNo} (he : HasEntry d ms e) :
    namedEntry d ms (inodeAt d e).name = some e := by
  cases hfind : namedEntry d ms (inodeAt d e).name with
  | none =>
      have hnone := List.find?_eq_none.mp hfind e (mem_dirSlots.mpr he.2)
      simp only [decide_eq_true_eq] at hnone
      exact absurd ⟨he.1, trivial⟩ hnone
  | some e' =>
      obtain ⟨he', hname⟩ := namedEntry_some hfind
      rw [h.names e' e he' he hname]

end Entries

/-- The blocks of the data region that belong to a node. -/
def Tree.owned (T : Tree) (d : Dev) (b : BlockNo) : List BlockNo :=
  if (inodeAt d b).IsLink then [(inodeAt d b).next]
  else if (inodeAt d b).isFile ≠ 0 then fileBlocks d (T.chain b)
  else T.chain b

/-- A node of a tree. -/
structure NodeOk (root : BlockNo) (T : Tree) (d : Dev) (b : BlockNo) : Prop where
  self : (inodeAt d b).self = b
  kind : ∃ k, (inodeAt d b).HasKind k
  chain : ¬ (inodeAt d b).IsLink → Linked d (inodeAt d b).next (T.chain b)
  noChain : (inodeAt d b).IsLink → T.chain b = []
  parent : (inodeAt d b).parent ∈ T.nodes
  parentDir : (inodeAt d (inodeAt d b).parent).isDirectory ≠ 0
  listed : b ≠ root → HasEntry d (T.chain (inodeAt d b).parent) b
  distinct : (inodeAt d b).isDirectory ≠ 0 → EntriesOk d (T.chain b)
  entries : (inodeAt d b).isDirectory ≠ 0 → ∀ e, HasEntry d (T.chain b) e →
    e ∈ T.nodes ∧ (inodeAt d e).parent = b ∧ e ≠ root

/-- No block is used twice. -/
structure Separate (T : Tree) (d : Dev) : Prop where
  apart : ∀ a ∈ T.nodes, ∀ b ∈ T.nodes, b ∉ T.owned d a
  disjoint : ∀ a ∈ T.nodes, ∀ b ∈ T.nodes, a ≠ b → List.Disjoint (T.owned d a) (T.owned d b)
  nodup : ∀ a ∈ T.nodes, (T.owned d a).Nodup

/-- A device that holds a tree. -/
structure Shaped (root : BlockNo) (T : Tree) (d : Dev) : Prop extends Separate T d where
  rootMem : root ∈ T.nodes
  rootName : (inodeAt d root).name = [slash]
  rootDir : (inodeAt d root).isDirectory ≠ 0
  rootParent : (inodeAt d root).parent = root
  node : ∀ b ∈ T.nodes, NodeOk root T d b

section Shaped
variable {root : BlockNo} {T : Tree} {d : Dev} {b : BlockNo}

theorem Inode.HasKind.eq_zero {n : Inode} {k : NodeKind} (h : n.HasKind k) :
    (k ≠ .file → n.isFile = 0) ∧ (k ≠ .dir → n.isDirectory = 0) ∧ (k ≠ .symlink → n.isSymlink = 0) ∧
      (k ≠ .hardlink → n.isHardlink = 0) := by
  refine ⟨fun hk => ?_, fun hk => ?_, fun hk => ?_, fun hk => ?_⟩
  · exact not_not.mp (mt h.file.mp hk)
  · exact not_not.mp (mt h.dir.mp hk)
  · exact not_not.mp (mt h.symlink.mp hk)
  · exact not_not.mp (mt h.hardlink.mp hk)

theorem Inode.HasKind.not_link_of_file {n : Inode} (h : n.HasKind .file) : ¬ n.IsLink := by
  obtain ⟨-, -, hsym, hhard⟩ := h.eq_zero
  rw [Inode.IsLink, hsym (by decide), hhard (by decide)]
  decide

theorem Inode.HasKind.not_link_of_dir {n : Inode} {k : NodeKind} (h : n.HasKind k)
    (hdir : n.isDirectory ≠ 0) : ¬ n.IsLink ∧ n.isFile = 0 := by
  have hk := h.dir.mp hdir
  constructor
  · rintro (hs | hh)
    · rw [h.symlink.mp hs] at hk
      cases hk
    · rw [h.hardlink.mp hh] at hk
      cases hk
  · by_contra hf
    rw [h.file.mp hf] at hk
    cases hk

/-- A directory has its block maps and nothing else. -/
theorem Tree.owned_dir (hkind : ∃ k, (inodeAt d b).HasKind k)
    (hdir : (inodeAt d b).isDirectory ≠ 0) : T.owned d b = T.chain b := by
  obtain ⟨k, hk⟩ := hkind
  obtain ⟨hl, hf⟩ := hk.not_link_of_dir hdir
  rw [Tree.owned, if_neg hl, if_neg (not_not.mpr hf)]

/-- The block maps of a node are its own. -/
theorem NodeOk.chain_subset (h : NodeOk root T d b) : ∀ m ∈ T.chain b, m ∈ T.owned d b := by
  intro m hm
  have hl : ¬ (inodeAt d b).IsLink := by
    intro hl
    rw [h.noChain hl] at hm
    cases hm
  rw [Tree.owned, if_neg hl]
  split
  · exact List.mem_flatMap.mpr ⟨m, hm, List.mem_append_right _ (List.mem_singleton_self m)⟩
  · exact hm

theorem NodeOk.linked_dir (h : NodeOk root T d b) (hdir : (inodeAt d b).isDirectory ≠ 0) :
    Linked d (inodeAt d b).next (T.chain b) := by
  obtain ⟨k, hk⟩ := h.kind
  exact h.chain (hk.not_link_of_dir hdir).1

/-- The length of the longest chain. -/
def Tree.maxLength (T : Tree) : ℕ := T.nodes.sup fun b => (T.chain b).length

theorem Tree.length_le (hb : b ∈ T.nodes) : (T.chain b).length ≤ T.maxLength :=
  Finset.le_sup (f := fun b => (T.chain b).length) hb

/-- **What a tree shows**: its nodes. -/
theorem Shaped.view (h : Shaped root T d) : View root T.nodes T.maxLength d d where
  root_mem := h.rootMem
  root_name := h.rootName
  self b hb := (h.node b hb).self
  parent b hb := (h.node b hb).parent
  shown _ _ := rfl
  link _ _ _ := ⟨rfl, rfl⟩
  dir b hb hdir := by
    have hl := (h.node b hb).linked_dir hdir
    refine ⟨T.chain b, T.chain b, hl, hl, Tree.length_le hb, fun name e he => ?_⟩
    exact ⟨((h.node b hb).entries hdir e (namedEntry_some he).1).1, he⟩

/-! ## Nodes that a change does not concern -/

theorem HasEntry.congr {d' : Dev} {ms : List BlockNo} (hd : ∀ m ∈ ms, d' m = d m) {e : BlockNo} :
    HasEntry d' ms e ↔ HasEntry d ms e := by
  have hmap : ∀ m ∈ ms, mapAt d' m = mapAt d m := fun m hm => by rw [mapAt, hd m hm, mapAt]
  constructor
  · rintro ⟨he, m, hm, j, hj⟩
    rw [hmap m hm] at hj
    exact ⟨he, m, hm, j, hj⟩
  · rintro ⟨he, m, hm, j, hj⟩
    rw [← hmap m hm] at hj
    exact ⟨he, m, hm, j, hj⟩

theorem fileBlocks_congr {d' : Dev} {ms : List BlockNo} (hd : ∀ m ∈ ms, d' m = d m) :
    fileBlocks d' ms = fileBlocks d ms := by
  rw [fileBlocks, fileBlocks, List.flatMap_congr]
  intro m hm
  rw [mapEntries, mapEntries, mapAt, hd m hm, mapAt]

/-- The node itself is as before, apart from what a lookup does not read. -/
structure NodeKept (T T' : Tree) (d d' : Dev) (b : BlockNo) : Prop where
  shown : (inodeAt d' b).shown = (inodeAt d b).shown
  next : (inodeAt d' b).next = (inodeAt d b).next
  chain : T'.chain b = T.chain b
  maps : ∀ m ∈ T.chain b, d' m = d m

section Kept
variable {T' : Tree} {d' : Dev} {n n' : Inode}

theorem Inode.isLink_shown (h : n'.shown = n.shown) : n'.IsLink ↔ n.IsLink :=
  Iff.of_eq (Inode.eq_of_shown h Inode.IsLink fun _ => rfl)

theorem Inode.hasKind_shown (h : n'.shown = n.shown) {k : NodeKind} : n'.HasKind k ↔ n.HasKind k := by
  have hfile := Inode.eq_of_shown h Inode.isFile fun _ => rfl
  have hdir := Inode.eq_of_shown h Inode.isDirectory fun _ => rfl
  have hsym := Inode.eq_of_shown h Inode.isSymlink fun _ => rfl
  have hhard := Inode.eq_of_shown h Inode.isHardlink fun _ => rfl
  constructor
  · rintro ⟨h1, h2, h3, h4⟩
    rw [hfile] at h1
    rw [hdir] at h2
    rw [hsym] at h3
    rw [hhard] at h4
    exact ⟨h1, h2, h3, h4⟩
  · rintro ⟨h1, h2, h3, h4⟩
    rw [← hfile] at h1
    rw [← hdir] at h2
    rw [← hsym] at h3
    rw [← hhard] at h4
    exact ⟨h1, h2, h3, h4⟩

theorem NodeKept.owned_eq (h : NodeKept T T' d d' b) : T'.owned d' b = T.owned d b := by
  rw [Tree.owned, Tree.owned, h.next, h.chain, fileBlocks_congr h.maps,
    Inode.eq_of_shown h.shown Inode.isFile fun _ => rfl]
  by_cases hl : (inodeAt d b).IsLink
  · rw [if_pos hl, if_pos ((Inode.isLink_shown h.shown).mpr hl)]
  · rw [if_neg hl, if_neg (mt (Inode.isLink_shown h.shown).mp hl)]

theorem EntriesOk.congr {ms : List BlockNo} (h : EntriesOk d ms) (hd : ∀ m ∈ ms, d' m = d m)
    (hname : ∀ e, HasEntry d ms e → (inodeAt d' e).name = (inodeAt d e).name) :
    EntriesOk d' ms := by
  have hmap : ∀ m ∈ ms, mapAt d' m = mapAt d m := fun m hm => by rw [mapAt, hd m hm, mapAt]
  constructor
  · intro m hm m' hm' j j'
    rw [hmap m hm, hmap m' hm']
    exact h.slots m hm m' hm' j j'
  · intro e e' he he'
    rw [HasEntry.congr hd] at he he'
    rw [hname e he, hname e' he']
    exact h.names e e' he he'

/-- A node that a change does not concern. -/
theorem NodeKept.node (hk : NodeKept T T' d d' b) (h : NodeOk root T d b)
    (hparent : (inodeAt d b).parent ∈ T'.nodes)
    (hpdir : (inodeAt d' (inodeAt d b).parent).isDirectory ≠ 0)
    (hlisted : b ≠ root → HasEntry d' (T'.chain (inodeAt d b).parent) b)
    (hentries : ∀ e, HasEntry d (T.chain b) e → (inodeAt d b).isDirectory ≠ 0 →
      e ∈ T'.nodes ∧ (inodeAt d' e).shown = (inodeAt d e).shown) :
    NodeOk root T' d' b := by
  have hpar : (inodeAt d' b).parent = (inodeAt d b).parent :=
    Inode.eq_of_shown hk.shown Inode.parent fun _ => rfl
  have hdir : (inodeAt d' b).isDirectory = (inodeAt d b).isDirectory :=
    Inode.eq_of_shown hk.shown Inode.isDirectory fun _ => rfl
  have hlink := Inode.isLink_shown hk.shown
  refine ⟨?_, ?_, ?_, ?_, ?_, ?_, ?_, ?_, ?_⟩
  · rw [Inode.eq_of_shown hk.shown Inode.self fun _ => rfl]
    exact h.self
  · obtain ⟨k, hkind⟩ := h.kind
    exact ⟨k, (Inode.hasKind_shown hk.shown).mpr hkind⟩
  · intro hl
    rw [hk.next, hk.chain]
    exact (h.chain (mt hlink.mpr hl)).congr hk.maps
  · intro hl
    rw [hk.chain]
    exact h.noChain (hlink.mp hl)
  · rw [hpar]
    exact hparent
  · rw [hpar]
    exact hpdir
  · rw [hpar]
    exact hlisted
  · intro hd
    rw [hdir] at hd
    rw [hk.chain]
    refine (h.distinct hd).congr hk.maps fun e he => ?_
    exact Inode.eq_of_shown (hentries e he hd).2 Inode.name fun _ => rfl
  · intro hd e he
    rw [hdir] at hd
    rw [hk.chain, HasEntry.congr hk.maps] at he
    obtain ⟨-, hep, her⟩ := h.entries hd e he
    obtain ⟨hmem, hshown⟩ := hentries e he hd
    refine ⟨hmem, ?_, her⟩
    rw [Inode.eq_of_shown hshown Inode.parent fun _ => rfl]
    exact hep

/-- The node is listed by its parent and by no one else. -/
theorem Shaped.hasEntry_iff (h : Shaped root T d) {P : BlockNo} (hP : P ∈ T.nodes)
    (hdir : (inodeAt d P).isDirectory ≠ 0) {e : BlockNo} :
    HasEntry d (T.chain P) e ↔ e ∈ T.nodes ∧ (inodeAt d e).parent = P ∧ e ≠ root := by
  constructor
  · exact (h.node P hP).entries hdir e
  · rintro ⟨he, rfl, hroot⟩
    exact (h.node e he).listed hroot

/-- A change of one directory `P`: the other nodes are as before, some entries of `P` may be
gone and others new. -/
structure DirChange (root P : BlockNo) (T T' : Tree) (d d' : Dev) : Prop where
  mem : P ∈ T.nodes
  mem' : P ∈ T'.nodes
  root_mem : root ∈ T'.nodes
  shown : (inodeAt d' P).shown = (inodeAt d P).shown
  kept : ∀ c ∈ T'.nodes, c ∈ T.nodes → c ≠ P → NodeKept T T' d d' c
  gone : ∀ c ∈ T.nodes, c ∉ T'.nodes →
    (inodeAt d c).parent = P ∧ ∀ e ∈ T.nodes, (inodeAt d e).parent ≠ c
  new : ∀ c ∈ T'.nodes, c ∉ T.nodes → NodeOk root T' d' c
  dir : (inodeAt d P).isDirectory ≠ 0
  linked : Linked d' (inodeAt d' P).next (T'.chain P)
  entry : ∀ e, HasEntry d' (T'.chain P) e ↔ e ∈ T'.nodes ∧ (inodeAt d' e).parent = P ∧ e ≠ root
  distinct : EntriesOk d' (T'.chain P)
  separate : Separate T' d'

namespace DirChange
variable {P : BlockNo}

theorem shown_eq (hc : DirChange root P T T' d d') {c : BlockNo} (h : c ∈ T.nodes)
    (h' : c ∈ T'.nodes) : (inodeAt d' c).shown = (inodeAt d c).shown := by
  by_cases hcP : c = P
  · rw [hcP]
    exact hc.shown
  · exact (hc.kept c h' h hcP).shown

theorem parent_eq (hc : DirChange root P T T' d d') {c : BlockNo} (h : c ∈ T.nodes)
    (h' : c ∈ T'.nodes) : (inodeAt d' c).parent = (inodeAt d c).parent :=
  Inode.eq_of_shown (hc.shown_eq h h') Inode.parent fun _ => rfl

/-- The parent of a node that stays is there before and after. -/
theorem parent_mem (hc : DirChange root P T T' d d') (h : Shaped root T d) {c : BlockNo}
    (hcT : c ∈ T.nodes) : (inodeAt d c).parent ∈ T'.nodes := by
  by_contra hgone
  exact (hc.gone _ (h.node c hcT).parent hgone).2 c hcT rfl

theorem parentDir (hc : DirChange root P T T' d d') (h : Shaped root T d) {c : BlockNo}
    (hcT : c ∈ T.nodes) : (inodeAt d' (inodeAt d c).parent).isDirectory ≠ 0 := by
  have hshown := hc.shown_eq (h.node c hcT).parent (hc.parent_mem h hcT)
  rw [Inode.eq_of_shown hshown Inode.isDirectory fun _ => rfl]
  exact (h.node c hcT).parentDir

theorem listed (hc : DirChange root P T T' d d') (h : Shaped root T d) {c : BlockNo}
    (hcT : c ∈ T.nodes) (hcT' : c ∈ T'.nodes) (hroot : c ≠ root) :
    HasEntry d' (T'.chain (inodeAt d c).parent) c := by
  have hq' := hc.parent_mem h hcT
  by_cases hq : (inodeAt d c).parent = P
  · rw [hq]
    exact (hc.entry c).mpr ⟨hcT', (hc.parent_eq hcT hcT').trans hq, hroot⟩
  · have hkept := hc.kept _ hq' (h.node c hcT).parent hq
    rw [hkept.chain, HasEntry.congr hkept.maps]
    exact (h.node c hcT).listed hroot

/-- **A change of one directory** keeps the shape. -/
theorem shaped (hc : DirChange root P T T' d d') (h : Shaped root T d) : Shaped root T' d' where
  toSeparate := hc.separate
  rootMem := hc.root_mem
  rootName := by
    rw [Inode.eq_of_shown (hc.shown_eq h.rootMem hc.root_mem) Inode.name fun _ => rfl]
    exact h.rootName
  rootDir := by
    rw [Inode.eq_of_shown (hc.shown_eq h.rootMem hc.root_mem) Inode.isDirectory fun _ => rfl]
    exact h.rootDir
  rootParent := (hc.parent_eq h.rootMem hc.root_mem).trans h.rootParent
  node c hcT' := by
    by_cases hcT : c ∈ T.nodes
    · by_cases hcP : c = P
      · subst hcP
        have hok := h.node c hc.mem
        have hpar := hc.parent_eq hc.mem hc.mem'
        have hkind : ∃ k, (inodeAt d' c).HasKind k := by
          obtain ⟨k, hk⟩ := hok.kind
          exact ⟨k, (Inode.hasKind_shown hc.shown).mpr hk⟩
        have hnolink : ¬ (inodeAt d' c).IsLink := by
          obtain ⟨k, hk⟩ := hok.kind
          exact mt (Inode.isLink_shown hc.shown).mp (hk.not_link_of_dir hc.dir).1
        refine ⟨?_, hkind, fun _ => hc.linked, fun hl => absurd hl hnolink, ?_, ?_, ?_,
          fun _ => hc.distinct, fun _ e he => (hc.entry e).mp he⟩
        · rw [Inode.eq_of_shown hc.shown Inode.self fun _ => rfl]
          exact hok.self
        · rw [hpar]
          exact hc.parent_mem h hc.mem
        · rw [hpar]
          exact hc.parentDir h hc.mem
        · rw [hpar]
          exact hc.listed h hc.mem hc.mem'
      · refine (hc.kept c hcT' hcT hcP).node (h.node c hcT) (hc.parent_mem h hcT) (hc.parentDir h hcT)
          (hc.listed h hcT hcT') fun e he hdir => ?_
        obtain ⟨heT, hep, -⟩ := (h.node c hcT).entries hdir e he
        have heT' : e ∈ T'.nodes := by
          by_contra hgone
          exact hcP (hep.symm.trans (hc.gone e heT hgone).1)
        exact ⟨heT', hc.shown_eq heT heT'⟩
    · exact hc.new c hcT' hcT

end DirChange

/-- **A change that lookups do not see** keeps the shape. -/
theorem Shaped.of_kept (h : Shaped root T d) (hkept : ∀ c ∈ T.nodes, NodeKept T T d d' c) :
    Shaped root T d' where
  apart a ha b hb := by
    rw [(hkept a ha).owned_eq]
    exact h.apart a ha b hb
  disjoint a ha b hb hab := by
    rw [(hkept a ha).owned_eq, (hkept b hb).owned_eq]
    exact h.disjoint a ha b hb hab
  nodup a ha := by
    rw [(hkept a ha).owned_eq]
    exact h.nodup a ha
  rootMem := h.rootMem
  rootName := by
    rw [Inode.eq_of_shown (hkept root h.rootMem).shown Inode.name fun _ => rfl]
    exact h.rootName
  rootDir := by
    rw [Inode.eq_of_shown (hkept root h.rootMem).shown Inode.isDirectory fun _ => rfl]
    exact h.rootDir
  rootParent := by
    rw [Inode.eq_of_shown (hkept root h.rootMem).shown Inode.parent fun _ => rfl]
    exact h.rootParent
  node c hc := by
    have hok := h.node c hc
    have hparent := hkept _ hok.parent
    refine (hkept c hc).node hok hok.parent ?_ ?_ fun e he hdir => ?_
    · rw [Inode.eq_of_shown hparent.shown Inode.isDirectory fun _ => rfl]
      exact hok.parentDir
    · rw [HasEntry.congr hparent.maps]
      exact hok.listed
    · have heT := (hok.entries hdir e he).1
      exact ⟨heT, (hkept e heT).shown⟩

end Kept

end Shaped

end OxKernel.Fs
