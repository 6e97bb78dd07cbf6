import OxKernel.Fs.Tree

/-!
# Changes of a tree

What `inode_create` and `inode_free` do to a directory on disk, as changes of the tree: an
entry is removed, an empty block map is taken out of the chain, and an inode is rewritten with
what lookups do not read.

## Main definitions

* `Tree.remove`, `Tree.setChain` — the tree after it.
* `Shaped.remove`, `Shaped.dropMap`, `Shaped.touch` — the changes keep the shape.
-/
namespace OxKernel.Fs

/-- The tree without a node. -/
def Tree.remove (T : Tree) (b : BlockNo) : Tree := { T with nodes := T.nodes.erase b }

/-- The tree with other block maps of a node. -/
def Tree.setChain (T : Tree) (b : BlockNo) (ms : List BlockNo) : Tree :=
  { T with chain := Function.update T.chain b ms }

/-! ## One slot -/

section Slot
variable {d : Dev} {m q y : BlockNo} {ms : List BlockNo} {i j : Fin bmapBlocks}

/-- The device with another block in a slot of a block map. -/
def Dev.setSlot (d : Dev) (m : BlockNo) (j : Fin bmapBlocks) (y : BlockNo) : Dev :=
  Function.update d m (BlockMap.layout ((mapAt d m).setSlot j y))

theorem Dev.setSlot_of_ne (h : q ≠ m) : d.setSlot m j y q = d q := Function.update_of_ne h _ _

theorem inodeAt_setSlot (h : q ≠ m) : inodeAt (d.setSlot m j y) q = inodeAt d q :=
  inodeAt_update_of_ne h _

theorem mapAt_setSlot : mapAt (d.setSlot m j y) m = (mapAt d m).setSlot j y := mapAt_update _

@[simp] theorem BlockMap.setSlot_next (m : BlockMap) (j : Fin bmapBlocks) (y : BlockNo) :
    (m.setSlot j y).next = m.next := rfl

@[simp] theorem BlockMap.setSlot_self (m : BlockMap) (j : Fin bmapBlocks) (y : BlockNo) :
    (m.setSlot j y).blocks j = y := Function.update_self ..

theorem BlockMap.setSlot_of_ne (m : BlockMap) (y : BlockNo) (h : i ≠ j) :
    (m.setSlot j y).blocks i = m.blocks i := Function.update_of_ne h ..

theorem next_setSlot : (mapAt (d.setSlot m j y) q).next = (mapAt d q).next := by
  by_cases hq : q = m
  · rw [hq, mapAt_setSlot, BlockMap.setSlot_next]
  · rw [mapAt, Dev.setSlot_of_ne hq, mapAt]

theorem blocks_setSlot :
    (mapAt (d.setSlot m j y) q).blocks i = if q = m ∧ i = j then y else (mapAt d q).blocks i := by
  by_cases hq : q = m
  · rw [hq, mapAt_setSlot]
    by_cases hi : i = j
    · rw [hi, if_pos ⟨rfl, rfl⟩, BlockMap.setSlot_self]
    · rw [if_neg fun hc => hi hc.2, BlockMap.setSlot_of_ne _ _ hi]
  · rw [if_neg fun hc => hq hc.1, mapAt, Dev.setSlot_of_ne hq, mapAt]

/-- The entries after a slot has been cleared. -/
theorem EntriesOk.hasEntry_clear (h : EntriesOk d ms) (hm : m ∈ ms) {b : BlockNo}
    (hj : (mapAt d m).blocks j = b) {e : BlockNo} :
    HasEntry (d.setSlot m j inodeNull) ms e ↔ HasEntry d ms e ∧ e ≠ b := by
  constructor
  · rintro ⟨he, q, hq, i, hi⟩
    rw [blocks_setSlot] at hi
    split at hi
    · exact absurd hi.symm he
    · rename_i hne
      refine ⟨⟨he, q, hq, i, hi⟩, ?_⟩
      rintro rfl
      have hused : (mapAt d q).blocks i ≠ inodeNull := by
        rw [hi]
        exact he
      exact hne (h.slots q hq m hm i j hused (hi.trans hj.symm))
  · rintro ⟨⟨he, q, hq, i, hi⟩, hne⟩
    refine ⟨he, q, hq, i, ?_⟩
    rw [blocks_setSlot, if_neg]
    · exact hi
    · rintro ⟨rfl, rfl⟩
      exact hne (hi.symm.trans hj)

theorem EntriesOk.clear (h : EntriesOk d ms) (hm : m ∈ ms) {b : BlockNo}
    (hj : (mapAt d m).blocks j = b)
    (hname : ∀ e, HasEntry d ms e →
      (inodeAt (d.setSlot m j inodeNull) e).name = (inodeAt d e).name) :
    EntriesOk (d.setSlot m j inodeNull) ms := by
  constructor
  · intro q hq q' hq' i i' hne heq
    rw [blocks_setSlot] at hne heq
    rw [blocks_setSlot] at heq
    split at hne
    · exact absurd rfl hne
    · rename_i hcond
      rw [if_neg hcond] at heq
      split at heq
      · exact absurd heq hne
      · exact h.slots q hq q' hq' i i' hne heq
  · intro e e' he he' heq
    have he := ((h.hasEntry_clear hm hj).mp he).1
    have he' := ((h.hasEntry_clear hm hj).mp he').1
    rw [hname e he, hname e' he'] at heq
    exact h.names e e' he he' heq

end Slot

section Changes
variable {root P m b : BlockNo} {T T' : Tree} {d d' : Dev} {j : Fin bmapBlocks}

/-- Fewer nodes with fewer blocks. -/
theorem Separate.mono (h : Separate T d)
    (hsub : ∀ a ∈ T'.nodes, a ∈ T.nodes ∧ (T'.owned d' a).Sublist (T.owned d a)) :
    Separate T' d' where
  apart a ha b hb hmem := by
    obtain ⟨haT, hsa⟩ := hsub a ha
    exact h.apart a haT b (hsub b hb).1 (hsa.subset hmem)
  disjoint a ha b hb hab x hxa hxb := by
    obtain ⟨haT, hsa⟩ := hsub a ha
    obtain ⟨hbT, hsb⟩ := hsub b hb
    exact h.disjoint a haT b hbT hab (hsa.subset hxa) (hsb.subset hxb)
  nodup a ha := by
    obtain ⟨haT, hsa⟩ := hsub a ha
    exact (h.nodup a haT).sublist hsa

/-- A chain keeps its course when its block maps keep their successors. -/
theorem Linked.congr_next {next : BlockNo} {ms : List BlockNo} (h : Linked d next ms)
    (hd : ∀ m ∈ ms, (mapAt d' m).next = (mapAt d m).next) : Linked d' next ms := by
  induction ms generalizing next with
  | nil => exact h
  | cons a ms ih =>
      refine ⟨h.1, h.2.1, ?_⟩
      rw [hd a List.mem_cons_self]
      exact ih h.2.2 fun m hm => hd m (List.mem_cons_of_mem _ hm)

namespace Shaped

/-- A block map of a node is not an inode. -/
theorem map_ne_node (h : Shaped root T d) (hP : P ∈ T.nodes) (hm : m ∈ T.chain P) {c : BlockNo}
    (hc : c ∈ T.nodes) : c ≠ m := by
  rintro rfl
  exact h.apart P hP c hc ((h.node P hP).chain_subset c hm)

/-- A block map of a node belongs to no other node. -/
theorem map_not_mem (h : Shaped root T d) (hP : P ∈ T.nodes) (hm : m ∈ T.chain P) {c : BlockNo}
    (hc : c ∈ T.nodes) (hcP : c ≠ P) : m ∉ T.chain c :=
  fun hmc => h.disjoint c hc P hP hcP ((h.node c hc).chain_subset m hmc)
    ((h.node P hP).chain_subset m hm)

/-- A node without entries is the parent of no node. -/
theorem parent_ne_leaf (h : Shaped root T d) (hbroot : b ≠ root)
    (hleaf : (inodeAt d b).isDirectory ≠ 0 → T.chain b = []) {e : BlockNo} (he : e ∈ T.nodes) :
    (inodeAt d e).parent ≠ b := by
  intro hpe
  have hdir : (inodeAt d b).isDirectory ≠ 0 := by
    rw [← hpe]
    exact (h.node e he).parentDir
  have her : e ≠ root := by
    rintro rfl
    exact hbroot (hpe.symm.trans h.rootParent)
  obtain ⟨-, q, hq, -⟩ := (h.node e he).listed her
  rw [hpe, hleaf hdir] at hq
  cases hq

/-- A write to a block map of a directory is not seen by the other nodes. -/
theorem kept_setSlot (h : Shaped root T d) (hP : P ∈ T.nodes) (hm : m ∈ T.chain P)
    {y c : BlockNo} (hc : c ∈ T.nodes) (hcP : c ≠ P) (hchain : T'.chain c = T.chain c) :
    NodeKept T T' d (d.setSlot m j y) c := by
  have hsame : inodeAt (d.setSlot m j y) c = inodeAt d c :=
    inodeAt_setSlot (h.map_ne_node hP hm hc)
  refine ⟨by rw [hsame], by rw [hsame], hchain, fun q hq => Dev.setSlot_of_ne ?_⟩
  rintro rfl
  exact h.map_not_mem hP hm hc hcP hq

/-- The slots of a directory are nothing that a node owns. -/
theorem owned_setSlot (h : Shaped root T d) (hP : P ∈ T.nodes)
    (hdir : (inodeAt d P).isDirectory ≠ 0) (hm : m ∈ T.chain P) {y c : BlockNo} (hc : c ∈ T.nodes) :
    T.owned (d.setSlot m j y) c = T.owned d c := by
  by_cases hcP : c = P
  · have hsame : inodeAt (d.setSlot m j y) P = inodeAt d P :=
      inodeAt_setSlot (h.map_ne_node hP hm hP)
    have hown : T.owned (d.setSlot m j y) P = T.chain P := by
      refine Tree.owned_dir ?_ ?_
      · rw [hsame]
        exact (h.node P hP).kind
      · rw [hsame]
        exact hdir
    rw [hcP, hown, Tree.owned_dir (h.node P hP).kind hdir]
  · exact (h.kept_setSlot hP hm hc hcP rfl : NodeKept T T d _ c).owned_eq

/-- **An entry is removed** from its slot. -/
theorem remove (h : Shaped root T d) (hP : P ∈ T.nodes) (hdir : (inodeAt d P).isDirectory ≠ 0)
    (hm : m ∈ T.chain P) (hj : (mapAt d m).blocks j = b) (hb : b ≠ inodeNull)
    (hleaf : (inodeAt d b).isDirectory ≠ 0 → T.chain b = []) :
    DirChange root P T (T.remove b) d (d.setSlot m j inodeNull) := by
  have hok := h.node P hP
  have hdist := hok.distinct hdir
  have hentry : HasEntry d (T.chain P) b := ⟨hb, m, hm, j, hj⟩
  obtain ⟨hbT, hbpar, hbroot⟩ := hok.entries hdir b hentry
  have hsame : ∀ c ∈ T.nodes, inodeAt (d.setSlot m j inodeNull) c = inodeAt d c :=
    fun c hc => inodeAt_setSlot (h.map_ne_node hP hm hc)
  have hbP : b ≠ P := by
    intro he
    refine h.parent_ne_leaf hbroot hleaf hbT ?_
    rw [hbpar, he]
  refine ⟨hP, ?_, ?_, ?_, ?_, ?_, ?_, hdir, ?_, ?_, ?_, ?_⟩
  · exact Finset.mem_erase.mpr ⟨fun he => hbP he.symm, hP⟩
  · exact Finset.mem_erase.mpr ⟨fun he => hbroot he.symm, h.rootMem⟩
  · rw [hsame P hP]
  · intro c _ hc hcP
    exact h.kept_setSlot hP hm hc hcP rfl
  · intro c hc hgone
    have hcb : c = b := by
      by_contra hne
      exact hgone (Finset.mem_erase.mpr ⟨hne, hc⟩)
    rw [hcb]
    exact ⟨hbpar, fun e he => h.parent_ne_leaf hbroot hleaf he⟩
  · intro c hc hnot
    exact absurd (Finset.mem_of_mem_erase hc) hnot
  · rw [hsame P hP]
    exact (hok.linked_dir hdir).congr_next fun q _ => next_setSlot
  · intro e
    have hclear := @EntriesOk.hasEntry_clear _ _ _ _ hdist hm _ hj e
    constructor
    · intro he
      obtain ⟨he, hne⟩ := hclear.mp he
      obtain ⟨heT, hpe, her⟩ := (h.hasEntry_iff hP hdir).mp he
      refine ⟨Finset.mem_erase.mpr ⟨hne, heT⟩, ?_, her⟩
      rw [hsame e heT]
      exact hpe
    · rintro ⟨he, hpe, her⟩
      have heT := Finset.mem_of_mem_erase he
      rw [hsame e heT] at hpe
      exact hclear.mpr ⟨(h.hasEntry_iff hP hdir).mpr ⟨heT, hpe, her⟩, Finset.ne_of_mem_erase he⟩
  · exact hdist.clear hm hj fun e he => by rw [hsame e (hok.entries hdir e he).1]
  · refine h.toSeparate.mono fun a ha => ?_
    have haT := Finset.mem_of_mem_erase ha
    have hown : (T.remove b).owned (d.setSlot m j inodeNull) a = T.owned d a :=
      h.owned_setSlot hP hdir hm haT
    rw [hown]
    exact ⟨haT, List.Sublist.refl _⟩

/-- **An empty block map is taken out** of the chain of a directory. The block maps before it
keep their entries; the directory and the last of these get another successor. -/
theorem dropMap (h : Shaped root T d) (hP : P ∈ T.nodes) (hdir : (inodeAt d P).isDirectory ≠ 0)
    {pre post : List BlockNo} (hchain : T.chain P = pre ++ m :: post) (hempty : (mapAt d m).Empty)
    (hother : ∀ q, q ≠ P → q ∉ pre → d' q = d q)
    (hshown : (inodeAt d' P).shown = (inodeAt d P).shown)
    (hblocks : ∀ q ∈ pre, (mapAt d' q).blocks = (mapAt d q).blocks)
    (hlinked : Linked d' (inodeAt d' P).next (pre ++ post)) :
    DirChange root P T (T.setChain P (pre ++ post)) d d' := by
  have hok := h.node P hP
  have hdist := hok.distinct hdir
  have hpre : ∀ q ∈ pre, q ∈ T.chain P := fun q hq => by
    rw [hchain]
    exact List.mem_append_left _ hq
  have hsub : ∀ q ∈ pre ++ post, q ∈ T.chain P := fun q hq => by
    rw [hchain]
    rcases List.mem_append.mp hq with hq | hq
    · exact List.mem_append_left _ hq
    · exact List.mem_append_right _ (List.mem_cons_of_mem _ hq)
  have hmaps : ∀ q ∈ pre ++ post, (mapAt d' q).blocks = (mapAt d q).blocks := by
    intro q hq
    by_cases hqpre : q ∈ pre
    · exact hblocks q hqpre
    · rw [mapAt, hother q (h.map_ne_node hP (hsub q hq) hP).symm hqpre, mapAt]
  have hkept : ∀ c ∈ T.nodes, c ≠ P → NodeKept T (T.setChain P (pre ++ post)) d d' c := by
    intro c hc hcP
    have hsame : d' c = d c := hother c hcP fun hcpre => h.map_ne_node hP (hpre c hcpre) hc rfl
    refine ⟨by rw [inodeAt, hsame, inodeAt], by rw [inodeAt, hsame, inodeAt], ?_, fun q hq => ?_⟩
    · exact Function.update_of_ne hcP _ _
    · refine hother q (h.map_ne_node hc hq hP).symm fun hqpre => ?_
      exact h.map_not_mem hP (hpre q hqpre) hc hcP hq
  have hnew : (T.setChain P (pre ++ post)).chain P = pre ++ post := Function.update_self ..
  have hshownAll : ∀ c ∈ T.nodes, (inodeAt d' c).shown = (inodeAt d c).shown := by
    intro c hc
    by_cases hcP : c = P
    · rw [hcP]
      exact hshown
    · exact (hkept c hc hcP).shown
  have hEntry : ∀ e, HasEntry d' (pre ++ post) e ↔ HasEntry d (T.chain P) e := by
    intro e
    constructor
    · rintro ⟨he, q, hq, i, hi⟩
      rw [hmaps q hq] at hi
      exact ⟨he, q, hsub q hq, i, hi⟩
    · rintro ⟨he, q, hq, i, hi⟩
      have hqm : q ≠ m := by
        rintro rfl
        exact he (hi.symm.trans (hempty i))
      have hq' : q ∈ pre ++ post := by
        rw [hchain] at hq
        rcases List.mem_append.mp hq with hq | hq
        · exact List.mem_append_left _ hq
        · exact List.mem_append_right _ ((List.mem_cons.mp hq).resolve_left hqm)
      refine ⟨he, q, hq', i, ?_⟩
      rw [hmaps q hq']
      exact hi
  refine ⟨hP, hP, h.rootMem, hshown, fun c _ hc hcP => hkept c hc hcP, fun c hc hgone => absurd hc hgone,
    fun c hc hnot => absurd hc hnot, hdir, ?_, ?_, ?_, ?_⟩
  · rw [hnew]
    exact hlinked
  · intro e
    rw [hnew, hEntry, h.hasEntry_iff hP hdir]
    constructor
    · rintro ⟨he, hpe, her⟩
      refine ⟨he, ?_, her⟩
      rw [Inode.eq_of_shown (hshownAll e he) Inode.parent fun _ => rfl]
      exact hpe
    · rintro ⟨he, hpe, her⟩
      rw [Inode.eq_of_shown (hshownAll e he) Inode.parent fun _ => rfl] at hpe
      exact ⟨he, hpe, her⟩
  · rw [hnew]
    constructor
    · intro q hq q' hq' i i'
      rw [hmaps q hq, hmaps q' hq']
      exact hdist.slots q (hsub q hq) q' (hsub q' hq') i i'
    · intro e e' he he'
      rw [hEntry] at he he'
      rw [Inode.eq_of_shown (hshownAll e (hok.entries hdir e he).1) Inode.name fun _ => rfl,
        Inode.eq_of_shown (hshownAll e' (hok.entries hdir e' he').1) Inode.name fun _ => rfl]
      exact hdist.names e e' he he'
  · refine h.toSeparate.mono fun a ha => ⟨ha, ?_⟩
    by_cases haP : a = P
    · have hkind : ∃ k, (inodeAt d' P).HasKind k := by
        obtain ⟨k, hk⟩ := hok.kind
        exact ⟨k, (Inode.hasKind_shown hshown).mpr hk⟩
      have hdir' : (inodeAt d' P).isDirectory ≠ 0 := by
        rw [Inode.eq_of_shown hshown Inode.isDirectory fun _ => rfl]
        exact hdir
      rw [haP, Tree.owned_dir hkind hdir', Tree.owned_dir hok.kind hdir, hnew, hchain]
      exact List.Sublist.append (List.Sublist.refl _) (List.sublist_cons_self m post)
    · rw [(hkept a ha haP).owned_eq]

/-- An inode is rewritten with what lookups do not read. -/
theorem kept_touch (h : Shaped root T d) (hb : b ∈ T.nodes) {n : Inode}
    (hshown : n.shown = (inodeAt d b).shown) (hnext : n.next = (inodeAt d b).next) {c : BlockNo}
    (hc : c ∈ T.nodes) : NodeKept T T d (Function.update d b (Inode.layout n)) c := by
  have hmaps : ∀ m ∈ T.chain c, Function.update d b (Inode.layout n) m = d m :=
    fun m hm => Function.update_of_ne (h.map_ne_node hc hm hb).symm _ _
  by_cases hcb : c = b
  · subst hcb
    refine ⟨?_, ?_, rfl, hmaps⟩
    · rw [inodeAt_update]
      exact hshown
    · rw [inodeAt_update]
      exact hnext
  · have hsame := inodeAt_update_of_ne (d := d) hcb (Inode.layout n)
    exact ⟨by rw [hsame], by rw [hsame], rfl, hmaps⟩

theorem touch (h : Shaped root T d) (hb : b ∈ T.nodes) {n : Inode}
    (hshown : n.shown = (inodeAt d b).shown) (hnext : n.next = (inodeAt d b).next) :
    Shaped root T (Function.update d b (Inode.layout n)) :=
  h.of_kept fun _ hc => h.kept_touch hb hshown hnext hc

end Shaped

end Changes

end OxKernel.Fs
