import OxKernel.Fs.TreeChanges

/-!
# A directory with one more entry

What `inode_create` leaves on a device: the directory has a new node in a slot that was empty,
or in a new block map at the end of its chain. The other nodes, their block maps and the other
slots are as before. If the new blocks belong to no node and the name is new, this is a change
of the directory that keeps the shape of the tree.

## Main definitions

* `PutIn` — a block has been put into a chain.
* `Tree.grow`, `Grown` — the tree and the device with another node.
* `Grown.change` — the change of the directory.
-/
namespace OxKernel.Fs

section PutIn
variable (d d' : Dev) (ms ms' : List BlockNo) (e : BlockNo)

/-- The block has been put into an empty slot of the chain, or into a new block map at its end.
The other slots are as before, and those of a new block map are empty. -/
def PutIn : Prop :=
  ∃ m ∈ ms', ∃ j, (ms' = ms ∧ (mapAt d m).blocks j = inodeNull ∨ ms' = ms ++ [m] ∧ m ∉ ms) ∧
    ∀ q ∈ ms', ∀ i, (mapAt d' q).blocks i =
      if q = m ∧ i = j then e else if q ∈ ms then (mapAt d q).blocks i else inodeNull

variable {d d' ms ms' e}

theorem PutIn.subset (h : PutIn d d' ms ms' e) : ∀ q ∈ ms, q ∈ ms' := by
  obtain ⟨m, -, j, hcase, -⟩ := h
  rcases hcase with ⟨rfl, -⟩ | ⟨rfl, -⟩
  · exact fun q hq => hq
  · exact fun q hq => List.mem_append_left _ hq

/-- The entries afterwards. -/
theorem PutIn.hasEntry (h : PutIn d d' ms ms' e) (he : e ≠ inodeNull) {x : BlockNo} :
    HasEntry d' ms' x ↔ HasEntry d ms x ∨ x = e := by
  have hsub := h.subset
  obtain ⟨m, hm, j, hcase, hslot⟩ := h
  constructor
  · rintro ⟨hx, q, hq, i, hi⟩
    rw [hslot q hq i] at hi
    split at hi
    · exact Or.inr hi.symm
    · split at hi
      · rename_i hqms
        exact Or.inl ⟨hx, q, hqms, i, hi⟩
      · exact absurd hi.symm hx
  · rintro (⟨hx, q, hq, i, hi⟩ | rfl)
    · refine ⟨hx, q, hsub q hq, i, ?_⟩
      rw [hslot q (hsub q hq) i, if_neg, if_pos hq, hi]
      -- The slot that was taken was empty before.
      rintro ⟨rfl, rfl⟩
      rcases hcase with ⟨-, h0⟩ | ⟨-, hnot⟩
      · exact hx (hi.symm.trans h0)
      · exact hnot hq
    · exact ⟨he, m, hm, j, by rw [hslot m hm j, if_pos ⟨rfl, rfl⟩]⟩

/-- No block is in two slots. -/
theorem PutIn.slots (h : PutIn d d' ms ms' e) (hok : EntriesOk d ms) (he : ¬ HasEntry d ms e) :
    ∀ q ∈ ms', ∀ q' ∈ ms', ∀ i i', (mapAt d' q).blocks i ≠ inodeNull →
      (mapAt d' q).blocks i = (mapAt d' q').blocks i' → q = q' ∧ i = i' := by
  obtain ⟨m, hm, j, hcase, hslot⟩ := h
  intro q hq q' hq' i i' hne heq
  rw [hslot q hq i] at hne heq
  rw [hslot q' hq' i'] at heq
  by_cases hqm : q = m ∧ i = j
  · rw [if_pos hqm] at hne heq
    by_cases hqm' : q' = m ∧ i' = j
    · exact ⟨hqm.1.trans hqm'.1.symm, hqm.2.trans hqm'.2.symm⟩
    · rw [if_neg hqm'] at heq
      split at heq
      · rename_i hms
        exact absurd ⟨hne, q', hms, i', heq.symm⟩ he
      · exact absurd heq hne
  · rw [if_neg hqm] at hne heq
    split at hne
    · rename_i hms
      rw [if_pos hms] at heq
      by_cases hqm' : q' = m ∧ i' = j
      · rw [if_pos hqm'] at heq
        rw [heq] at hne
        exact absurd ⟨hne, q, hms, i, heq⟩ he
      · rw [if_neg hqm'] at heq
        split at heq
        · rename_i hms'
          exact hok.slots q hms q' hms' i i' hne heq
        · exact absurd heq hne
    · exact absurd rfl hne

end PutIn

/-- The tree with another node in a directory, which has other block maps. -/
def Tree.grow (T : Tree) (P : BlockNo) (ms : List BlockNo) (e : BlockNo) : Tree :=
  ⟨insert e T.nodes, Function.update (Function.update T.chain P ms) e []⟩

/-- A block that is not in use in a tree. -/
structure Tree.Unused (T : Tree) (d : Dev) (b : BlockNo) : Prop where
  node : b ∉ T.nodes
  owned : ∀ c ∈ T.nodes, b ∉ T.owned d c

/-- The directory `P` has a new entry `e` with a name and a kind, and nothing else has changed. -/
structure Grown (T : Tree) (P e : BlockNo) (ms : List BlockNo) (k : NodeKind) (name : CStr)
    (d d' : Dev) : Prop where
  fresh : e ∉ T.nodes
  kept : ∀ c ∈ T.nodes, c ≠ P → d' c = d c ∧ ∀ m ∈ T.owned d c, d' m = d m
  parent : inodeAt d' P = { inodeAt d P with next := (inodeAt d' P).next }
  linked : Linked d' (inodeAt d' P).next ms
  put : PutIn d d' (T.chain P) ms e
  self : (inodeAt d' e).self = e
  up : (inodeAt d' e).parent = P
  kind : (inodeAt d' e).HasKind k
  name : (inodeAt d' e).name = name

/-- The blocks of the new node are its own. -/
structure Grown.OwnBlocks (T : Tree) (P e : BlockNo) (ms : List BlockNo) (d d' : Dev) : Prop where
  node : T.Unused d e
  maps : ∀ m ∈ ms, m ∈ T.chain P ∨ T.Unused d m ∧ m ≠ e
  link : (inodeAt d' e).IsLink → T.Unused d (inodeAt d' e).next ∧ (inodeAt d' e).next ≠ e ∧
    (inodeAt d' e).next ∉ ms
  next : ¬ (inodeAt d' e).IsLink → (inodeAt d' e).next = inodeNull

section Grown
variable {root P e : BlockNo} {T : Tree} {ms : List BlockNo} {k : NodeKind} {name : CStr}
  {d d' : Dev}

theorem Tree.grow_chain_self (he : P ≠ e) : (T.grow P ms e).chain P = ms := by
  have h : Function.update (Function.update T.chain P ms) e [] P = ms := by
    rw [Function.update_of_ne he, Function.update_self]
  exact h

theorem Tree.grow_chain_new : (T.grow P ms e).chain e = [] := Function.update_self ..

theorem Tree.grow_chain_of_ne {c : BlockNo} (hP : c ≠ P) (he : c ≠ e) :
    (T.grow P ms e).chain c = T.chain c := by
  have h : Function.update (Function.update T.chain P ms) e [] c = T.chain c := by
    rw [Function.update_of_ne he, Function.update_of_ne hP]
  exact h

/-- The blocks of the new node. -/
theorem Tree.grow_owned_new :
    (T.grow P ms e).owned d' e = if (inodeAt d' e).IsLink then [(inodeAt d' e).next] else [] := by
  rw [Tree.owned, Tree.grow_chain_new, fileBlocks_nil, ite_self]

theorem Tree.mem_owned_new {x : BlockNo} (hx : x ∈ (T.grow P ms e).owned d' e) :
    (inodeAt d' e).IsLink ∧ x = (inodeAt d' e).next := by
  rw [Tree.grow_owned_new] at hx
  split at hx
  · rename_i hl
    exact ⟨hl, List.mem_singleton.mp hx⟩
  · cases hx

namespace Grown

theorem ne_new (h : Grown T P e ms k name d d') {c : BlockNo} (hc : c ∈ T.nodes) : c ≠ e := by
  rintro rfl
  exact h.fresh hc

theorem inode_eq (h : Grown T P e ms k name d d') {c : BlockNo} (hc : c ∈ T.nodes) (hcP : c ≠ P) :
    inodeAt d' c = inodeAt d c := by
  rw [inodeAt, (h.kept c hc hcP).1, inodeAt]

theorem kept_node (h : Grown T P e ms k name d d') (hs : Shaped root T d) {c : BlockNo}
    (hc : c ∈ T.nodes) (hcP : c ≠ P) : NodeKept T (T.grow P ms e) d d' c := by
  have hsame := h.inode_eq hc hcP
  refine ⟨by rw [hsame], by rw [hsame], Tree.grow_chain_of_ne hcP (h.ne_new hc), fun m hm => ?_⟩
  exact (h.kept c hc hcP).2 m ((hs.node c hc).chain_subset m hm)

theorem shown (h : Grown T P e ms k name d d') {c : BlockNo} (hc : c ∈ T.nodes) :
    (inodeAt d' c).shown = (inodeAt d c).shown := by
  by_cases hcP : c = P
  · rw [hcP, h.parent, Inode.shown_next]
  · rw [h.inode_eq hc hcP]

theorem parent_eq (h : Grown T P e ms k name d d') {c : BlockNo} (hc : c ∈ T.nodes) :
    (inodeAt d' c).parent = (inodeAt d c).parent :=
  Inode.eq_of_shown (h.shown hc) Inode.parent fun _ => rfl

theorem name_eq (h : Grown T P e ms k name d d') {c : BlockNo} (hc : c ∈ T.nodes) :
    (inodeAt d' c).name = (inodeAt d c).name :=
  Inode.eq_of_shown (h.shown hc) Inode.name fun _ => rfl

theorem owned_dir (h : Grown T P e ms k name d d') (hs : Shaped root T d) (hP : P ∈ T.nodes)
    (hdir : (inodeAt d P).isDirectory ≠ 0) : (T.grow P ms e).owned d' P = ms := by
  have hkind : ∃ k, (inodeAt d' P).HasKind k := by
    obtain ⟨k, hk⟩ := (hs.node P hP).kind
    exact ⟨k, (Inode.hasKind_shown (h.shown hP)).mpr hk⟩
  have hdir' : (inodeAt d' P).isDirectory ≠ 0 := by
    rw [Inode.eq_of_shown (h.shown hP) Inode.isDirectory fun _ => rfl]
    exact hdir
  rw [Tree.owned_dir hkind hdir', Tree.grow_chain_self (h.ne_new hP)]

/-- The new node is not yet an entry. -/
theorem not_hasEntry (h : Grown T P e ms k name d d') (hs : Shaped root T d) (hP : P ∈ T.nodes)
    (hdir : (inodeAt d P).isDirectory ≠ 0) : ¬ HasEntry d (T.chain P) e :=
  fun he => h.fresh ((hs.node P hP).entries hdir e he).1

/-- The names in the directory are different. -/
theorem entriesOk (h : Grown T P e ms k name d d') (hs : Shaped root T d) (hP : P ∈ T.nodes)
    (hdir : (inodeAt d P).isDirectory ≠ 0) (he : e ≠ inodeNull)
    (hname : ∀ x, HasEntry d (T.chain P) x → (inodeAt d x).name ≠ name) : EntriesOk d' ms where
  slots := h.put.slots ((hs.node P hP).distinct hdir) (h.not_hasEntry hs hP hdir)
  names x y hx hy heq := by
    have hok := hs.node P hP
    rw [h.put.hasEntry he] at hx hy
    rcases hx with hx | rfl
    · have hxn := h.name_eq (hok.entries hdir x hx).1
      rcases hy with hy | rfl
      · rw [hxn, h.name_eq (hok.entries hdir y hy).1] at heq
        exact (hok.distinct hdir).names x y hx hy heq
      · rw [hxn, h.name] at heq
        exact absurd heq (hname x hx)
    · rcases hy with hy | rfl
      · rw [h.name_eq (hok.entries hdir y hy).1, h.name] at heq
        exact absurd heq.symm (hname y hy)
      · rfl

/-- What a node owns afterwards it owned before, or it is one of the new blocks. -/
theorem mem_owned_old (h : Grown T P e ms k name d d') (hs : Shaped root T d) (hP : P ∈ T.nodes)
    (hdir : (inodeAt d P).isDirectory ≠ 0) (hown : OwnBlocks T P e ms d d') {c x : BlockNo}
    (hc : c ∈ T.nodes) (hx : x ∈ (T.grow P ms e).owned d' c) :
    x ∈ T.owned d c ∨ c = P ∧ x ∈ ms ∧ T.Unused d x ∧ x ≠ e := by
  by_cases hcP : c = P
  · subst hcP
    rw [h.owned_dir hs hP hdir] at hx
    rcases hown.maps x hx with hx' | hx'
    · rw [Tree.owned_dir (hs.node c hP).kind hdir]
      exact Or.inl hx'
    · exact Or.inr ⟨rfl, hx, hx'⟩
  · rw [(h.kept_node hs hc hcP).owned_eq] at hx
    exact Or.inl hx

/-- What a node owned before it owns afterwards. -/
theorem owned_subset (h : Grown T P e ms k name d d') (hs : Shaped root T d) (hP : P ∈ T.nodes)
    (hdir : (inodeAt d P).isDirectory ≠ 0) {c x : BlockNo} (hc : c ∈ T.nodes)
    (hx : x ∈ T.owned d c) : x ∈ (T.grow P ms e).owned d' c := by
  by_cases hcP : c = P
  · subst hcP
    rw [Tree.owned_dir (hs.node c hP).kind hdir] at hx
    rw [h.owned_dir hs hP hdir]
    exact h.put.subset x hx
  · rw [(h.kept_node hs hc hcP).owned_eq]
    exact hx

/-- No block of the new tree is used twice. -/
theorem separate (h : Grown T P e ms k name d d') (hs : Shaped root T d) (hP : P ∈ T.nodes)
    (hdir : (inodeAt d P).isDirectory ≠ 0) (hown : OwnBlocks T P e ms d d') :
    Separate (T.grow P ms e) d' := by
  have hold : ∀ c ∈ T.nodes, ∀ x ∈ (T.grow P ms e).owned d' c,
      x ∈ T.owned d c ∨ c = P ∧ x ∈ ms ∧ T.Unused d x ∧ x ≠ e :=
    fun _ hc _ => h.mem_owned_old hs hP hdir hown hc
  have hcross : ∀ c ∈ T.nodes, ∀ x ∈ (T.grow P ms e).owned d' c,
      x ∉ (T.grow P ms e).owned d' e := by
    intro c hc x hx hxe
    obtain ⟨hl, rfl⟩ := Tree.mem_owned_new hxe
    obtain ⟨hfree, -, hms⟩ := hown.link hl
    rcases hold c hc _ hx with hx | ⟨-, hx, -⟩
    · exact hfree.owned c hc hx
    · exact hms hx
  refine ⟨?_, ?_, ?_⟩
  · intro a ha b hb hmem
    rcases Finset.mem_insert.mp ha with rfl | haT
    · obtain ⟨hl, rfl⟩ := Tree.mem_owned_new hmem
      obtain ⟨hfree, hne, -⟩ := hown.link hl
      exact (Finset.mem_insert.mp hb).elim hne hfree.node
    · rcases hold a haT b hmem with hx | ⟨-, -, hfree, hne⟩
      · rcases Finset.mem_insert.mp hb with rfl | hbT
        · exact hown.node.owned a haT hx
        · exact hs.apart a haT b hbT hx
      · exact (Finset.mem_insert.mp hb).elim hne hfree.node
  · intro a ha b hb hab x hxa hxb
    rcases Finset.mem_insert.mp ha with rfl | haT
    · rcases Finset.mem_insert.mp hb with rfl | hbT
      · exact hab rfl
      · exact hcross b hbT x hxb hxa
    · rcases Finset.mem_insert.mp hb with rfl | hbT
      · exact hcross a haT x hxa hxb
      · rcases hold a haT x hxa with hxa | ⟨haP, -, hfree, -⟩
        · rcases hold b hbT x hxb with hxb | ⟨-, -, hfree, -⟩
          · exact hs.disjoint a haT b hbT hab hxa hxb
          · exact hfree.owned a haT hxa
        · rcases hold b hbT x hxb with hxb | ⟨hbP, -, -, -⟩
          · exact hfree.owned b hbT hxb
          · exact hab (haP.trans hbP.symm)
  · intro a ha
    rcases Finset.mem_insert.mp ha with rfl | haT
    · rw [Tree.grow_owned_new]
      split
      · exact List.nodup_singleton _
      · exact List.nodup_nil
    · by_cases haP : a = P
      · rw [haP, h.owned_dir hs hP hdir]
        exact h.linked.nodup
      · rw [(h.kept_node hs haT haP).owned_eq]
        exact hs.nodup a haT

/-- The new node. -/
theorem node_new (h : Grown T P e ms k name d d') (hP : P ∈ T.nodes)
    (hdir : (inodeAt d P).isDirectory ≠ 0) (he : e ≠ inodeNull)
    (hown : OwnBlocks T P e ms d d') : NodeOk root (T.grow P ms e) d' e := by
  have hempty : ∀ {Q : BlockNo → Prop}, ∀ x, HasEntry d' ((T.grow P ms e).chain e) x → Q x := by
    intro Q x hx
    rw [Tree.grow_chain_new] at hx
    obtain ⟨-, m, hm, -⟩ := hx
    cases hm
  refine ⟨h.self, ⟨k, h.kind⟩, fun hl => ?_, fun _ => Tree.grow_chain_new, ?_, ?_, fun _ => ?_,
    fun _ => ⟨?_, ?_⟩, fun _ => hempty⟩
  · rw [Tree.grow_chain_new]
    exact hown.next hl
  · rw [h.up]
    exact Finset.mem_insert_of_mem hP
  · rw [h.up, Inode.eq_of_shown (h.shown hP) Inode.isDirectory fun _ => rfl]
    exact hdir
  · rw [h.up, Tree.grow_chain_self (h.ne_new hP), h.put.hasEntry he]
    exact Or.inr rfl
  · intro m hm
    rw [Tree.grow_chain_new] at hm
    cases hm
  · intro x y hx
    exact hempty (Q := fun x => HasEntry d' ((T.grow P ms e).chain e) y →
      (inodeAt d' x).name = (inodeAt d' y).name → x = y) x hx

/-- **A directory grows**: its change, if the blocks and the name are new. -/
theorem change (h : Grown T P e ms k name d d') (hs : Shaped root T d) (hP : P ∈ T.nodes)
    (hdir : (inodeAt d P).isDirectory ≠ 0) (he : e ≠ inodeNull)
    (hname : ∀ x, HasEntry d (T.chain P) x → (inodeAt d x).name ≠ name)
    (hown : OwnBlocks T P e ms d d') : DirChange root P T (T.grow P ms e) d d' := by
  have hchain : (T.grow P ms e).chain P = ms := Tree.grow_chain_self (h.ne_new hP)
  refine ⟨hP, Finset.mem_insert_of_mem hP, Finset.mem_insert_of_mem hs.rootMem, h.shown hP,
    fun c _ hc hcP => h.kept_node hs hc hcP,
    fun c hc hgone => absurd (Finset.mem_insert_of_mem hc) hgone, fun c hc hnot => ?_, hdir, ?_,
    fun x => ?_, ?_, h.separate hs hP hdir hown⟩
  · obtain rfl : c = e := (Finset.mem_insert.mp hc).resolve_right hnot
    exact h.node_new hP hdir he hown
  · rw [hchain]
    exact h.linked
  · rw [hchain, h.put.hasEntry he, hs.hasEntry_iff hP hdir]
    constructor
    · rintro (⟨hx, hpx, hxr⟩ | rfl)
      · exact ⟨Finset.mem_insert_of_mem hx, (h.parent_eq hx).trans hpx, hxr⟩
      · exact ⟨Finset.mem_insert_self _ _, h.up, fun hr => h.fresh (hr ▸ hs.rootMem)⟩
    · rintro ⟨hx, hpx, hxr⟩
      rcases Finset.mem_insert.mp hx with rfl | hx
      · exact Or.inr rfl
      · exact Or.inl ⟨hx, (h.parent_eq hx).symm.trans hpx, hxr⟩
  · rw [hchain]
    exact h.entriesOk hs hP hdir he hname

end Grown

end Grown

end OxKernel.Fs
