import OxKernel.Fs.CreatePlace

/-!
# The tree after a creation

If the blocks that `inode_create` takes are in use for nothing else, the directory is the one
before with one more entry, and the tree has one more node.

## Main definitions

* `NewBlocks` — the blocks are in use for nothing else.
* `Planted.grown` — the directory and the new node.
-/
namespace OxKernel.Fs

/-! ## The chain of the directory -/

section Planted
variable {d d' d'' : Dev} {P e next q m : BlockNo} {ms pre ext : List BlockNo}

theorem BlockMap.single_blocks (i : Fin bmapBlocks) :
    (BlockMap.single e).blocks i = if i = BlockMap.index 0 then e else inodeNull :=
  Function.update_apply ..

/-- A chain with another block map at its end. -/
theorem Linked.extend (h : Linked d next (pre ++ [q]))
    (hpre : ∀ x ∈ pre, (mapAt d' x).next = (mapAt d x).next) (hq : (mapAt d' q).next = m)
    (hm : m ≠ inodeNull) (hend : (mapAt d' m).next = inodeNull) :
    Linked d' next (pre ++ [q] ++ [m]) := by
  induction pre generalizing next with
  | nil =>
      exact ⟨h.1, h.2.1, hq, hm, hend⟩
  | cons a pre ih =>
      refine ⟨h.1, h.2.1, ?_⟩
      rw [hpre a List.mem_cons_self]
      exact ih h.2.2 fun x hx => hpre x (List.mem_cons_of_mem _ hx)

namespace Planted

theorem other (h : Planted d P ms e ext d') (hP : q ≠ P) (hms : q ∉ ms) (hext : q ∉ ext) :
    d' q = d q := by
  have hne : ∀ {x : BlockNo} {l : List BlockNo}, x ∈ l → q ∉ l → q ≠ x := fun hx hq =>
    (ne_of_mem_of_not_mem hx hq).symm
  cases h with
  | hole m j hm hj => exact Dev.setSlot_of_ne (hne hm hms)
  | first m hnil =>
      rw [Function.update_of_ne (hne (List.mem_singleton_self m) hext), Function.update_of_ne hP]
  | append pre x m happ =>
      have hx : x ∈ ms := by
        rw [happ]
        exact List.mem_append_right _ (List.mem_singleton_self x)
      rw [Function.update_of_ne (hne (List.mem_singleton_self m) hext),
        Function.update_of_ne (hne hx hms)]

theorem parent (h : Planted d P ms e ext d') (hms : P ∉ ms) (hext : P ∉ ext) :
    inodeAt d' P = { inodeAt d P with next := (inodeAt d' P).next } := by
  cases h with
  | hole m j hm hj =>
      rw [inodeAt_setSlot (ne_of_mem_of_not_mem hm hms).symm]
  | first m hnil =>
      have hne : P ≠ m := fun h0 => hext (List.mem_singleton.mpr h0)
      rw [inodeAt_update_of_ne hne, inodeAt_update]
  | append pre x m happ =>
      have hne : P ≠ m := fun h0 => hext (List.mem_singleton.mpr h0)
      have hx : x ∈ ms := by
        rw [happ]
        exact List.mem_append_right _ (List.mem_singleton_self x)
      rw [inodeAt_update_of_ne hne, inodeAt_update_of_ne (ne_of_mem_of_not_mem hx hms).symm]

theorem linked (h : Planted d P ms e ext d') (hl : Linked d (inodeAt d P).next ms) (hP : P ∉ ms)
    (hPext : P ∉ ext) (hext : ∀ m ∈ ext, m ∉ ms ∧ m ≠ inodeNull) :
    Linked d' (inodeAt d' P).next (ms ++ ext) := by
  cases h with
  | hole m j hm hj =>
      rw [List.append_nil, inodeAt_setSlot (ne_of_mem_of_not_mem hm hP).symm]
      exact hl.congr_next fun _ _ => next_setSlot
  | first m hnil =>
      have hne : P ≠ m := fun h0 => hPext (List.mem_singleton.mpr h0)
      have hm0 := (hext m (List.mem_singleton_self m)).2
      rw [inodeAt_update_of_ne hne, inodeAt_update, hnil]
      refine ⟨rfl, hm0, ?_⟩
      rw [mapAt_update]
      exact rfl
  | append pre x m happ =>
      obtain ⟨hmms, hm0⟩ := hext m (List.mem_singleton_self m)
      have hne : P ≠ m := fun h0 => hPext (List.mem_singleton.mpr h0)
      subst happ
      have hxms : x ∈ pre ++ [x] := List.mem_append_right _ (List.mem_singleton_self x)
      have hmx : ∀ y ∈ pre ++ [x], y ≠ m := fun y hy h0 => hmms (h0 ▸ hy)
      have hxpre : ∀ y ∈ pre, y ≠ x := by
        rintro y hy rfl
        exact (List.nodup_append.mp hl.nodup).2.2 y hy y (List.mem_singleton_self y) rfl
      rw [inodeAt_update_of_ne hne, inodeAt_update_of_ne (ne_of_mem_of_not_mem hxms hP).symm]
      refine hl.extend (fun y hy => ?_) ?_ hm0 ?_
      · rw [mapAt_update_of_ne (hmx y (List.mem_append_left _ hy)), mapAt_update_of_ne (hxpre y hy)]
      · rw [mapAt_update_of_ne (hmx x hxms), mapAt_update]
      · rw [mapAt_update]
        rfl

theorem put (h : Planted d P ms e ext d') (hP : P ∉ ms) (hext : ∀ m ∈ ext, m ∉ ms) :
    PutIn d d' ms (ms ++ ext) e := by
  -- The slots of a new block map behind the chain.
  have hnew : ∀ {m : BlockNo} {d₁ : Dev}, m ∉ ms → (∀ q ∈ ms, (mapAt d₁ q).blocks = (mapAt d q).blocks) →
      PutIn d (Function.update d₁ m (BlockMap.layout (BlockMap.single e))) ms (ms ++ [m]) e := by
    intro m d₁ hm hold
    refine ⟨m, List.mem_append_right _ (List.mem_singleton_self m), BlockMap.index 0,
      Or.inr ⟨rfl, hm⟩, fun q hq i => ?_⟩
    by_cases hqm : q = m
    · subst hqm
      rw [mapAt_update, BlockMap.single_blocks, if_neg hm]
      exact if_congr (by simp) rfl rfl
    · have hqms : q ∈ ms := (List.mem_append.mp hq).resolve_right fun h0 =>
        hqm (List.mem_singleton.mp h0)
      rw [mapAt_update_of_ne hqm, if_neg fun hc => hqm hc.1, if_pos hqms, hold q hqms]
  cases h with
  | hole m j hm hj =>
      rw [List.append_nil]
      refine ⟨m, hm, j, Or.inl ⟨rfl, hj⟩, fun q hq i => ?_⟩
      rw [blocks_setSlot, if_pos hq]
  | first m hnil =>
      refine hnew (hext m (List.mem_singleton_self m)) fun q hq => ?_
      rw [mapAt_update_of_ne (ne_of_mem_of_not_mem hq hP)]
  | append pre x m happ =>
      refine hnew (hext m (List.mem_singleton_self m)) fun q _ => ?_
      by_cases hqx : q = x
      · rw [hqx, mapAt_update]
      · rw [mapAt_update_of_ne hqx]

end Planted

theorem PutIn.congr {ms' : List BlockNo} (h : PutIn d d' ms ms' e) (hd : ∀ q ∈ ms', d'' q = d' q) :
    PutIn d d'' ms ms' e := by
  obtain ⟨m, hm, j, hcase, hslot⟩ := h
  refine ⟨m, hm, j, hcase, fun q hq i => ?_⟩
  rw [mapAt, hd q hq]
  exact hslot q hq i

end Planted

/-! ## The new node -/

/-- The blocks that a creation takes are different from each other and in use for nothing
else. -/
structure NewBlocks (T : Tree) (d : Dev) (e : BlockNo) (ext lnk : List BlockNo) : Prop where
  node : T.Unused d e
  data : ∀ m ∈ ext ++ lnk, T.Unused d m ∧ m ≠ e ∧ m ≠ inodeNull
  nodup : (ext ++ lnk).Nodup

section Grown
variable {root P e : BlockNo} {T : Tree} {ext lnk : List BlockNo} {k : NodeKind} {name : CStr}
  {d d₁ d' : Dev}

/-- **The directory and the new node.** The device `d'` is the one after the entry has been made,
apart from the blocks of the new node. -/
theorem Planted.grown (h : Planted d P (T.chain P) e ext d₁) (hs : Shaped root T d)
    (hP : P ∈ T.nodes) (hdir : (inodeAt d P).isDirectory ≠ 0) (hnew : NewBlocks T d e ext lnk)
    (hmade : NodeMade e P k name lnk (inodeAt d' e))
    (hnodes : ∀ c ∈ T.nodes, d' c = d₁ c) (hmaps : ∀ c ∈ T.nodes, ∀ m ∈ T.owned d c, d' m = d₁ m)
    (hext : ∀ m ∈ ext, d' m = d₁ m) :
    Grown T P e (T.chain P ++ ext) k name d d' ∧
      Grown.OwnBlocks T P e (T.chain P ++ ext) d d' := by
  have hok := hs.node P hP
  have hunused : ∀ m ∈ ext, T.Unused d m ∧ m ≠ e ∧ m ≠ inodeNull :=
    fun m hm => hnew.data m (List.mem_append_left _ hm)
  have hextOwned : ∀ {c m : BlockNo}, c ∈ T.nodes → m ∈ T.owned d c → m ∉ ext := fun hc hm hmx =>
    (hunused _ hmx).1.owned _ hc hm
  have hsub : ∀ m ∈ T.chain P, m ∈ T.owned d P := hok.chain_subset
  have hextNode : ∀ {c : BlockNo}, c ∈ T.nodes → c ∉ ext := fun hc hcx => (hunused _ hcx).1.node hc
  have hPms : P ∉ T.chain P := fun hm => hs.map_ne_node hP hm hP rfl
  have hextMs : ∀ m ∈ ext, m ∉ T.chain P ∧ m ≠ inodeNull := fun m hm =>
    ⟨fun hc => hextOwned hP (hsub m hc) hm, (hunused m hm).2.2⟩
  have hinode : inodeAt d' P = inodeAt d₁ P := by rw [inodeAt, hnodes P hP, inodeAt]
  have hchain : ∀ q ∈ T.chain P ++ ext, d' q = d₁ q := fun q hq =>
    (List.mem_append.mp hq).elim (fun hm => hmaps P hP q (hsub q hm)) (hext q)
  constructor
  · refine ⟨hnew.node.node, fun c hc hcP => ⟨?_, fun m hm => ?_⟩, ?_, ?_, ?_, hmade.self,
      hmade.parent, hmade.kind, hmade.name⟩
    · rw [hnodes c hc]
      exact h.other hcP (fun hm => hs.map_ne_node hP hm hc rfl) (hextNode hc)
    · rw [hmaps c hc m hm]
      refine h.other ?_ (fun hmP => ?_) (hextOwned hc hm)
      · rintro rfl
        exact hs.apart c hc m hP hm
      · exact hs.disjoint c hc P hP hcP hm (hsub m hmP)
    · rw [hinode]
      exact h.parent hPms (hextNode hP)
    · rw [hinode]
      exact (h.linked (hok.linked_dir hdir) hPms (hextNode hP) hextMs).congr hchain
    · exact (h.put hPms fun m hm => (hextMs m hm).1).congr hchain
  · refine ⟨hnew.node, fun m hm => ?_, fun hl => ?_, fun hl => (hmade.next hl).2⟩
    · rcases List.mem_append.mp hm with hm | hm
      · exact Or.inl hm
      · exact Or.inr ⟨(hunused m hm).1, (hunused m hm).2.1⟩
    · have hmem : (inodeAt d' e).next ∈ lnk := by
        rw [hmade.link hl]
        exact List.mem_singleton_self _
      obtain ⟨hfree, hne, -⟩ := hnew.data _ (List.mem_append_right ext hmem)
      refine ⟨hfree, hne, fun hms => ?_⟩
      rcases List.mem_append.mp hms with hms | hms
      · exact hfree.owned P hP (hok.chain_subset _ hms)
      · exact (List.nodup_append.mp hnew.nodup).2.2 _ hms _ hmem rfl

end Grown

end OxKernel.Fs
