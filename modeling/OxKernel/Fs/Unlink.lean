import OxKernel.Fs.Stored

/-!
# Removing a node

`inode_free` without a new node, over the flat store, on a volume that holds a tree. It works
in three parts. The slot of the entry is cleared and the inode block given back; the blocks of
the node are given back, or the count of the target of a hard link is lowered; the first empty
block map of the directory is taken out of its chain. The copy of the directory that is written
back at the end was read at the start; it agrees with the disk in what lookups read.

## Main definitions

* `Between` — the state before the directory is tidied.
* `Tidied` — what becomes of a directory with an empty block map.
* `Stored.inodeFree_ok`, `Stored.unlinked` — a removal that returns, taken apart.
-/
namespace OxKernel.Fs

open Lib (Call)

section Steps
variable {g : Shape} {dev : DevNo} {row : Fin inodeNrDev} {H : BlockSets} {s : Names Disk}
  {next b m : BlockNo} {ms : List BlockNo} {j : Fin bmapBlocks}

/-- **The search for an entry** finds its slot. -/
theorem findEntry_flat (fuel : ℕ) (hl : Linked (s.fs.store dev) next ms)
    (hok : EntriesOk (s.fs.store dev) ms) (hm : m ∈ ms)
    (hj : (mapAt (s.fs.store dev) m).blocks j = b) (hb : b ≠ inodeNull) :
    findEntry flatStore dev b fuel next s = none ∧ fuel < ms.length ∨
      findEntry flatStore dev b fuel next s =
        some (.ok (m, (mapAt (s.fs.store dev) m).setSlot j inodeNull), s) := by
  -- Along the chain only the slot that is looked for holds the block.
  have hunique : ∀ q ∈ ms, ∀ i, (mapAt (s.fs.store dev) q).blocks i = b → q = m ∧ i = j := by
    intro q hq i hi
    refine hok.slots q hq m hm i j ?_ (hi.trans hj.symm)
    rw [hi]
    exact hb
  clear hok
  induction fuel generalizing next ms with
  | zero => exact Or.inl ⟨rfl, List.length_pos_of_mem hm⟩
  | succ fuel ih =>
      cases ms with
      | nil => cases hm
      | cons a ms =>
          obtain ⟨rfl, -, hrest⟩ := hl
          rw [findEntry, Call.bind_of_ok (readBmap_flat ..)]
          cases hfind : (List.finRange bmapBlocks).find?
              (fun i => (mapAt (s.fs.store dev) next).blocks i = b) with
          | some i =>
              right
              have hi := List.find?_some hfind
              simp only [decide_eq_true_eq] at hi
              obtain ⟨rfl, rfl⟩ := hunique next List.mem_cons_self i hi
              rfl
          | none =>
              have hnone := List.find?_eq_none.mp hfind
              simp only [decide_eq_true_eq] at hnone
              have hne : next ≠ m := by
                rintro rfl
                exact hnone j (List.mem_finRange j) hj
              have hmem : m ∈ ms := (List.mem_cons.mp hm).resolve_left hne.symm
              have hmore : (mapAt (s.fs.store dev) next).next ≠ inodeNull :=
                hrest.head_ne (List.ne_nil_of_mem hmem)
              simp only [if_neg hmore]
              rcases ih hrest hmem fun q hq => hunique q (List.mem_cons_of_mem _ hq) with
                ⟨hrun, hlt⟩ | hrun
              · exact Or.inl ⟨hrun, Nat.succ_lt_succ hlt⟩
              · exact Or.inr hrun

theorem giveEntries_flat (bmap : BlockMap) (js : List (Fin bmapBlocks))
    (h : InUse g dev row H s.fs)
    (hnd : ((js.map bmap.blocks).filter (· ≠ inodeNull)).Nodup)
    (hsub : ∀ x ∈ (js.map bmap.blocks).filter (· ≠ inodeNull), x ∈ H .bmap) :
    giveEntries flatStore dev bmap js s = some (.ok (),
      s.setFs (freedAll dev .bmap ((js.map bmap.blocks).filter (· ≠ inodeNull)) s.fs)) := by
  induction js generalizing H s with
  | nil => rfl
  | cons j js ih =>
      rw [giveEntries]
      by_cases hnull : bmap.blocks j = inodeNull
      · have hlist : ((j :: js).map bmap.blocks).filter (· ≠ inodeNull) =
            (js.map bmap.blocks).filter (· ≠ inodeNull) := by
          rw [List.map_cons, List.filter_cons_of_neg]
          simpa using hnull
        rw [hlist] at hnd hsub ⊢
        rw [if_neg (not_not.mpr hnull)]
        exact ih h hnd hsub
      · have hlist : ((j :: js).map bmap.blocks).filter (· ≠ inodeNull) =
            bmap.blocks j :: (js.map bmap.blocks).filter (· ≠ inodeNull) := by
          rw [List.map_cons, List.filter_cons_of_pos]
          simpa using hnull
        rw [hlist] at hnd hsub ⊢
        obtain ⟨hnot, hnd⟩ := List.nodup_cons.mp hnd
        have hmem := hsub _ List.mem_cons_self
        rw [if_pos hnull, Call.bind_of_ok (giveBlock_flat h.ok (h.covers hmem)), freedAll_cons]
        refine ih (s := s.setFs (freed dev .bmap (bmap.blocks j) s.fs)) (h.freed hmem) hnd ?_
        intro x hx
        refine BlockSets.mem_remove.mpr ⟨?_, hsub x (List.mem_cons_of_mem _ hx)⟩
        rintro ⟨-, hxb⟩
        rw [List.mem_singleton.mp hxb] at hx
        exact hnot hx

theorem giveMap_flat {d : Dev} (h : InUse g dev row H s.fs) (hnd : (mapEntries d m ++ [m]).Nodup)
    (hsub : ∀ x ∈ mapEntries d m ++ [m], x ∈ H .bmap) {α : Type} (f : NameM Disk α) :
    (giveEntries flatStore dev (mapAt d m) (List.finRange bmapBlocks) >>= fun _ =>
      giveBlock flatStore dev .bmap m >>= fun _ => f) s =
      f (s.setFs (freedAll dev .bmap (mapEntries d m ++ [m]) s.fs)) := by
  have hlist : ((List.finRange bmapBlocks).map (mapAt d m).blocks).filter
      (· ≠ inodeNull) = mapEntries d m := by
    rw [mapEntries, List.ofFn_eq_map]
  have hnd' := (List.nodup_append.mp hnd).1
  have hsub' : ∀ x ∈ mapEntries d m, x ∈ H .bmap := fun x hx => hsub x (List.mem_append_left _ hx)
  have hgive := giveEntries_flat (mapAt d m) (List.finRange bmapBlocks) h
    (by rw [hlist]; exact hnd') (by rw [hlist]; exact hsub')
  rw [hlist] at hgive
  obtain ⟨huse, -⟩ := h.freedAll hnd' hsub'
  have hm : m ∈ (H.remove .bmap (mapEntries d m)) .bmap := by
    refine BlockSets.mem_remove.mpr ⟨?_, hsub m (List.mem_append_right _ (List.mem_singleton_self m))⟩
    rintro ⟨-, hmem⟩
    exact (List.nodup_append.mp hnd).2.2 m hmem m (List.mem_singleton_self m) rfl
  have hlast := @giveBlock_flat _ _ _ _ _
    (s.setFs (freedAll dev .bmap (mapEntries d m) s.fs)) huse.ok (huse.covers hm)
  rw [Call.bind_of_ok hgive, Call.bind_of_ok hlast, freedAll_append, freedAll_singleton,
    Names.setFs_setFs, Names.setFs_fs]

/-- **The blocks of a file are given back.** -/
theorem giveChain_flat {d : Dev} (fuel : ℕ) (h : InUse g dev row H s.fs) (hd : s.fs.store dev = d)
    (hl : Linked d next ms) (hnd : (fileBlocks d ms).Nodup)
    (hsub : ∀ x ∈ fileBlocks d ms, x ∈ H .bmap) :
    giveChain flatStore dev fuel next s = none ∧ fuel ≤ ms.length ∨
      giveChain flatStore dev fuel next s =
        some (.ok (), s.setFs (freedAll dev .bmap (fileBlocks d ms) s.fs)) := by
  induction fuel generalizing H s next ms with
  | zero => exact Or.inl ⟨rfl, Nat.zero_le _⟩
  | succ fuel ih =>
      rw [giveChain]
      cases ms with
      | nil =>
          right
          have hnull : next = inodeNull := hl
          rw [if_pos hnull, fileBlocks_nil]
          rfl
      | cons a ms =>
          obtain ⟨rfl, hne, hrest⟩ := hl
          rw [fileBlocks_cons] at hnd hsub ⊢
          obtain ⟨hnd₁, hnd₂, hdis⟩ := List.nodup_append.mp hnd
          have hsub₁ := fun x hx => hsub x (List.mem_append_left _ hx)
          obtain ⟨huse, hstore⟩ := h.freedAll hnd₁ hsub₁
          rw [if_neg hne, Call.bind_of_ok (readBmap_flat ..), hd, giveMap_flat h hnd₁ hsub₁,
            freedAll_append dev .bmap (mapEntries d next ++ [next])]
          have hrestSub : ∀ x ∈ fileBlocks d ms,
              x ∈ (H.remove .bmap (mapEntries d next ++ [next])) .bmap := by
            intro x hx
            refine BlockSets.mem_remove.mpr ⟨?_, hsub x (List.mem_append_right _ hx)⟩
            rintro ⟨-, hmem⟩
            exact hdis x hmem x hx rfl
          have hgo := @ih _ (s.setFs (freedAll dev .bmap (mapEntries d next ++ [next]) s.fs)) _ _ huse
            ((congrFun hstore dev).trans hd) hrest hnd₂ hrestSub
          rw [Names.setFs_setFs, Names.setFs_fs] at hgo
          rcases hgo with ⟨hrun, hle⟩ | hrun
          · exact Or.inl ⟨hrun, Nat.succ_le_succ hle⟩
          · exact Or.inr hrun

/-! ## The block maps of the directory -/

/-- The file system after the block map `m` behind `q` has been taken out of a chain. -/
def dropped (dev : DevNo) (parent : Inode) (q m : BlockNo) (fs : FsState Disk) : FsState Disk :=
  (freed dev .bmap m (fs.write dev q (BlockMap.layout
    { mapAt (fs.store dev) q with next := (mapAt (fs.store dev) m).next }))).write dev parent.self
      (Inode.layout parent)

/-- The file system after the block map at the head of a chain has been given back. -/
def beheaded (dev : DevNo) (parent : Inode) (m : BlockNo) (fs : FsState Disk) : FsState Disk :=
  (freed dev .bmap m fs).write dev parent.self (Inode.layout
    (if (mapAt (fs.store dev) m).next = inodeNull then { parent with next := inodeNull } else parent))

/-- The search ends at the end of the chain. -/
theorem fixParent_end (parent : Inode) (prev : BlockNo) (fuel : ℕ) :
    fixParent flatStore dev parent (fuel + 1) prev inodeNull s = some (.ok (), s) := by
  rw [fixParent, if_pos rfl]
  rfl

/-- The search goes on behind a block map with an entry. -/
theorem fixParent_pass {d : Dev} (parent : Inode) (prev : BlockNo) (fuel : ℕ)
    (hd : s.fs.store dev = d) (hne : next ≠ inodeNull) (hfull : ¬ (mapAt d next).Empty) :
    fixParent flatStore dev parent (fuel + 1) prev next s =
      fixParent flatStore dev parent fuel next (mapAt d next).next s := by
  rw [fixParent, if_neg hne, Call.bind_of_ok (readBmap_flat ..), hd, if_neg hfull]

/-- The search for an empty block map behind the head. -/
theorem fixParent_walk {d : Dev} (parent : Inode) (fuel : ℕ) (hs : MapsOk g dev row s.fs)
    (hd : s.fs.store dev = d) {prev : BlockNo} (front : List BlockNo) (hl : Linked d next ms)
    (hcov : ∀ q ∈ ms, g.Covers .bmap q) (hprev : prev ∉ ms)
    (hfront : ∀ x ∈ front ++ [prev], ¬ (mapAt d x).Empty) :
    fixParent flatStore dev parent fuel prev next s = none ∧ fuel ≤ ms.length ∨
    ((∀ q ∈ ms, ¬ (mapAt d q).Empty) ∧
      fixParent flatStore dev parent fuel prev next s = some (.ok (), s)) ∨
    ∃ pre q m post, front ++ prev :: ms = pre ++ q :: m :: post ∧ (mapAt d m).Empty ∧
      (∀ x ∈ pre ++ [q], ¬ (mapAt d x).Empty) ∧
      fixParent flatStore dev parent fuel prev next s =
        some (.ok (), s.setFs (dropped dev parent q m s.fs)) := by
  induction fuel generalizing next ms prev front with
  | zero => exact Or.inl ⟨rfl, Nat.zero_le _⟩
  | succ fuel ih =>
      cases ms with
      | nil =>
          obtain rfl : next = inodeNull := hl
          exact Or.inr (Or.inl ⟨List.forall_mem_nil _, fixParent_end parent prev fuel⟩)
      | cons a ms =>
          obtain ⟨rfl, hne, hrest⟩ := hl
          have hpn : prev ≠ next := fun he => hprev (he ▸ List.mem_cons_self)
          by_cases hempty : (mapAt d next).Empty
          · right
            right
            refine ⟨front, prev, next, ms, rfl, hempty, hfront, ?_⟩
            rw [fixParent, if_neg hne, Call.bind_of_ok (readBmap_flat ..), hd, if_pos hempty,
              if_neg hpn, Call.bind_of_ok (readBmap_flat ..), hd, Call.bind_of_ok (writeSector_flat ..), Names.write_eq]
            have hgive := @giveBlock_flat _ _ _ _ _ (s.setFs (s.fs.write dev prev (BlockMap.layout
              { mapAt d prev with next := (mapAt d next).next }))) (hs.write prev _)
              (hcov next List.mem_cons_self)
            rw [Call.bind_of_ok hgive, writeSector_flat, Names.write_eq, Names.setFs_fs,
              Names.setFs_setFs, Names.setFs_setFs, Names.setFs_fs, dropped, hd]
          · rw [fixParent_pass parent prev fuel hd hne hempty]
            have hchain : Linked d next (next :: ms) := ⟨rfl, hne, hrest⟩
            have hnd := hchain.nodup
            have hpassed : ∀ x ∈ front ++ [prev] ++ [next], ¬ (mapAt d x).Empty := by
              intro x hx
              rcases List.mem_append.mp hx with hx | hx
              · exact hfront x hx
              · rw [List.mem_singleton.mp hx]
                exact hempty
            rcases ih (front ++ [prev]) hrest (fun q hq => hcov q (List.mem_cons_of_mem _ hq))
                (List.nodup_cons.mp hnd).1 hpassed with
              ⟨hnone, hle⟩ | ⟨hall, hrun⟩ | ⟨pre, q, m, post, hlist, hm, hpre, hrun⟩
            · exact Or.inl ⟨hnone, Nat.succ_le_succ hle⟩
            · exact Or.inr (Or.inl ⟨List.forall_mem_cons.mpr ⟨hempty, hall⟩, hrun⟩)
            · right
              right
              refine ⟨pre, q, m, post, ?_, hm, hpre, hrun⟩
              rw [← hlist, List.append_assoc]
              rfl

/-- **The first empty block map of a directory is given back**, wherever it is. -/
theorem fixParent_flat {d : Dev} (parent : Inode) (fuel : ℕ) (hs : MapsOk g dev row s.fs)
    (hd : s.fs.store dev = d) (hl : Linked d next ms) (hcov : ∀ q ∈ ms, g.Covers .bmap q) :
    fixParent flatStore dev parent fuel next next s = none ∧ fuel ≤ ms.length ∨
    ((∀ q ∈ ms, ¬ (mapAt d q).Empty) ∧
      fixParent flatStore dev parent fuel next next s = some (.ok (), s)) ∨
    (∃ m post, ms = m :: post ∧ (mapAt d m).Empty ∧
      fixParent flatStore dev parent fuel next next s =
        some (.ok (), s.setFs (beheaded dev parent m s.fs))) ∨
    ∃ pre q m post, ms = pre ++ q :: m :: post ∧ (mapAt d m).Empty ∧
      (∀ x ∈ pre ++ [q], ¬ (mapAt d x).Empty) ∧
      fixParent flatStore dev parent fuel next next s =
        some (.ok (), s.setFs (dropped dev parent q m s.fs)) := by
  cases fuel with
  | zero => exact Or.inl ⟨rfl, Nat.zero_le _⟩
  | succ fuel =>
      cases ms with
      | nil =>
          obtain rfl : next = inodeNull := hl
          exact Or.inr (Or.inl ⟨List.forall_mem_nil _, fixParent_end parent inodeNull fuel⟩)
      | cons a ms =>
          obtain ⟨rfl, hne, hrest⟩ := hl
          by_cases hempty : (mapAt d next).Empty
          · right
            right
            left
            refine ⟨next, ms, rfl, hempty, ?_⟩
            rw [fixParent, if_neg hne, Call.bind_of_ok (readBmap_flat ..), hd, if_pos hempty,
              if_pos rfl, Call.bind_of_ok (giveBlock_flat hs (hcov next List.mem_cons_self)),
              writeSector_flat, Names.write_eq, Names.setFs_fs, Names.setFs_setFs, beheaded, hd]
          · rw [fixParent_pass parent next fuel hd hne hempty]
            have hchain : Linked d next (next :: ms) := ⟨rfl, hne, hrest⟩
            have hnd := hchain.nodup
            have hpassed : ∀ x ∈ [] ++ [next], ¬ (mapAt d x).Empty := by
              intro x hx
              rw [List.mem_singleton.mp hx]
              exact hempty
            rcases fixParent_walk parent fuel hs hd [] hrest
                (fun q hq => hcov q (List.mem_cons_of_mem _ hq)) (List.nodup_cons.mp hnd).1 hpassed with
              ⟨hnone, hle⟩ | ⟨hall, hrun⟩ | ⟨pre, q, m, post, hlist, hm, hpre, hrun⟩
            · exact Or.inl ⟨hnone, Nat.succ_le_succ hle⟩
            · exact Or.inr (Or.inl ⟨List.forall_mem_cons.mpr ⟨hempty, hall⟩, hrun⟩)
            · right
              right
              right
              exact ⟨pre, q, m, post, hlist, hm, hpre, hrun⟩

end Steps

/-! ## The directory afterwards -/

/-- A chain without one of its block maps. -/
theorem Linked.skip {d d' : Dev} {next q m : BlockNo} {pre post : List BlockNo}
    (h : Linked d next (pre ++ q :: m :: post))
    (hpre : ∀ x ∈ pre, (mapAt d' x).next = (mapAt d x).next)
    (hpost : ∀ x ∈ post, (mapAt d' x).next = (mapAt d x).next)
    (hq : (mapAt d' q).next = (mapAt d m).next) : Linked d' next (pre ++ q :: post) := by
  induction pre generalizing next with
  | nil =>
      refine ⟨h.1, h.2.1, ?_⟩
      rw [hq]
      exact Linked.congr_next h.2.2.2.2 hpost
  | cons a pre ih =>
      refine ⟨h.1, h.2.1, ?_⟩
      rw [hpre a List.mem_cons_self]
      exact ih h.2.2 fun x hx => hpre x (List.mem_cons_of_mem _ hx)

/-- What becomes of a directory with an empty block map `m`. The block map is given back; only
if it was at the head of a longer chain, the directory keeps it. -/
structure Tidied (g : Shape) (dev : DevNo) (row : Fin inodeNrDev) (T : Tree) (P : BlockNo)
    (H : BlockSets) (pre : List BlockNo) (m : BlockNo) (post : List BlockNo)
    (fs fs' : FsState Disk) : Prop where
  chain : T.chain P = pre ++ m :: post
  empty : (mapAt (fs.store dev) m).Empty
  first : ∀ q ∈ pre, ¬ (mapAt (fs.store dev) q).Empty
  inUse : InUse g dev row (H.remove .bmap [m]) fs'
  bmap : SameBits g dev row .bmap (freed dev .bmap m fs) fs'
  imap : SameBits g dev row .imap fs fs'
  other : ∀ q, q ≠ P → q ∉ pre → fs'.store dev q = fs.store dev q
  stuck : pre = [] → post ≠ [] → (inodeAt (fs'.store dev) P).next = m
  change : ¬ (pre = [] ∧ post ≠ []) →
    DirChange (g.regionStart .imap) P T (T.setChain P (pre ++ post)) (fs.store dev) (fs'.store dev)

section Tidy
variable {g : Shape} {dev : DevNo} {row : Fin inodeNrDev} {T : Tree} {P m : BlockNo} {H : BlockSets}
  {fs : FsState Disk} {parent : Inode} {pre post : List BlockNo}

/-- The head of the chain is empty. -/
theorem Stored.tidied_head (h : Stored g dev row T fs) (hH : InUse g dev row H fs)
    (hP : P ∈ T.nodes) (hdir : (inodeAt (fs.store dev) P).isDirectory ≠ 0)
    (hself : parent.self = P) (hshown : parent.shown = (inodeAt (fs.store dev) P).shown)
    (hnext : parent.next = (inodeAt (fs.store dev) P).next) (hchain : T.chain P = m :: post)
    (hempty : (mapAt (fs.store dev) m).Empty) (hm : m ∈ H .bmap) :
    Tidied g dev row T P H [] m post fs (beheaded dev parent m fs) := by
  subst hself
  have hcov := h.covers_map hP (by rw [hchain]; exact List.mem_cons_self : m ∈ T.chain parent.self)
  have hPmap := h.clear.not_map .imap _ (h.covers_node hP)
  have hlinked := (h.shaped.node _ hP).linked_dir hdir
  rw [hchain] at hlinked
  have hstore : ∀ data, ((freed dev .bmap m fs).write dev parent.self data).store dev =
      Function.update (fs.store dev) parent.self data := by
    intro data
    rw [FsState.write_store, freed_store h.inUse.ok hcov]
  rw [beheaded]
  refine ⟨hchain, hempty, fun q hq => absurd hq List.not_mem_nil, ?_, ?_, ?_, ?_, ?_, ?_⟩
  · exact (hH.freed hm).write hPmap _
  · exact .write (h.inUse.ok.freed hcov) hPmap _
  · exact (SameBits.freed_other h.inUse.ok hcov (by decide)).trans
      (.write (h.inUse.ok.freed hcov) hPmap _)
  · intro q hqP _
    rw [hstore]
    exact Function.update_of_ne hqP _ _
  · intro _ hpost
    have hmore : (mapAt (fs.store dev) m).next ≠ inodeNull := hlinked.2.2.head_ne hpost
    rw [if_neg hmore, hstore, inodeAt_update, hnext]
    exact hlinked.1
  · intro hcase
    obtain rfl : post = [] := by
      by_contra hpost
      exact hcase ⟨rfl, hpost⟩
    have hend : (mapAt (fs.store dev) m).next = inodeNull := hlinked.2.2
    rw [if_pos hend, hstore]
    refine h.shaped.dropMap hP hdir hchain hempty (fun q hqP _ => Function.update_of_ne hqP _ _) ?_
      (fun q hq => absurd hq List.not_mem_nil) ?_
    · rw [inodeAt_update, Inode.shown_next]
      exact hshown
    · rw [inodeAt_update]
      exact rfl

/-- A block map behind the head is empty. -/
theorem Stored.tidied_tail (h : Stored g dev row T fs) (hH : InUse g dev row H fs)
    (hP : P ∈ T.nodes) (hdir : (inodeAt (fs.store dev) P).isDirectory ≠ 0)
    (hself : parent.self = P) (hshown : parent.shown = (inodeAt (fs.store dev) P).shown)
    (hnext : parent.next = (inodeAt (fs.store dev) P).next) {q : BlockNo}
    (hchain : T.chain P = pre ++ q :: m :: post) (hempty : (mapAt (fs.store dev) m).Empty)
    (hfirst : ∀ x ∈ pre ++ [q], ¬ (mapAt (fs.store dev) x).Empty) (hm : m ∈ H .bmap) :
    Tidied g dev row T P H (pre ++ [q]) m post fs (dropped dev parent q m fs) := by
  have hchain' : T.chain P = (pre ++ [q]) ++ m :: post := by
    rw [hchain, List.append_assoc]
    rfl
  have hmem : ∀ x ∈ pre ++ q :: m :: post, x ∈ T.chain P := fun x hx => hchain ▸ hx
  have hqmem := hmem q (List.mem_append_right _ List.mem_cons_self)
  have hcov := h.covers_map hP (hmem m (List.mem_append_right _
    (List.mem_cons_of_mem _ List.mem_cons_self)))
  have hqmap := h.clear.not_map .bmap q (h.covers_map hP hqmem)
  have hPmap := h.clear.not_map .imap P (h.covers_node hP)
  have hPq : P ≠ q := h.shaped.map_ne_node hP hqmem hP
  have hlinked := (h.shaped.node P hP).linked_dir hdir
  rw [hchain] at hlinked
  have hnd := hlinked.nodup
  generalize hmap : ({ mapAt (fs.store dev) q with next := (mapAt (fs.store dev) m).next } :
    BlockMap) = bmap
  have hbnext : bmap.next = (mapAt (fs.store dev) m).next := by rw [← hmap]
  have hbblocks : bmap.blocks = (mapAt (fs.store dev) q).blocks := by rw [← hmap]
  have hok' := h.inUse.ok.write q (BlockMap.layout bmap)
  have hstore : ∀ data, ((freed dev .bmap m (fs.write dev q (BlockMap.layout bmap))).write dev P
      data).store dev = Function.update (Function.update (fs.store dev) q (BlockMap.layout bmap)) P
        data := by
    intro data
    rw [FsState.write_store, freed_store hok' hcov, FsState.write_store]
  rw [dropped, hself, hmap]
  generalize hd' : Function.update (Function.update (fs.store dev) q (BlockMap.layout bmap)) P
    (Inode.layout parent) = d'
  have hdP : inodeAt d' P = parent := by rw [← hd', inodeAt_update]
  have hdq : mapAt d' q = bmap := by rw [← hd', mapAt_update_of_ne hPq.symm, mapAt_update]
  have hdo : ∀ x, x ≠ P → x ≠ q → d' x = fs.store dev x := by
    intro x hxP hxq
    rw [← hd', Function.update_of_ne hxP, Function.update_of_ne hxq]
  have hmapo : ∀ x ∈ T.chain P, x ≠ q → mapAt d' x = mapAt (fs.store dev) x := by
    intro x hx hxq
    rw [mapAt, hdo x (h.shaped.map_ne_node hP hx hP).symm hxq, mapAt]
  refine ⟨hchain', hempty, hfirst, ?_, ?_, ?_, ?_, ?_, ?_⟩
  · exact ((hH.write hqmap _).freed hm).write hPmap _
  · exact (SameBits.freed (.write h.inUse.ok hqmap _) h.inUse.ok hok' hcov).trans
      (.write (hok'.freed hcov) hPmap _)
  · exact ((SameBits.write h.inUse.ok hqmap _).trans
      (SameBits.freed_other hok' hcov (by decide))).trans (.write (hok'.freed hcov) hPmap _)
  · intro x hxP hx
    rw [hstore, hd']
    refine hdo x hxP ?_
    rintro rfl
    exact hx (List.mem_append_right _ (List.mem_singleton_self x))
  · intro hpre
    exact absurd hpre (List.append_ne_nil_of_right_ne_nil _ (List.cons_ne_nil _ _))
  · intro _
    rw [hstore, hd']
    refine h.shaped.dropMap hP hdir hchain' hempty ?_ ?_ ?_ ?_
    · intro x hxP hx
      refine hdo x hxP ?_
      rintro rfl
      exact hx (List.mem_append_right _ (List.mem_singleton_self x))
    · rw [hdP]
      exact hshown
    · intro x hx
      by_cases hxq : x = q
      · rw [hxq, hdq, hbblocks]
      · rw [hmapo x (by rw [hchain']; exact List.mem_append_left _ hx) hxq]
    · rw [hdP, hnext, List.append_assoc]
      obtain ⟨-, hnd₂, hdis⟩ := List.nodup_append.mp hnd
      refine hlinked.skip (fun x hx => ?_) (fun x hx => ?_) ?_
      · have hxq : x ≠ q := fun he => hdis x hx q List.mem_cons_self he
        rw [hmapo x (hmem x (List.mem_append_left _ hx)) hxq]
      · have hxq : x ≠ q := by
          rintro rfl
          exact (List.nodup_cons.mp hnd₂).1 (List.mem_cons_of_mem _ hx)
        rw [hmapo x (hmem x (List.mem_append_right _ (List.mem_cons_of_mem _
          (List.mem_cons_of_mem _ hx)))) hxq]
      · rw [hdq, hbnext]

/-- **The directory is tidied.** -/
theorem Stored.fixParent_ok {s s' : Names Disk} (h : Stored g dev row T s.fs)
    (hH : InUse g dev row H s.fs) (hsub : ∀ x ∈ T.chain P, x ∈ H .bmap) (hP : P ∈ T.nodes)
    (hdir : (inodeAt (s.fs.store dev) P).isDirectory ≠ 0)
    (hself : parent.self = P) (hshown : parent.shown = (inodeAt (s.fs.store dev) P).shown)
    (hnext : parent.next = (inodeAt (s.fs.store dev) P).next) {fuel : ℕ} {u : Unit}
    (hrun : fixParent flatStore dev parent fuel parent.next parent.next s = some (.ok u, s')) :
    (s' = s ∧ ∀ q ∈ T.chain P, ¬ (mapAt (s.fs.store dev) q).Empty) ∨
    ∃ pre m post fs, s' = s.setFs fs ∧ Tidied g dev row T P H pre m post s.fs fs := by
  have hlinked := (h.shaped.node P hP).linked_dir hdir
  rw [← hnext] at hlinked
  rcases fixParent_flat parent fuel h.inUse.ok rfl hlinked fun q hq => h.covers_map hP hq with
    ⟨hnone, -⟩ | ⟨hall, hsome⟩ | ⟨m, post, hchain, hempty, hsome⟩ |
    ⟨pre, q, m, post, hchain, hempty, hfirst, hsome⟩
  · rw [hnone] at hrun
    cases hrun
  · rw [hsome] at hrun
    cases hrun
    exact Or.inl ⟨rfl, hall⟩
  · rw [hsome] at hrun
    cases hrun
    have hm := hsub m (by rw [hchain]; exact List.mem_cons_self)
    exact Or.inr ⟨[], m, post, _, rfl,
      h.tidied_head hH hP hdir hself hshown hnext hchain hempty hm⟩
  · rw [hsome] at hrun
    cases hrun
    have hm := hsub m (by
      rw [hchain]
      exact List.mem_append_right _ (List.mem_cons_of_mem _ List.mem_cons_self))
    exact Or.inr ⟨pre ++ [q], m, post, _, rfl,
      h.tidied_tail hH hP hdir hself hshown hnext hchain hempty hfirst hm⟩

end Tidy

/-! ## The entry -/

/-- The file system after the inode block has been given back and the slot cleared. -/
def cleared (dev : DevNo) (b m : BlockNo) (j : Fin bmapBlocks) (fs : FsState Disk) : FsState Disk :=
  (freed dev .imap b fs).write dev m
    (BlockMap.layout ((mapAt (fs.store dev) m).setSlot j inodeNull))

section Entry
variable {g : Shape} {dev : DevNo} {row : Fin inodeNrDev} {T : Tree} {fs : FsState Disk}
  {P b m : BlockNo} {j : Fin bmapBlocks}

theorem Stored.cleared_store (h : Stored g dev row T fs) (hb : b ∈ T.nodes) :
    (cleared dev b m j fs).store dev = Dev.setSlot (fs.store dev) m j inodeNull := by
  rw [cleared, FsState.write_store, freed_store h.inUse.ok (h.covers_node hb)]
  rfl

theorem Stored.inUse_cleared (h : Stored g dev row T fs) (hb : b ∈ T.nodes) (hP : P ∈ T.nodes)
    (hm : m ∈ T.chain P) :
    InUse g dev row ((T.held (fs.store dev)).remove .imap [b]) (cleared dev b m j fs) :=
  (h.inUse.freed hb).write (h.clear.not_map .bmap m (h.covers_map hP hm)) _

/-- What is left of the blocks of a tree after a node. -/
theorem Tree.held_remove_subset {d d' : Dev} (hsep : Separate T d) (hb : b ∈ T.nodes)
    (howned : ∀ c ∈ (T.remove b).nodes, (T.remove b).owned d' c = T.owned d c) (k : MapKind) :
    (T.remove b).held d' k ⊆ (((T.held d).remove .imap [b]).remove .bmap (T.owned d b)) k := by
  intro x hx
  cases k with
  | imap =>
      have hx := Finset.mem_erase.mp hx
      refine BlockSets.mem_remove.mpr ⟨fun h => absurd h.1 (by decide), ?_⟩
      exact BlockSets.mem_remove.mpr ⟨fun h => hx.1 (List.mem_singleton.mp h.2), hx.2⟩
  | bmap =>
      obtain ⟨c, hc, hxc⟩ := Tree.mem_held_bmap.mp hx
      rw [howned c hc] at hxc
      have hcT := Finset.mem_of_mem_erase hc
      refine BlockSets.mem_remove.mpr ⟨fun h => ?_, ?_⟩
      · exact hsep.disjoint c hcT b hb (Finset.ne_of_mem_erase hc) hxc h.2
      · refine BlockSets.mem_remove.mpr ⟨fun h => absurd h.1 (by decide), ?_⟩
        exact Tree.mem_held_bmap.mpr ⟨c, hcT, hxc⟩

theorem Inode.shown_refcount (n : Inode) (c : BlockNo) :
    ({ n with refcount := c } : Inode).shown = n.shown := rfl

theorem Inode.next_refcount (n : Inode) (c : BlockNo) :
    ({ n with refcount := c } : Inode).next = n.next := rfl

/-- The file system after the blocks of a node have been given back, or after the count of
the target of a hard link has been lowered. -/
inductive Released (dev : DevNo) (T : Tree) (d : Dev) (b : BlockNo) (fs : FsState Disk) :
    FsState Disk → Prop
  | blocks (hkind : (inodeAt d b).isHardlink = 0) :
      Released dev T d b fs (freedAll dev .bmap (T.owned d b) fs)
  | link (hkind : (inodeAt d b).isHardlink ≠ 0) (c : BlockNo) (hc : c ∈ (T.remove b).nodes) :
      Released dev T d b fs (fs.write dev c (Inode.layout
        { inodeAt (fs.store dev) c with refcount := (inodeAt (fs.store dev) c).refcount - 1 }))

/-- A lookup that ends at a node of a tree and leaves the state alone. -/
def EndsAtNode (dev : DevNo) (T : Tree) (s : Names Disk) (get : CStr → NameM Disk Inode) : Prop :=
  ∀ path n s', get path s = some (.ok n, s') →
    s' = s ∧ ∃ c ∈ T.nodes, n = inodeAt (s.fs.store dev) c

theorem Stored.releaseNode_ok (h : Stored g dev row T fs) (hb : b ∈ T.nodes) (hP : P ∈ T.nodes)
    (hm : m ∈ T.chain P) (hbP : b ≠ P)
    (hleaf : (inodeAt (fs.store dev) b).isDirectory ≠ 0 → T.chain b = []) {s s' : Names Disk}
    (hs : s.fs = cleared dev b m j fs) {get : CStr → NameM Disk Inode}
    (hget : EndsAtNode dev (T.remove b) s get) {fuel : ℕ} {u : Unit}
    (hrun : releaseNode flatStore dev fuel get (inodeAt (fs.store dev) b) s = some (.ok u, s')) :
    ∃ fs', s' = s.setFs fs' ∧
      Released dev T (fs.store dev) b (cleared dev b m j fs) fs' := by
  have hok := h.shaped.node b hb
  have hstore : s.fs.store dev = Dev.setSlot (fs.store dev) m j inodeNull := by
    rw [hs]
    exact h.cleared_store hb
  have huse : InUse g dev row ((T.held (fs.store dev)).remove .imap [b]) s.fs := by
    rw [hs]
    exact h.inUse_cleared hb hP hm
  have howned : ∀ x ∈ T.owned (fs.store dev) b,
      x ∈ ((T.held (fs.store dev)).remove .imap [b]) .bmap := fun x hx =>
    BlockSets.mem_remove.mpr ⟨fun hc => absurd hc.1 (by decide), Tree.mem_held_bmap.mpr ⟨b, hb, hx⟩⟩
  obtain ⟨k, hk⟩ := hok.kind
  obtain ⟨hfile, hdirz, hsym, hhard⟩ := hk.eq_zero
  rw [releaseNode] at hrun
  cases k with
  | file =>
      have hnl := hk.not_link_of_file
      have hown : T.owned (fs.store dev) b = fileBlocks (fs.store dev) (T.chain b) := by
        rw [Tree.owned, if_neg hnl, if_pos (hk.file.mpr rfl)]
      have hmaps : ∀ q ∈ T.chain b, Dev.setSlot (fs.store dev) m j inodeNull q = fs.store dev q := by
        intro q hq
        refine Dev.setSlot_of_ne ?_
        rintro rfl
        exact h.shaped.map_not_mem hP hm hb hbP hq
      have hchain : Linked (Dev.setSlot (fs.store dev) m j inodeNull)
          (inodeAt (fs.store dev) b).next (T.chain b) := (hok.chain hnl).congr hmaps
      have hlist := fileBlocks_congr hmaps
      rw [if_pos (hk.file.mpr rfl)] at hrun
      have hgive := giveChain_flat fuel huse hstore hchain
        (by rw [hlist, ← hown]; exact h.shaped.nodup b hb) (by rw [hlist, ← hown]; exact howned)
      rw [hlist, ← hown] at hgive
      rcases hgive with ⟨hnone, -⟩ | hsome
      · rw [hnone] at hrun
        cases hrun
      · rw [hsome] at hrun
        cases hrun
        refine ⟨_, rfl, ?_⟩
        rw [← hs]
        exact .blocks (hhard (by decide))
  | dir =>
      have hown : T.owned (fs.store dev) b = [] := by
        rw [Tree.owned_dir hok.kind (hk.dir.mpr rfl), hleaf (hk.dir.mpr rfl)]
      rw [if_neg (not_not.mpr (hfile (by decide))), if_pos (hk.dir.mpr rfl)] at hrun
      cases hrun
      have hrel : Released dev T (fs.store dev) b s.fs
          (freedAll dev .bmap (T.owned (fs.store dev) b) s.fs) := .blocks (hhard (by decide))
      rw [hown] at hrel
      exact ⟨s.fs, rfl, hs ▸ hrel⟩
  | symlink =>
      have hlink : (inodeAt (fs.store dev) b).IsLink := Or.inl (hk.symlink.mpr rfl)
      have hown : T.owned (fs.store dev) b = [(inodeAt (fs.store dev) b).next] := by
        rw [Tree.owned, if_pos hlink]
      have hmem := howned (inodeAt (fs.store dev) b).next (by rw [hown]; exact List.mem_singleton_self _)
      have hne := h.clear.ne_null _ _ (huse.covers hmem)
      rw [if_neg (not_not.mpr (hfile (by decide))), if_neg (not_not.mpr (hdirz (by decide))),
        if_pos (hk.symlink.mpr rfl), if_pos hne, giveBlock_flat huse.ok (huse.covers hmem)] at hrun
      cases hrun
      have hrel : Released dev T (fs.store dev) b s.fs
          (freedAll dev .bmap (T.owned (fs.store dev) b) s.fs) := .blocks (hhard (by decide))
      rw [hown, freedAll_singleton] at hrel
      exact ⟨_, rfl, hs ▸ hrel⟩
  | hardlink =>
      have hlink : (inodeAt (fs.store dev) b).IsLink := Or.inr (hk.hardlink.mpr rfl)
      have hown : T.owned (fs.store dev) b = [(inodeAt (fs.store dev) b).next] := by
        rw [Tree.owned, if_pos hlink]
      have hmem := howned (inodeAt (fs.store dev) b).next (by rw [hown]; exact List.mem_singleton_self _)
      have hne := h.clear.ne_null _ _ (huse.covers hmem)
      rw [if_neg (not_not.mpr (hfile (by decide))), if_neg (not_not.mpr (hdirz (by decide))),
        if_neg (not_not.mpr (hsym (by decide))), if_pos (hk.hardlink.mpr rfl), if_pos hne,
        Call.bind_of_ok (readLink_flat ..)] at hrun
      obtain ⟨n, s₁, hlook, hrun⟩ := Call.bind_eq_ok.mp hrun
      obtain ⟨hs₁, c, hc, hn⟩ := hget _ n s₁ (Call.orFail_eq_ok.mp hlook)
      have hself : n.self = c := by
        have hcT := Finset.mem_of_mem_erase hc
        rw [hn, hstore, inodeAt_setSlot (h.shaped.map_ne_node hP hm hcT)]
        exact (h.shaped.node c hcT).self
      subst hself
      rw [writeSector_flat, hs₁, Names.write_eq] at hrun
      cases hrun
      have hrel : Released dev T (fs.store dev) b s.fs _ := .link (hk.hardlink.mpr rfl) n.self hc
      rw [← hn] at hrel
      exact ⟨_, rfl, hs ▸ hrel⟩

/-- The blocks that `inode_free` gives back for a node. A hard link keeps its link block. -/
def Tree.released (T : Tree) (d : Dev) (b : BlockNo) : List BlockNo :=
  if (inodeAt d b).isHardlink ≠ 0 then [] else T.owned d b

/-- The blocks that are still in use then. -/
def Tree.leftover (T : Tree) (d : Dev) (b : BlockNo) : BlockSets :=
  ((T.held d).remove .imap [b]).remove .bmap (T.released d b)

theorem Tree.released_subset {d : Dev} : ∀ x ∈ T.released d b, x ∈ T.owned d b := by
  intro x hx
  rw [Tree.released] at hx
  split at hx
  · cases hx
  · exact hx

/-- The state between the removal of the entry and the tidying of the directory. -/
structure Between (g : Shape) (dev : DevNo) (row : Fin inodeNrDev) (T : Tree) (d : Dev)
    (P b m : BlockNo) (j : Fin bmapBlocks) (fs : FsState Disk) : Prop where
  change : DirChange (g.regionStart .imap) P T (T.remove b) d (d.setSlot m j inodeNull)
  kept : ∀ c ∈ (T.remove b).nodes,
    NodeKept (T.remove b) (T.remove b) (d.setSlot m j inodeNull) (fs.store dev) c
  other : ∀ q, q ∉ (T.remove b).nodes → fs.store dev q = d.setSlot m j inodeNull q
  stored : Stored g dev row (T.remove b) fs
  inUse : InUse g dev row (T.leftover d b) fs

/-- **The entry and the blocks of a node are gone.** -/
theorem Released.between (h : Stored g dev row T fs) (hb : b ∈ T.nodes) (hP : P ∈ T.nodes)
    (hdir : (inodeAt (fs.store dev) P).isDirectory ≠ 0) (hm : m ∈ T.chain P)
    (hchange : DirChange (g.regionStart .imap) P T (T.remove b) (fs.store dev)
      (Dev.setSlot (fs.store dev) m j inodeNull)) {fs' : FsState Disk}
    (hrel : Released dev T (fs.store dev) b (cleared dev b m j fs) fs') :
    Between g dev row T (fs.store dev) P b m j fs' := by
  have hstore := h.cleared_store (m := m) (j := j) hb
  have huse := h.inUse_cleared (j := j) hb hP hm
  have hshaped := hchange.shaped h.shaped
  have hown : ∀ c ∈ (T.remove b).nodes,
      (T.remove b).owned (Dev.setSlot (fs.store dev) m j inodeNull) c = T.owned (fs.store dev) c :=
    fun c hc => h.shaped.owned_setSlot hP hdir hm (Finset.mem_of_mem_erase hc)
  have hsub := Tree.held_remove_subset h.shaped.toSeparate hb hown
  cases hrel with
  | blocks hkind =>
      have hmem : ∀ x ∈ T.owned (fs.store dev) b,
          x ∈ ((T.held (fs.store dev)).remove .imap [b]) .bmap := fun x hx =>
        BlockSets.mem_remove.mpr ⟨fun hc => absurd hc.1 (by decide), Tree.mem_held_bmap.mpr ⟨b, hb, hx⟩⟩
      obtain ⟨huse', hstore'⟩ := huse.freedAll (h.shaped.nodup b hb) hmem
      have hdev : (freedAll dev .bmap (T.owned (fs.store dev) b) (cleared dev b m j fs)).store dev =
          Dev.setSlot (fs.store dev) m j inodeNull := (congrFun hstore' dev).trans hstore
      have hleft : T.leftover (fs.store dev) b =
          ((T.held (fs.store dev)).remove .imap [b]).remove .bmap (T.owned (fs.store dev) b) := by
        rw [Tree.leftover, Tree.released, if_neg (not_not.mpr hkind)]
      refine ⟨hchange, fun c hc => ?_, fun q _ => by rw [hdev], ⟨h.clear, ?_, ?_⟩, ?_⟩
      · rw [hdev]
        exact ⟨rfl, rfl, rfl, fun _ _ => rfl⟩
      · rw [hdev]
        exact hshaped
      · rw [hdev]
        exact huse'.mono hsub
      · rw [hleft]
        exact huse'
  | link hkind c hc =>
      rw [hstore]
      have hdev : ∀ data, ((cleared dev b m j fs).write dev c data).store dev =
          Function.update (Dev.setSlot (fs.store dev) m j inodeNull) c data := by
        intro data
        rw [FsState.write_store, hstore]
      have hkept : ∀ a ∈ (T.remove b).nodes, NodeKept (T.remove b) (T.remove b) _
          (Function.update (Dev.setSlot (fs.store dev) m j inodeNull) c (Inode.layout
            { inodeAt (Dev.setSlot (fs.store dev) m j inodeNull) c with
              refcount := (inodeAt (Dev.setSlot (fs.store dev) m j inodeNull) c).refcount - 1 })) a :=
        fun a ha => hshaped.kept_touch hc (Inode.shown_refcount _ _) (Inode.next_refcount _ _) ha
      have hleft : T.leftover (fs.store dev) b = (T.held (fs.store dev)).remove .imap [b] := by
        rw [Tree.leftover, Tree.released, if_pos hkind, BlockSets.remove_nil]
      have hmap := h.clear.not_map .imap c (h.covers_node (Finset.mem_of_mem_erase hc))
      refine ⟨hchange, fun a ha => ?_, fun q hq => ?_, ⟨h.clear, ?_, ?_⟩, ?_⟩
      · rw [hdev]
        exact hkept a ha
      · rw [hdev]
        refine Function.update_of_ne ?_ _ _
        rintro rfl
        exact hq hc
      · rw [hdev]
        exact hshaped.of_kept hkept
      · refine (huse.write hmap _).mono fun k x hx => ?_
        have hx' := Tree.held_remove_subset h.shaped.toSeparate hb
          (fun a ha => (hkept a ha).owned_eq.trans (hown a ha)) k (by rw [← hdev]; exact hx)
        exact (BlockSets.mem_remove.mp hx').2
      · rw [hleft]
        exact huse.write hmap _

end Entry

/-! ## The whole call -/

section Free
variable {g : Shape} {dev : DevNo} {row : Fin inodeNrDev} {T : Tree} {s s' : Names Disk}
  {P b : BlockNo} {p : Cred} {now cwd : BlockNo} {fuel : ℕ} {path : CStr} {r : Option Inode}

/-- `path` leads to the node `b`, links in its last component not followed. -/
def LeadsTo (dev : DevNo) (p : Cred) (now : BlockNo) (fuel : ℕ) (cwd : BlockNo) (path : CStr)
    (b : BlockNo) (s : Names Disk) : Prop :=
  inodeGet flatStore dev p now fuel cwd path false .dontCheckPerms s =
    some (.ok (inodeAt (s.fs.store dev) b), s)

/-- Without the entry there is still a tree. -/
theorem Stored.stored_cleared (h : Stored g dev row T s.fs) (hP : P ∈ T.nodes)
    (hdir : (inodeAt (s.fs.store dev) P).isDirectory ≠ 0) {m : BlockNo} {j : Fin bmapBlocks}
    (hm : m ∈ T.chain P) (hb : b ∈ T.nodes)
    (hchange : DirChange (g.regionStart .imap) P T (T.remove b) (s.fs.store dev)
      (Dev.setSlot (s.fs.store dev) m j inodeNull)) :
    Stored g dev row (T.remove b) (cleared dev b m j s.fs) := by
  refine ⟨h.clear, ?_, (h.inUse_cleared hb hP hm).mono fun k x hx => ?_⟩
  · rw [h.cleared_store hb]
    exact hchange.shaped h.shaped
  · rw [h.cleared_store hb] at hx
    have hx' := Tree.held_remove_subset h.shaped.toSeparate hb (fun c hc =>
      h.shaped.owned_setSlot hP hdir hm (Finset.mem_of_mem_erase hc)) k hx
    exact (BlockSets.mem_remove.mp hx').2

/-- The lookup of the target of a hard link meets the tree without the node. -/
theorem Stored.endsAtNode (h : Stored g dev row T s.fs) (hP : P ∈ T.nodes)
    (hdir : (inodeAt (s.fs.store dev) P).isDirectory ≠ 0) {m : BlockNo} {j : Fin bmapBlocks}
    (hm : m ∈ T.chain P) (hb : b ∈ T.nodes)
    (hchange : DirChange (g.regionStart .imap) P T (T.remove b) (s.fs.store dev)
      (Dev.setSlot (s.fs.store dev) m j inodeNull)) :
    EndsAtNode dev (T.remove b) (s.setFs (cleared dev b m j s.fs)) fun path =>
      inodeGet flatStore dev p now fuel cwd path false .rw := fun _ _ _ hget =>
  Stored.inodeGet_ok (s := s.setFs (cleared dev b m j s.fs))
    (h.stored_cleared hP hdir hm hb hchange) hget

/-- **A removal taken apart**: the entry is cleared, the blocks are given back, and the
directory is tidied with the copy of its inode that was read before. -/
theorem Stored.inodeFree_ok (h : Stored g dev row T s.fs) (hP : P ∈ T.nodes)
    (hdir : (inodeAt (s.fs.store dev) P).isDirectory ≠ 0)
    (hentry : HasEntry (s.fs.store dev) (T.chain P) b)
    (hlead : LeadsTo dev p now fuel cwd path b s)
    (hrun : inodeFree flatStore dev p now fuel cwd path none s = some (.ok r, s')) :
    ((inodeAt (s.fs.store dev) b).isFile ≠ 0 → (inodeAt (s.fs.store dev) b).refcount = 0) ∧
    ∃ m j fs, m ∈ T.chain P ∧ (mapAt (s.fs.store dev) m).blocks j = b ∧
      Released dev T (s.fs.store dev) b (cleared dev b m j s.fs) fs ∧
      Between g dev row T (s.fs.store dev) P b m j fs ∧
      fixParent flatStore dev (inodeAt (s.fs.store dev) P) fuel (inodeAt (s.fs.store dev) P).next
        (inodeAt (s.fs.store dev) P).next (s.setFs fs) = some (.ok (), s') := by
  have hok := h.shaped.node P hP
  obtain ⟨hbT, hbpar, hbroot⟩ := hok.entries hdir b hentry
  have hokb := h.shaped.node b hbT
  obtain ⟨hb0, m, hm, j, hj⟩ := hentry
  rw [inodeFree] at hrun
  obtain ⟨-, hrun⟩ := Call.require_bind_eq_ok.mp hrun
  rw [Call.bind_of_ok hlead] at hrun
  obtain ⟨hleaf, hrun⟩ := Call.require_bind_eq_ok.mp hrun
  obtain ⟨hcount, hrun⟩ := Call.require_bind_eq_ok.mp hrun
  rw [Call.bind_of_ok (readInode_flat ..), Call.bind_of_ok (readInode_flat ..), hbpar, hokb.self]
    at hrun
  have hleaf : (inodeAt (s.fs.store dev) b).isDirectory ≠ 0 → T.chain b = [] := by
    intro hbdir
    refine (hokb.linked_dir hbdir).nil_iff.mp ?_
    by_contra hne
    exact hleaf ⟨rfl, hbdir, hne⟩
  have hcount : (inodeAt (s.fs.store dev) b).isFile ≠ 0 →
      (inodeAt (s.fs.store dev) b).refcount = 0 := by
    intro hfile
    by_contra hne
    exact hcount ⟨rfl, hfile, UInt32.pos_iff_ne_zero.mpr hne⟩
  have hbP : b ≠ P := by
    intro he
    refine h.shaped.parent_ne_leaf hbroot hleaf hbT ?_
    rw [hbpar, he]
  have hchange := h.shaped.remove hP hdir hm hj hb0 hleaf
  rcases findEntry_flat fuel (hok.linked_dir hdir) (hok.distinct hdir) hm hj hb0 with
    ⟨hnone, -⟩ | hfind
  · rw [Call.bind_of_none hnone] at hrun
    cases hrun
  · rw [Call.bind_of_ok hfind, Call.bind_of_ok (giveBlock_flat h.inUse.ok (h.covers_node hbT)),
      Call.bind_of_ok (writeSector_flat ..), Names.write_eq, Names.setFs_fs, Names.setFs_setFs] at hrun
    have hclear : (freed dev .imap b s.fs).write dev m
        (BlockMap.layout ((mapAt (s.fs.store dev) m).setSlot j inodeNull)) =
        cleared dev b m j s.fs := rfl
    simp only [hclear] at hrun
    obtain ⟨u, s₂, hrelease, hrun⟩ := Call.bind_eq_ok.mp hrun
    obtain ⟨fs, hs₂, hrel⟩ := h.releaseNode_ok hbT hP hm hbP hleaf rfl
      (h.endsAtNode hP hdir hm hbT hchange) hrelease
    obtain ⟨u', s₃, hfix, hend⟩ := Call.bind_eq_ok.mp hrun
    cases hend
    rw [hs₂, Names.setFs_setFs] at hfix
    exact ⟨hcount, m, j, fs, hm, hj, hrel, hrel.between h hbT hP hdir hm hchange, hfix⟩

/-- A block map has no entry but `b`. -/
def Emptied (d : Dev) (b q : BlockNo) : Prop :=
  ∀ j, (mapAt d q).blocks j = inodeNull ∨ (mapAt d q).blocks j = b

instance (d : Dev) (b q : BlockNo) : Decidable (Emptied d b q) := inferInstanceAs (Decidable (∀ _, _))

theorem Between.map_eq {d : Dev} {m : BlockNo} {j : Fin bmapBlocks} {fs : FsState Disk}
    (h : Between g dev row T d P b m j fs) {q : BlockNo} (hq : q ∈ T.chain P) :
    mapAt (fs.store dev) q = mapAt (d.setSlot m j inodeNull) q := by
  have hnot : q ∉ (T.remove b).nodes := fun hmem =>
    h.stored.shaped.map_ne_node h.change.mem' (m := q) hq hmem rfl
  rw [mapAt, h.other q hnot, mapAt]

/-- The block maps that are empty then had no other entry before. -/
theorem Between.empty_iff {d : Dev} {m : BlockNo} {j : Fin bmapBlocks} {fs : FsState Disk}
    (h : Between g dev row T d P b m j fs) (hdist : EntriesOk d (T.chain P)) (hm : m ∈ T.chain P)
    (hj : (mapAt d m).blocks j = b) {q : BlockNo} (hq : q ∈ T.chain P) :
    (mapAt (fs.store dev) q).Empty ↔ Emptied d b q := by
  rw [h.map_eq hq]
  constructor
  · intro hempty i
    have hi := hempty i
    rw [blocks_setSlot] at hi
    split at hi
    · rename_i hslot
      right
      rw [hslot.1, hslot.2]
      exact hj
    · exact Or.inl hi
  · intro hemptied i
    rw [blocks_setSlot]
    split
    · rfl
    · rename_i hslot
      rcases hemptied i with hi | hi
      · exact hi
      · by_contra hne
        exact hslot (hdist.slots q hq m hm i j hne (hi.trans hj.symm))

/-- The copy of the directory that is written back agrees with the one on disk. -/
theorem Between.copy {d : Dev} {m : BlockNo} {j : Fin bmapBlocks} {fs : FsState Disk}
    (h : Between g dev row T d P b m j fs) (hsame : inodeAt (d.setSlot m j inodeNull) P = inodeAt d P) :
    (inodeAt d P).shown = (inodeAt (fs.store dev) P).shown ∧
      (inodeAt d P).next = (inodeAt (fs.store dev) P).next := by
  have hkept := h.kept P h.change.mem'
  rw [hkept.shown, hkept.next, hsame]
  exact ⟨rfl, rfl⟩

/-- **What a removal leaves behind**: the directory without the entry, and tidied if a block map
of it is empty. -/
theorem Stored.unlinked (h : Stored g dev row T s.fs) (hP : P ∈ T.nodes)
    (hdir : (inodeAt (s.fs.store dev) P).isDirectory ≠ 0)
    (hentry : HasEntry (s.fs.store dev) (T.chain P) b)
    (hlead : LeadsTo dev p now fuel cwd path b s)
    (hrun : inodeFree flatStore dev p now fuel cwd path none s = some (.ok r, s')) :
    ∃ m j fs, m ∈ T.chain P ∧ (mapAt (s.fs.store dev) m).blocks j = b ∧
      Released dev T (s.fs.store dev) b (cleared dev b m j s.fs) fs ∧
      Between g dev row T (s.fs.store dev) P b m j fs ∧
      ((s' = s.setFs fs ∧ ∀ q ∈ T.chain P, ¬ (mapAt (fs.store dev) q).Empty) ∨
        ∃ pre m₀ post fs', s' = s.setFs fs' ∧
          Tidied g dev row (T.remove b) P (T.leftover (s.fs.store dev) b) pre m₀ post fs fs') := by
  obtain ⟨-, m, j, fs, hm, hj, hrel, hbet, hfix⟩ := h.inodeFree_ok hP hdir hentry hlead hrun
  have hsame : inodeAt (Dev.setSlot (s.fs.store dev) m j inodeNull) P = inodeAt (s.fs.store dev) P :=
    inodeAt_setSlot (h.shaped.map_ne_node hP hm hP)
  obtain ⟨hshown, hnext⟩ := hbet.copy hsame
  have hdir' : (inodeAt (fs.store dev) P).isDirectory ≠ 0 := by
    rw [← Inode.eq_of_shown hshown Inode.isDirectory fun _ => rfl]
    exact hdir
  have hbP : b ≠ P := fun he => (Finset.ne_of_mem_erase hbet.change.mem') he.symm
  have hbT := ((h.shaped.node P hP).entries hdir b hentry).1
  have hsub : ∀ x ∈ T.chain P, x ∈ T.leftover (s.fs.store dev) b .bmap := by
    intro x hx
    have hxP := (h.shaped.node P hP).chain_subset x hx
    refine BlockSets.mem_remove.mpr ⟨fun hc => ?_, ?_⟩
    · exact h.shaped.disjoint P hP b hbT hbP.symm hxP (Tree.released_subset x hc.2)
    · refine BlockSets.mem_remove.mpr ⟨fun hc => absurd hc.1 (by decide), ?_⟩
      exact Tree.mem_held_bmap.mpr ⟨P, hP, hxP⟩
  have hfixed := Stored.fixParent_ok (s := s.setFs fs) hbet.stored hbet.inUse hsub hbet.change.mem'
    hdir' (h.shaped.node P hP).self hshown hnext hfix
  refine ⟨m, j, fs, hm, hj, hrel, hbet, ?_⟩
  rcases hfixed with ⟨hs', hall⟩ | ⟨pre, m₀, post, fs', hs', htidy⟩
  · exact Or.inl ⟨hs', hall⟩
  · rw [Names.setFs_setFs] at hs'
    exact Or.inr ⟨pre, m₀, post, fs', hs', htidy⟩

end Free

end OxKernel.Fs
