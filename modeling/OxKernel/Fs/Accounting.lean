import OxKernel.Fs.Leaves

/-!
# What a removal gives back

Which blocks are recorded as allocated after `inode_free`. The frees of one call are recorded
together as long as they stay in one block of the bitmap: a free of a block in another one
reloads the window and loses the bits that were cleared only there. A hard link keeps its link
block.

## Main definitions

* `OneWindow` — a list of frees stays in one block of the bitmap.
* `FreesExactly` — what a removal should do to the record.
-/
namespace OxKernel.Fs

open Lib (Call)

section Record
variable {g : Shape} {dev : DevNo} {row : Fin inodeNrDev} {H : BlockSets} {fs fs' : FsState Disk}
  {k : MapKind} {l : List BlockNo} {b p : BlockNo}

/-- The blocks of a list have their bits in one map block, and what the window says is on disk
if that is not the block in the window. -/
def OneWindow (g : Shape) (dev : DevNo) (row : Fin inodeNrDev) (fs : FsState Disk) (k : MapKind)
    (l : List BlockNo) : Prop :=
  l = [] ∨ ∃ p, (∀ b ∈ l, g.ptrOf k b = p) ∧ (p = (fs.masterTab row).ptr k ∨
    ∀ b, g.Covers k b → recorded g dev row fs k b = diskBit g dev fs k b)

theorem diskBit_freed (hs : MapsOk g dev row fs) (hb : g.Covers k b) (x : BlockNo) :
    diskBit g dev (freed dev k b fs) k x = diskBit g dev fs k x := by
  rw [diskBit, freed_store hs hb, diskBit]

/-- Frees in the map block of the window. -/
theorem recorded_freedAll_same (hs : MapsOk g dev row fs) (hcov : ∀ b ∈ l, g.Covers k b)
    (hp : ∀ b ∈ l, g.ptrOf k b = (fs.masterTab row).ptr k) {x : BlockNo} (hx : g.Covers k x) :
    recorded g dev row (freedAll dev k l fs) k x = if x ∈ l then 0 else recorded g dev row fs k x := by
  induction l generalizing fs with
  | nil =>
      rw [if_neg List.not_mem_nil]
      rfl
  | cons b l ih =>
      have hb := hcov b List.mem_cons_self
      have hpb := hp b List.mem_cons_self
      have hrest : ∀ y ∈ l, g.ptrOf k y = ((freed dev k b fs).masterTab row).ptr k := by
        intro y hy
        rw [freed_ptr hs hb, hp y (List.mem_cons_of_mem _ hy), hpb]
      rw [freedAll_cons, ih (hs.freed hb) (fun y hy => hcov y (List.mem_cons_of_mem _ hy)) hrest,
        recorded_freed hs hb hx, if_pos rfl, if_pos hpb]
      by_cases hxl : x ∈ l
      · rw [if_pos hxl, if_pos (List.mem_cons_of_mem _ hxl)]
      · rw [if_neg hxl]
        by_cases hxb : x = b
        · rw [if_pos hxb, hxb, if_pos List.mem_cons_self]
        · rw [if_neg hxb, if_neg fun hc => (List.mem_cons.mp hc).elim hxb hxl]

/-- A block that is set on disk and in the record stays so. -/
theorem recorded_freedAll_one (hs : MapsOk g dev row fs) (hcov : ∀ b ∈ l, g.Covers k b)
    {x : BlockNo} (hx : g.Covers k x) (hxl : x ∉ l) (hdisk : diskBit g dev fs k x = 1)
    (hrec : recorded g dev row fs k x = 1) : recorded g dev row (freedAll dev k l fs) k x = 1 := by
  induction l generalizing fs with
  | nil => exact hrec
  | cons b l ih =>
      have hb := hcov b List.mem_cons_self
      have hxb : x ≠ b := fun he => hxl (he ▸ List.mem_cons_self)
      rw [freedAll_cons]
      refine ih (hs.freed hb) (fun y hy => hcov y (List.mem_cons_of_mem _ hy))
        (fun hc => hxl (List.mem_cons_of_mem _ hc)) ?_ ?_
      · rw [diskBit_freed hs hb]
        exact hdisk
      · rw [recorded_freed hs hb hx, if_pos rfl, if_neg hxb]
        split
        · exact hrec
        · exact hdisk

/-- A free that is only in the window is lost with it. -/
theorem recorded_freedAll_lost (hs : MapsOk g dev row fs) (hcov : ∀ b ∈ l, g.Covers k b)
    {x : BlockNo} (hx : g.Covers k x) (hxl : x ∉ l) (hdisk : diskBit g dev fs k x = 1)
    (hptr : g.ptrOf k x = (fs.masterTab row).ptr k) (hmove : ∃ b ∈ l, g.ptrOf k b ≠ g.ptrOf k x) :
    recorded g dev row (freedAll dev k l fs) k x = 1 := by
  induction l generalizing fs with
  | nil =>
      obtain ⟨b, hb, -⟩ := hmove
      cases hb
  | cons b l ih =>
      have hb := hcov b List.mem_cons_self
      have hxb : x ≠ b := fun he => hxl (he ▸ List.mem_cons_self)
      have hxl' : x ∉ l := fun hc => hxl (List.mem_cons_of_mem _ hc)
      have hcov' : ∀ y ∈ l, g.Covers k y := fun y hy => hcov y (List.mem_cons_of_mem _ hy)
      have hdisk' : diskBit g dev (freed dev k b fs) k x = 1 := by
        rw [diskBit_freed hs hb]
        exact hdisk
      rw [freedAll_cons]
      by_cases hpb : g.ptrOf k b = g.ptrOf k x
      · refine ih (hs.freed hb) hcov' hxl' hdisk' ?_ ?_
        · rw [freed_ptr hs hb, hpb]
        · obtain ⟨y, hy, hne⟩ := hmove
          refine ⟨y, (List.mem_cons.mp hy).resolve_left ?_, hne⟩
          rintro rfl
          exact hne hpb
      · refine recorded_freedAll_one (hs.freed hb) hcov' hx hxl' hdisk' ?_
        rw [recorded_freed hs hb hx, if_pos rfl, if_neg hxb, if_neg fun he => hpb (he.trans hptr.symm)]
        exact hdisk

/-- **Blocks given back together** are off the record and the others on it as before, if and
only if the frees stay in one map block. -/
theorem freedAll_recorded_iff (h : InUse g dev row H fs) (hl : l.Nodup)
    (hsub : ∀ b ∈ l, b ∈ H k) :
    (∀ x, g.Covers k x → recorded g dev row (freedAll dev k l fs) k x =
      if x ∈ l then 0 else recorded g dev row fs k x) ↔ OneWindow g dev row fs k l := by
  have hcov : ∀ b ∈ l, g.Covers k b := fun b hb => h.covers (hsub b hb)
  have hbit : ∀ b ∈ l, diskBit g dev fs k b = 1 := fun b hb => h.held.disk k b (hsub b hb)
  cases l with
  | nil => exact ⟨fun _ => Or.inl rfl, fun _ x _ => (if_neg List.not_mem_nil).symm⟩
  | cons b l =>
      have hs := h.ok
      have hb := hcov b List.mem_cons_self
      obtain ⟨hbl, hl⟩ := List.nodup_cons.mp hl
      have hcov' : ∀ y ∈ l, g.Covers k y := fun y hy => hcov y (List.mem_cons_of_mem _ hy)
      have hafter : (∀ y ∈ l, g.ptrOf k y = g.ptrOf k b) → ∀ x, g.Covers k x →
          recorded g dev row (freedAll dev k (b :: l) fs) k x =
            if x ∈ l then 0 else recorded g dev row (freed dev k b fs) k x := by
        intro hp x hx
        rw [freedAll_cons]
        refine recorded_freedAll_same (hs.freed hb) hcov' (fun y hy => ?_) hx
        rw [freed_ptr hs hb]
        exact hp y hy
      constructor
      · intro hrec
        right
        have hp : ∀ y ∈ l, g.ptrOf k y = g.ptrOf k b := by
          intro y hy
          by_contra hne
          have hlost := recorded_freedAll_lost (hs.freed hb) hcov' hb hbl
            ((diskBit_freed hs hb b).trans (hbit b List.mem_cons_self)) (freed_ptr hs hb).symm
            ⟨y, hy, hne⟩
          rw [← freedAll_cons, hrec b hb, if_pos List.mem_cons_self] at hlost
          cases hlost
        refine ⟨g.ptrOf k b, fun y hy => ?_, ?_⟩
        · rcases List.mem_cons.mp hy with rfl | hy
          · rfl
          · exact hp y hy
        · by_cases hptr : g.ptrOf k b = (fs.masterTab row).ptr k
          · exact Or.inl hptr
          · right
            intro x hx
            by_cases hxl : x ∈ b :: l
            · rw [h.recorded_eq (hsub x hxl), hbit x hxl]
            · have hx' := hrec x hx
              have hxb : x ≠ b := fun he => hxl (he ▸ List.mem_cons_self)
              rw [hafter hp x hx, if_neg fun hc => hxl (List.mem_cons_of_mem _ hc), if_neg hxl,
                recorded_freed hs hb hx, if_pos rfl, if_neg hxb, if_neg hptr] at hx'
              exact hx'.symm
      · rintro (h0 | ⟨p, hp, hwin⟩)
        · cases h0
        · intro x hx
          have hpb := hp b List.mem_cons_self
          rw [hafter (fun y hy => (hp y (List.mem_cons_of_mem _ hy)).trans hpb.symm) x hx,
            recorded_freed hs hb hx, if_pos rfl]
          by_cases hxl : x ∈ l
          · rw [if_pos hxl, if_pos (List.mem_cons_of_mem _ hxl)]
          · rw [if_neg hxl]
            by_cases hxb : x = b
            · rw [if_pos hxb, hxb, if_pos List.mem_cons_self]
            · rw [if_neg hxb, if_neg fun hc => (List.mem_cons.mp hc).elim hxb hxl]
              rcases hwin with hptr | hsaved
              · rw [if_pos (hpb.trans hptr)]
              · split
                · rfl
                · exact (hsaved x hx).symm

/-- The record after frees depends on the bits only. -/
theorem SameBits.freedAll (h : SameBits g dev row k fs fs') (hs : MapsOk g dev row fs)
    (hs' : MapsOk g dev row fs') (hcov : ∀ b ∈ l, g.Covers k b) :
    SameBits g dev row k (freedAll dev k l fs) (freedAll dev k l fs') := by
  induction l generalizing fs fs' with
  | nil => exact h
  | cons b l ih =>
      have hb := hcov b List.mem_cons_self
      exact ih (h.freed hs hs' hb) (hs.freed hb) (hs'.freed hb) fun y hy =>
        hcov y (List.mem_cons_of_mem _ hy)

theorem MapsOk.freedAll (hs : MapsOk g dev row fs) (hcov : ∀ b ∈ l, g.Covers k b) :
    MapsOk g dev row (freedAll dev k l fs) := by
  induction l generalizing fs with
  | nil => exact hs
  | cons b l ih =>
      exact ih (hs.freed (hcov b List.mem_cons_self)) fun y hy => hcov y (List.mem_cons_of_mem _ hy)

theorem SameBits.freedAll_other {k' : MapKind} (hs : MapsOk g dev row fs)
    (hcov : ∀ b ∈ l, g.Covers k' b) (hk : k ≠ k') :
    SameBits g dev row k fs (Fs.freedAll dev k' l fs) := by
  induction l generalizing fs with
  | nil => exact .refl fs
  | cons b l ih =>
      have hb := hcov b List.mem_cons_self
      exact (SameBits.freed_other hs hb hk).trans
        (ih (hs.freed hb) fun y hy => hcov y (List.mem_cons_of_mem _ hy))

end Record

/-! ## The record after a removal -/

/-- The first block map of a chain that has no entry but `b`. -/
def emptiedMap (d : Dev) (b : BlockNo) (ms : List BlockNo) : List BlockNo :=
  (ms.find? fun m => decide (Emptied d b m)).toList

section Removal
variable {g : Shape} {dev : DevNo} {row : Fin inodeNrDev} {T : Tree} {s s' : Names Disk}
  {fs fs' : FsState Disk} {P b m : BlockNo} {j : Fin bmapBlocks} {p : Cred} {now cwd : BlockNo}
  {fuel : ℕ} {path : CStr} {r : Option Inode}

theorem emptiedMap_none {d : Dev} {ms : List BlockNo} (h : ∀ q ∈ ms, ¬ Emptied d b q) :
    emptiedMap d b ms = [] := by
  have hnone : ms.find? (fun m => decide (Emptied d b m)) = none :=
    List.find?_eq_none.mpr fun q hq => by simpa using h q hq
  rw [emptiedMap, hnone]
  rfl

theorem emptiedMap_some {d : Dev} {pre post : List BlockNo} (hm : Emptied d b m)
    (h : ∀ q ∈ pre, ¬ Emptied d b q) : emptiedMap d b (pre ++ m :: post) = [m] := by
  have hnone : pre.find? (fun m => decide (Emptied d b m)) = none :=
    List.find?_eq_none.mpr fun q hq => by simpa using h q hq
  rw [emptiedMap, List.find?_append, hnone, List.find?_cons_of_pos (by simpa using hm)]
  rfl

theorem mem_emptiedMap {d : Dev} {ms : List BlockNo} {x : BlockNo} (h : x ∈ emptiedMap d b ms) :
    x ∈ ms ∧ Emptied d b x := by
  have hfind : ms.find? (fun m => decide (Emptied d b m)) = some x := Option.mem_toList.mp h
  refine ⟨List.mem_of_find?_eq_some hfind, ?_⟩
  simpa using List.find?_some hfind

theorem emptiedMap_nodup {d : Dev} {ms : List BlockNo} : (emptiedMap d b ms).Nodup := by
  rw [emptiedMap]
  cases ms.find? fun m => decide (Emptied d b m)
  · exact List.nodup_nil
  · exact List.nodup_singleton _

theorem emptiedMap_eq {d : Dev} {ms : List BlockNo} {x : BlockNo} (h : x ∈ emptiedMap d b ms) :
    emptiedMap d b ms = [x] := by
  have hfind : ms.find? (fun m => decide (Emptied d b m)) = some x := Option.mem_toList.mp h
  rw [emptiedMap, hfind]
  rfl

theorem exists_mem_emptiedMap {d : Dev} {ms : List BlockNo} {x : BlockNo} (hx : x ∈ ms)
    (hempty : Emptied d b x) : ∃ y, y ∈ emptiedMap d b ms := by
  cases hfind : ms.find? fun m => decide (Emptied d b m) with
  | none => exact absurd (decide_eq_true hempty) (List.find?_eq_none.mp hfind x hx)
  | some y => exact ⟨y, Option.mem_toList.mpr hfind⟩

/-- A list of at most one emptied block map that has the first one has no other. -/
theorem mem_iff_mem_emptiedMap {d : Dev} {ms l : List BlockNo} (hlen : l.length ≤ 1)
    (hmaps : ∀ y ∈ l, y ∈ ms ∧ Emptied d b y) (hin : ∀ y ∈ emptiedMap d b ms, y ∈ l)
    (x : BlockNo) : x ∈ l ↔ x ∈ emptiedMap d b ms := by
  refine ⟨fun hx => ?_, hin x⟩
  obtain ⟨hxms, hempty⟩ := hmaps x hx
  obtain ⟨z, hz⟩ := exists_mem_emptiedMap hxms hempty
  have hxz : x = z := by
    obtain ⟨a, rfl⟩ := List.length_eq_one_iff.mp (Nat.le_antisymm hlen (List.length_pos_of_mem hx))
    rw [List.mem_singleton.mp hx, List.mem_singleton.mp (hin z hz)]
  rw [hxz]
  exact hz

theorem Stored.covers_owned (h : Stored g dev row T fs) (hb : b ∈ T.nodes) :
    ∀ x ∈ T.owned (fs.store dev) b, g.Covers .bmap x := fun _ hx =>
  h.inUse.covers (Tree.mem_held_bmap.mpr ⟨b, hb, hx⟩)

/-- The bits after the blocks of the node have been given back. -/
theorem Released.bits (h : Stored g dev row T fs) (hb : b ∈ T.nodes) (hP : P ∈ T.nodes)
    (hm : m ∈ T.chain P)
    (hrel : Released dev T (fs.store dev) b (cleared dev b m j fs) fs') :
    SameBits g dev row .imap (freed dev .imap b fs) fs' ∧
      SameBits g dev row .bmap (freedAll dev .bmap (T.released (fs.store dev) b) fs) fs' := by
  have hs := h.inUse.ok
  have hcovb := h.covers_node hb
  have hmap := h.clear.not_map .bmap m (h.covers_map hP hm)
  have hs₁ := hs.freed hcovb
  have hs₂ : MapsOk g dev row (cleared dev b m j fs) := hs₁.write m _
  have hi : SameBits g dev row .imap (freed dev .imap b fs) (cleared dev b m j fs) :=
    .write hs₁ hmap _
  have hd : SameBits g dev row .bmap fs (cleared dev b m j fs) :=
    (SameBits.freed_other hs hcovb (by decide)).trans (.write hs₁ hmap _)
  cases hrel with
  | blocks hkind =>
      have hcov := h.covers_owned hb
      have hreleased : T.released (fs.store dev) b = T.owned (fs.store dev) b := by
        rw [Tree.released, if_neg (not_not.mpr hkind)]
      rw [hreleased]
      exact ⟨hi.trans (.freedAll_other hs₂ hcov (by decide)), hd.freedAll hs hs₂ hcov⟩
  | link hkind c hc =>
      have hreleased : T.released (fs.store dev) b = [] := by
        rw [Tree.released, if_pos hkind]
      have hcmap := h.clear.not_map .imap c (h.covers_node (Finset.mem_of_mem_erase hc))
      rw [hreleased]
      exact ⟨hi.trans (.write hs₂ hcmap _), hd.trans (.write hs₂ hcmap _)⟩

/-- **The record after a removal** is that after the frees of the inode block, of the blocks of
the node and of the emptied block map. -/
theorem Stored.unlink_bits (h : Stored g dev row T s.fs) (hP : P ∈ T.nodes)
    (hdir : (inodeAt (s.fs.store dev) P).isDirectory ≠ 0)
    (hentry : HasEntry (s.fs.store dev) (T.chain P) b)
    (hlead : LeadsTo dev p now fuel cwd path b s)
    (hrun : inodeFree flatStore dev p now fuel cwd path none s = some (.ok r, s')) :
    SameBits g dev row .imap (freed dev .imap b s.fs) s'.fs ∧
      SameBits g dev row .bmap (freedAll dev .bmap (T.released (s.fs.store dev) b ++
        emptiedMap (s.fs.store dev) b (T.chain P)) s.fs) s'.fs := by
  obtain ⟨m, j, fs, hm, hj, hrel, hbet, hcase⟩ := h.unlinked hP hdir hentry hlead hrun
  have hdist := (h.shaped.node P hP).distinct hdir
  have hbT := ((h.shaped.node P hP).entries hdir b hentry).1
  obtain ⟨hi, hd⟩ := hrel.bits h hbT hP hm
  have hcov : ∀ x ∈ T.released (s.fs.store dev) b, g.Covers .bmap x := fun x hx =>
    h.covers_owned hbT x (Tree.released_subset x hx)
  rcases hcase with ⟨hs', hall⟩ | ⟨pre, m₀, post, fs', hs', htidy⟩
  · have hnone : emptiedMap (s.fs.store dev) b (T.chain P) = [] := emptiedMap_none fun q hq =>
      mt (hbet.empty_iff hdist hm hj hq).mpr (hall q hq)
    rw [hnone, List.append_nil, hs', Names.setFs_fs]
    exact ⟨hi, hd⟩
  · have hchain : T.chain P = pre ++ m₀ :: post := htidy.chain
    have hmem : ∀ q ∈ pre ++ m₀ :: post, q ∈ T.chain P := fun q hq => hchain ▸ hq
    have hm₀ := hmem m₀ (List.mem_append_right _ List.mem_cons_self)
    have hsome : emptiedMap (s.fs.store dev) b (T.chain P) = [m₀] := by
      rw [hchain]
      refine emptiedMap_some ((hbet.empty_iff hdist hm hj hm₀).mp htidy.empty) fun q hq => ?_
      exact mt (hbet.empty_iff hdist hm hj (hmem q (List.mem_append_left _ hq))).mpr (htidy.first q hq)
    have hcov₀ := h.covers_map hP hm₀
    rw [hsome, freedAll_append, freedAll_singleton, hs', Names.setFs_fs]
    exact ⟨hi.trans htidy.imap,
      (hd.freed (h.inUse.ok.freedAll hcov) hbet.inUse.ok hcov₀).trans htidy.bmap⟩

/-- What a removal should do to the record: the inode block of the node, its blocks and at most
one emptied block map of the directory are off it, and nothing else, in particular no block of
another node. -/
def FreesExactly (g : Shape) (dev : DevNo) (row : Fin inodeNrDev) (T : Tree) (P b : BlockNo)
    (fs fs' : FsState Disk) : Prop :=
  ∃ l : List BlockNo, l.length ≤ 1 ∧
    (∀ m ∈ l, m ∈ T.chain P ∧ Emptied (fs.store dev) b m) ∧
    (∀ k x, g.Covers k x → recorded g dev row fs' k x =
      if k = .imap ∧ x = b ∨ k = .bmap ∧ (x ∈ T.owned (fs.store dev) b ∨ x ∈ l) then 0
      else recorded g dev row fs k x) ∧
    ∀ c ∈ T.nodes, c ≠ b → recorded g dev row fs' .imap c = 1 ∧
      ∀ x ∈ T.owned (fs.store dev) c, x ∉ l → recorded g dev row fs' .bmap x = 1

theorem Stored.mem_held_owned (h : Stored g dev row T fs) (hb : b ∈ T.nodes) (hP : P ∈ T.nodes) :
    ∀ x ∈ T.owned (fs.store dev) b ++ emptiedMap (fs.store dev) b (T.chain P),
      x ∈ T.held (fs.store dev) .bmap := by
  intro x hx
  rw [Tree.mem_held_bmap]
  rcases List.mem_append.mp hx with hx | hx
  · exact ⟨b, hb, hx⟩
  · exact ⟨P, hP, (h.shaped.node P hP).chain_subset x (mem_emptiedMap hx).1⟩

/-- An emptied block map is no block of the node that is removed. -/
theorem Stored.emptied_not_owned (h : Stored g dev row T fs) (hb : b ∈ T.nodes) (hP : P ∈ T.nodes)
    (hPb : P ≠ b) {y : BlockNo} (hy : y ∈ emptiedMap (fs.store dev) b (T.chain P)) :
    y ∉ T.owned (fs.store dev) b := fun hyb =>
  h.shaped.disjoint P hP b hb hPb
    ((h.shaped.node P hP).chain_subset y (mem_emptiedMap hy).1) hyb

/-- The emptied block map is the last one to be given back, and is off the record. -/
theorem Stored.emptied_off (h : Stored g dev row T fs) (hb : b ∈ T.nodes) (hP : P ∈ T.nodes)
    (hd : SameBits g dev row .bmap (freedAll dev .bmap (T.owned (fs.store dev) b ++
      emptiedMap (fs.store dev) b (T.chain P)) fs) fs')
    {y : BlockNo} (hy : y ∈ emptiedMap (fs.store dev) b (T.chain P)) :
    recorded g dev row fs' .bmap y = 0 := by
  have hcov : g.Covers .bmap y :=
    h.inUse.covers (h.mem_held_owned hb hP y (List.mem_append_right _ hy))
  have hfinal := hd.record y hcov
  rw [emptiedMap_eq hy, freedAll_append, freedAll_singleton,
    recorded_freed (h.inUse.ok.freedAll (h.covers_owned hb)) hcov hcov, if_pos rfl,
    if_pos rfl] at hfinal
  exact hfinal

/-- A record with just these blocks off is what it should be. -/
theorem Stored.freesExactly_of_record (h : Stored g dev row T fs) (hb : b ∈ T.nodes)
    (hreci : ∀ x, g.Covers .imap x → recorded g dev row fs' .imap x =
      if x = b then 0 else recorded g dev row fs .imap x)
    (hrecd : ∀ x, g.Covers .bmap x → recorded g dev row fs' .bmap x =
      if x ∈ T.owned (fs.store dev) b ∨ x ∈ emptiedMap (fs.store dev) b (T.chain P) then 0
      else recorded g dev row fs .bmap x) :
    FreesExactly g dev row T P b fs fs' := by
  refine ⟨emptiedMap (fs.store dev) b (T.chain P), Option.length_toList_le, fun m hm =>
    mem_emptiedMap hm, fun k x hx => ?_, fun c hc hcb => ⟨?_, fun x hx hxl => ?_⟩⟩
  · cases k with
    | imap =>
        rw [hreci x hx]
        refine if_congr ?_ rfl rfl
        simp
    | bmap =>
        rw [hrecd x hx]
        refine if_congr ?_ rfl rfl
        simp
  · rw [hreci c (h.covers_node hc), if_neg hcb]
    exact h.inUse.recorded_eq hc
  · have hxb : x ∉ T.owned (fs.store dev) b := fun hxb =>
      h.shaped.disjoint c hc b hb hcb hx hxb
    rw [hrecd x (h.covers_owned hc x hx), if_neg fun hc => hc.elim hxb hxl]
    exact h.inUse.recorded_eq (Tree.mem_held_bmap.mpr ⟨c, hc, hx⟩)

/-- The link block of a hard link is not given back. -/
theorem Stored.not_freesExactly_of_hardlink (h : Stored g dev row T s.fs) (hP : P ∈ T.nodes)
    (hdir : (inodeAt (s.fs.store dev) P).isDirectory ≠ 0)
    (hentry : HasEntry (s.fs.store dev) (T.chain P) b)
    (hlead : LeadsTo dev p now fuel cwd path b s)
    (hrun : inodeFree flatStore dev p now fuel cwd path none s = some (.ok r, s'))
    (hlink : (inodeAt (s.fs.store dev) b).isHardlink ≠ 0) :
    ¬ FreesExactly g dev row T P b s.fs s'.fs := by
  rintro ⟨l, -, -, hrec, -⟩
  obtain ⟨-, hd⟩ := h.unlink_bits hP hdir hentry hlead hrun
  have hbT := ((h.shaped.node P hP).entries hdir b hentry).1
  have hPb : P ≠ b := h.ne_of_freed hP hdir hentry hlead hrun
  have hisLink : (inodeAt (s.fs.store dev) b).IsLink := Or.inr hlink
  have hown : T.owned (s.fs.store dev) b = [(inodeAt (s.fs.store dev) b).next] := by
    rw [Tree.owned, if_pos hisLink]
  have hmem : (inodeAt (s.fs.store dev) b).next ∈ T.owned (s.fs.store dev) b := by
    rw [hown]
    exact List.mem_singleton_self _
  have hheld := Tree.mem_held_bmap.mpr ⟨b, hbT, hmem⟩
  have hcov := h.covers_owned hbT _ hmem
  have hemptied : ∀ x ∈ emptiedMap (s.fs.store dev) b (T.chain P), x ∈ T.owned (s.fs.store dev) P :=
    fun x hx => (h.shaped.node P hP).chain_subset x (mem_emptiedMap hx).1
  have hkept := recorded_freedAll_one (l := emptiedMap (s.fs.store dev) b (T.chain P)) h.inUse.ok
    (fun x hx => h.covers_owned hP x (hemptied x hx)) hcov
    (fun hx => h.shaped.disjoint P hP b hbT hPb (hemptied _ hx) hmem) (h.inUse.held.disk _ _ hheld)
    (h.inUse.recorded_eq hheld)
  have hnone : T.released (s.fs.store dev) b = [] := by rw [Tree.released, if_pos hlink]
  have hfinal := hd.record _ hcov
  rw [hnone, List.nil_append, hkept, hrec .bmap _ hcov, if_pos (Or.inr ⟨rfl, Or.inl hmem⟩)] at hfinal
  cases hfinal

/-- **Storage accounting of `inode_free`.** A removal that returns gives back exactly the blocks
of the node and at most one emptied block map, if and only if the node is not a hard link and
the frees of each map stay in one map block. -/
theorem freesExactly_iff (h : Stored g dev row T s.fs) (hP : P ∈ T.nodes)
    (hdir : (inodeAt (s.fs.store dev) P).isDirectory ≠ 0)
    (hentry : HasEntry (s.fs.store dev) (T.chain P) b)
    (hlead : LeadsTo dev p now fuel cwd path b s)
    (hrun : inodeFree flatStore dev p now fuel cwd path none s = some (.ok r, s')) :
    FreesExactly g dev row T P b s.fs s'.fs ↔
      (inodeAt (s.fs.store dev) b).isHardlink = 0 ∧ OneWindow g dev row s.fs .imap [b] ∧
        OneWindow g dev row s.fs .bmap
          (T.owned (s.fs.store dev) b ++ emptiedMap (s.fs.store dev) b (T.chain P)) := by
  obtain ⟨hi, hd⟩ := h.unlink_bits hP hdir hentry hlead hrun
  have hbT := ((h.shaped.node P hP).entries hdir b hentry).1
  have hPb : P ≠ b := h.ne_of_freed hP hdir hentry hlead hrun
  have hsub := h.mem_held_owned hbT hP
  have hnd : (T.owned (s.fs.store dev) b ++ emptiedMap (s.fs.store dev) b (T.chain P)).Nodup := by
    refine List.nodup_append.mpr ⟨h.shaped.nodup b hbT, emptiedMap_nodup, fun x hx y hy hxy => ?_⟩
    exact h.emptied_not_owned hbT hP hPb hy (hxy ▸ hx)
  have hiffi := freedAll_recorded_iff (k := .imap) (l := [b]) h.inUse (List.nodup_singleton b)
    fun x hx => (List.mem_singleton.mp hx) ▸ hbT
  have hiffd := freedAll_recorded_iff h.inUse hnd hsub
  rw [freedAll_singleton] at hiffi
  constructor
  · intro hexact
    have hnotLink : (inodeAt (s.fs.store dev) b).isHardlink = 0 := by
      by_contra hlink
      exact h.not_freesExactly_of_hardlink hP hdir hentry hlead hrun hlink hexact
    obtain ⟨l, hlen, hmaps, hrec, -⟩ := hexact
    have hreleased : T.released (s.fs.store dev) b = T.owned (s.fs.store dev) b := by
      rw [Tree.released, if_neg (not_not.mpr hnotLink)]
    rw [hreleased] at hd
    refine ⟨hnotLink, hiffi.mp fun x hx => ?_, hiffd.mp fun x hx => ?_⟩
    · rw [← hi.record x hx, hrec .imap x hx]
      refine if_congr ?_ rfl rfl
      simp
    · -- The emptied block map is the one that `l` has room for.
      have hin : ∀ y ∈ emptiedMap (s.fs.store dev) b (T.chain P), y ∈ l := by
        intro y hy
        have h0 := h.emptied_off hbT hP hd hy
        have hheld := hsub y (List.mem_append_right _ hy)
        by_contra hyl
        have hnot : ¬ (MapKind.bmap = .imap ∧ y = b ∨
            MapKind.bmap = .bmap ∧ (y ∈ T.owned (s.fs.store dev) b ∨ y ∈ l)) := by
          rintro (hc | ⟨-, hc | hc⟩)
          · cases hc.1
          · exact h.emptied_not_owned hbT hP hPb hy hc
          · exact hyl hc
        rw [hrec .bmap y (h.inUse.covers hheld), if_neg hnot, h.inUse.recorded_eq hheld] at h0
        cases h0
      rw [← hd.record x hx, hrec .bmap x hx]
      refine if_congr ?_ rfl rfl
      rw [List.mem_append, mem_iff_mem_emptiedMap hlen hmaps hin]
      simp
  · rintro ⟨hnotLink, hwi, hwd⟩
    have hreleased : T.released (s.fs.store dev) b = T.owned (s.fs.store dev) b := by
      rw [Tree.released, if_neg (not_not.mpr hnotLink)]
    rw [hreleased] at hd
    refine h.freesExactly_of_record hbT (fun x hx => ?_) fun x hx => ?_
    · rw [hi.record x hx, hiffi.mpr hwi x hx]
      exact if_congr List.mem_singleton rfl rfl
    · rw [hd.record x hx, hiffd.mpr hwd x hx]
      exact if_congr List.mem_append rfl rfl

end Removal

/-- Removing `b` from the directory of two block maps gives back its inode and the second
block map. -/
theorem freesExactly_second_map :
    ∃ s', inodeFree flatStore 0 ⟨0, 0⟩ 0 3 4100 [slash, 98] none ⟨twoMaps, 0⟩ = some (.ok none, s') ∧
      FreesExactly (volumeShape (5242880 / 512)) 0 0 twoTree 4100 4102 twoMaps s'.fs := by
  have hlead := twoMaps_leads [slash, 98] rfl (by decide +kernel) (by decide) twoMaps_names.2
  obtain ⟨s', hrun⟩ := twoMaps_removed (by decide) (by decide) hlead
  have hkind := twoMaps_kinds.2 4102 (by decide)
  have hptr : ∀ k, (twoMaps.masterTab 0).ptr k = (volumeShape (5242880 / 512)).mapStart k := fun k =>
    (mountedVolume_fresh rfl).ptr k
  have hone : ∀ (k : MapKind) (l : List BlockNo), (∀ b ∈ l, (volumeShape (5242880 / 512)).ptrOf k b =
      (volumeShape (5242880 / 512)).mapStart k) →
      OneWindow (volumeShape (5242880 / 512)) 0 0 twoMaps k l :=
    fun k l h => Or.inr ⟨_, h, Or.inl (hptr k).symm⟩
  refine ⟨s', hrun, (freesExactly_iff (s := ⟨twoMaps, 0⟩) (P := 4100) twoMaps_stored (by decide)
    (twoMaps_kinds.1.dir.mpr rfl) (twoMaps_entry.mpr (by decide)) hlead hrun).mpr
    ⟨hkind.eq_zero.2.2.2 (by decide), hone _ _ ?_, hone _ _ ?_⟩⟩
  · intro b hb
    rw [List.mem_singleton.mp hb]
    decide
  · intro b hb
    rcases List.mem_append.mp hb with hb | hb
    · rw [twoTree, owned_flatTree twoMaps_kinds.1 (by decide) (by decide), if_neg (by decide),
        if_neg hkind.not_link_of_file] at hb
      cases hb
    · rcases List.mem_pair.mp (mem_emptiedMap hb).1 with rfl | rfl <;> decide

/-! ## A hard link -/

/-- The file `f` and its hard link `h`. -/
def fileF : Inode := { newInode 0 [102] 511 0 0 0 4101 4100 with isFile := 1, refcount := 1 }
def linkH : Inode := { newInode 0 [104] 511 0 0 0 4102 4100 with isHardlink := 1, next := 6149 }

/-- A root directory with a file and a hard link to it. -/
def linkVolume : FsState Disk := leafVolume [fileF, linkH] [(6149, [slash, 102])]

theorem fileF_name : fileF.name = [102] := cstr_strcpy (.of_all (by decide) (by decide))

theorem linkH_name : linkH.name = [104] := cstr_strcpy (.of_all (by decide) (by decide))

theorem linkVolume_ok : LeavesOk [fileF, linkH] [(6149, [slash, 102])] := by
  have hfile : fileF.HasKind .file := ⟨by decide, by decide, by decide, by decide⟩
  have hlink : linkH.HasKind .hardlink := ⟨by decide, by decide, by decide, by decide⟩
  have hpair : ∀ {Q : Inode → Prop}, Q fileF → Q linkH → ∀ n ∈ [fileF, linkH], Q n := by
    intro Q hf hl n hn
    rcases List.mem_pair.mp hn with rfl | rfl
    · exact hf
    · exact hl
  constructor
  · exact hpair (by decide) (by decide)
  · intro w hw
    rw [List.mem_singleton.mp hw]
    decide
  · decide
  · decide
  · exact hpair (by decide) (by decide)
  · exact hpair ⟨_, hfile, by decide⟩ ⟨_, hlink, by decide⟩
  · exact hpair (fun _ => rfl) fun hl => absurd (Or.inr (hlink.hardlink.mpr rfl)) hl
  · exact hpair (fun hl => absurd hl hfile.not_link_of_file) fun _ => List.mem_singleton_self _
  · exact hpair (fun n' _ hl => absurd hl hfile.not_link_of_file)
      (hpair (fun _ hl => absurd hl hfile.not_link_of_file) fun _ _ _ => rfl)
  · refine hpair (hpair (fun _ => rfl) fun heq => ?_) (hpair (fun heq => ?_) fun _ => rfl)
    · rw [fileF_name, linkH_name] at heq
      exact absurd heq (by decide)
    · rw [fileF_name, linkH_name] at heq
      exact absurd heq (by decide)

theorem linkVolume_contents :
    inodeAt (linkVolume.store 0) 4101 = fileF ∧ inodeAt (linkVolume.store 0) 4102 = linkH ∧
      linkAt (linkVolume.store 0) 6149 = [slash, 102] := by
  have hok := linkVolume_ok
  have hf : fileF.self = 4101 := rfl
  have hh : linkH.self = 4102 := rfl
  refine ⟨?_, ?_, ?_⟩
  · rw [← hf]
    exact hok.node List.mem_cons_self
  · rw [← hh]
    exact hok.node (List.mem_cons_of_mem _ (List.mem_singleton_self _))
  · exact hok.linkAt_eq (List.mem_singleton_self _) (.of_all (by decide) (by decide))

theorem linkVolume_leads : LeadsTo 0 ⟨0, 0⟩ 0 3 4100 [slash, 104] 4102 ⟨linkVolume, 0⟩ := by
  have hget : inodeGet flatStore 0 ⟨0, 0⟩ 0 3 4100 [slash, 104] false .dontCheckPerms ⟨linkVolume, 0⟩ =
      some (.ok linkH, ⟨linkVolume, 0⟩) :=
    linkVolume_ok.inodeGet (List.mem_cons_of_mem _ (List.mem_singleton_self _)) rfl (by decide)
      (by decide +kernel) linkH_name (Or.inl rfl) (by decide)
  rw [← linkVolume_contents.2.1] at hget
  exact hget

/-- The count of `f` is lowered when the entry of `h` is cleared. -/
theorem linkVolume_release {m : BlockNo} {j : Fin bmapBlocks} (hm : m ∈ [6148])
    (hj : (mapAt (linkVolume.store 0) m).blocks j = 4102) :
    ∃ s₁, releaseNode flatStore 0 3
      (fun path => inodeGet flatStore 0 ⟨0, 0⟩ 0 3 4100 path false .rw) linkH
      ((⟨linkVolume, 0⟩ : Names Disk).setFs (cleared 0 4102 m j linkVolume)) = some (.ok (), s₁) := by
  have hok := linkVolume_ok
  have hst : Stored (volumeShape (5242880 / 512)) 0 0 (leafTree [fileF, linkH])
      (⟨linkVolume, 0⟩ : Names Disk).fs := hok.stored
  have hshaped : Shaped 4100 (leafTree [fileF, linkH]) (linkVolume.store 0) := hok.shaped
  obtain ⟨hf, hh, hlink⟩ := linkVolume_contents
  have hP : (4100 : BlockNo) ∈ (leafTree [fileF, linkH]).nodes := by decide
  have hb : (4102 : BlockNo) ∈ (leafTree [fileF, linkH]).nodes := by decide
  have hdir : (inodeAt (linkVolume.store 0) 4100).isDirectory ≠ 0 := hok.rootKind.dir.mpr rfl
  have hkind : linkH.HasKind .hardlink := ⟨by decide, by decide, by decide, by decide⟩
  have hchange := hshaped.remove hP hdir hm hj (by decide) fun hc => by
    rw [hh] at hc
    exact absurd hc (by decide)
  have hst' : Stored (volumeShape (5242880 / 512)) 0 0 ((leafTree [fileF, linkH]).remove 4102)
      ((⟨linkVolume, 0⟩ : Names Disk).setFs (cleared 0 4102 m j linkVolume)).fs :=
    hst.stored_cleared (P := 4100) hP hdir hm hb hchange
  have hstore : ((⟨linkVolume, 0⟩ : Names Disk).setFs (cleared 0 4102 m j linkVolume)).fs.store 0 =
      Dev.setSlot (linkVolume.store 0) m j inodeNull := Stored.cleared_store hok.stored hb
  have hm6 : m = 6148 := List.mem_singleton.mp hm
  have hf' : inodeAt (((⟨linkVolume, 0⟩ : Names Disk).setFs (cleared 0 4102 m j linkVolume)).fs.store 0)
      4101 = fileF := by
    rw [hstore, inodeAt_setSlot (by rw [hm6]; decide), hf]
  have hr' : inodeAt (((⟨linkVolume, 0⟩ : Names Disk).setFs (cleared 0 4102 m j linkVolume)).fs.store 0)
      4100 = { Inode.zero.asRoot 0 0 4100 with next := 6148 } := by
    rw [hstore, inodeAt_setSlot (by rw [hm6]; decide)]
    exact hok.root
  have hchain : ((leafTree [fileF, linkH]).remove 4102).chain
      ((volumeShape (5242880 / 512)).regionStart .imap) = [6148] := by
    rw [shape_10240.1]
    rfl
  have hget : inodeGet flatStore 0 ⟨0, 0⟩ 0 3 4100 [slash, 102] false .rw
      ((⟨linkVolume, 0⟩ : Names Disk).setFs (cleared 0 4102 m j linkVolume)) =
      some (.ok (inodeAt (((⟨linkVolume, 0⟩ : Names Disk).setFs
        (cleared 0 4102 m j linkVolume)).fs.store 0) 4101),
        (⟨linkVolume, 0⟩ : Names Disk).setFs (cleared 0 4102 m j linkVolume)) := by
    have hcomp : components (normalize [slash, 102]) = [[], [102]] := by decide +kernel
    refine hst'.inodeGet_child rfl (by decide) hcomp ?_ ?_ ?_
      (by rw [hchain]; decide)
    · rw [shape_10240.1, hr']
      right
      right
      right
      decide
    · have hdist := (hst'.shaped.node _ hst'.shaped.rootMem).distinct hst'.shaped.rootDir
      rw [hchain] at hdist ⊢
      have hent := hdist.namedEntry_eq (e := 4101) (by
        rw [hstore]
        exact (EntriesOk.hasEntry_clear (hok.shaped.node 4100 hP |>.distinct hdir) hm hj).mpr
          ⟨hok.hasEntry.mpr (by decide), by decide⟩)
      rw [hf', fileF_name] at hent
      exact hent
    · rw [hf']
      right
      right
      right
      decide
  have hlink' : linkAt (((⟨linkVolume, 0⟩ : Names Disk).setFs
      (cleared 0 4102 m j linkVolume)).fs.store 0) linkH.next = [slash, 102] := by
    have hne : linkH.next ≠ m := by
      rw [hm6]
      decide
    rw [hstore, linkAt, Dev.setSlot_of_ne hne]
    exact hlink
  refine ⟨_, Stored.releaseNode_hardlink hkind (by decide) (t := fileF) ?_⟩
  rw [hlink', hget, hf']

/-- Removing the hard link `h` keeps its link block. -/
theorem freesExactly_hardlink :
    ∃ s', inodeFree flatStore 0 ⟨0, 0⟩ 0 3 4100 [slash, 104] none ⟨linkVolume, 0⟩ =
        some (.ok none, s') ∧
      ¬ FreesExactly (volumeShape (5242880 / 512)) 0 0 (leafTree [fileF, linkH]) 4100 4102
        linkVolume s'.fs := by
  have hok := linkVolume_ok
  have hst : Stored (volumeShape (5242880 / 512)) 0 0 (leafTree [fileF, linkH])
      (⟨linkVolume, 0⟩ : Names Disk).fs := hok.stored
  have hh : inodeAt ((⟨linkVolume, 0⟩ : Names Disk).fs.store 0) 4102 = linkH := linkVolume_contents.2.1
  have hP : (4100 : BlockNo) ∈ (leafTree [fileF, linkH]).nodes := by decide
  have hdir := hok.rootKind.dir.mpr rfl
  have hentry : HasEntry (linkVolume.store 0) [6148] 4102 := hok.hasEntry.mpr (by decide)
  have hfree : ∃ s', inodeFree flatStore 0 ⟨0, 0⟩ 0 3 4100 [slash, 104] none ⟨linkVolume, 0⟩ =
      some (.ok none, s') := by
    refine hst.inodeFree_returns (P := 4100) hP hdir hentry linkVolume_leads (by decide) ?_ ?_
      (by decide) ?_
    · rw [hh]
      decide
    · rw [hh]
      exact fun hc => absurd hc (by decide)
    · rw [hh]
      exact fun m j hm hj => linkVolume_release hm hj
  obtain ⟨s', hrun⟩ := hfree
  refine ⟨s', hrun, hst.not_freesExactly_of_hardlink (P := 4100) hP hdir hentry linkVolume_leads hrun ?_⟩
  rw [hh]
  decide

end OxKernel.Fs
