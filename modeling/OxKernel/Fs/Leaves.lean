import Mathlib.Data.List.GetD
import OxKernel.Fs.UnlinkLaw

/-!
# Volumes with a few leaves

Volumes of 10240 blocks for examples: a root directory with one block map, and in it files and
links that have no blocks but a link block.

## Main definitions

* `leafVolume` — the volume with given nodes and link blocks.
* `LeavesOk` — the nodes make a tree.
* `emptyVolume` — the volume with an empty root directory.
* `symVolume` — the volume with one symbolic link.
-/
namespace OxKernel.Fs

open Lib (Call)

/-! ## Several writes -/

/-- Write several blocks. -/
def FsState.writes (fs : FsState Disk) (dev : DevNo) (l : List (BlockNo × Sector)) : FsState Disk :=
  l.foldr (fun w fs => fs.write dev w.1 w.2) fs

theorem FsState.writes_cons {fs : FsState Disk} {dev : DevNo} {w : BlockNo × Sector}
    {l : List (BlockNo × Sector)} : fs.writes dev (w :: l) = (fs.writes dev l).write dev w.1 w.2 := rfl

theorem FsState.writes_store {fs : FsState Disk} {dev : DevNo} {l : List (BlockNo × Sector)}
    (hl : (l.map Prod.fst).Nodup) {w : BlockNo × Sector} (hw : w ∈ l) :
    (fs.writes dev l).store dev w.1 = w.2 := by
  induction l with
  | nil => cases hw
  | cons v l ih =>
      rw [FsState.writes_cons, FsState.write_store]
      obtain ⟨hv, hl⟩ := List.nodup_cons.mp hl
      rcases List.mem_cons.mp hw with rfl | hw
      · exact Function.update_self ..
      · have hne : w.1 ≠ v.1 := fun he => hv (he ▸ List.mem_map_of_mem hw)
        rw [Function.update_of_ne hne]
        exact ih hl hw

theorem FsState.writes_of_not_mem {fs : FsState Disk} {dev : DevNo} {l : List (BlockNo × Sector)}
    {b : BlockNo} (hb : b ∉ l.map Prod.fst) : (fs.writes dev l).store dev b = fs.store dev b := by
  induction l with
  | nil => rfl
  | cons w l ih =>
      rw [List.map_cons, List.mem_cons, not_or] at hb
      rw [FsState.writes_cons, FsState.write_of_ne hb.1, ih hb.2]

theorem InUse.writes {g : Shape} {dev : DevNo} {row : Fin inodeNrDev} {H : BlockSets}
    {fs : FsState Disk} (h : InUse g dev row H fs) {l : List (BlockNo × Sector)}
    (hl : ∀ w ∈ l, ∀ k, ¬ g.InMap k w.1) : InUse g dev row H (fs.writes dev l) := by
  induction l with
  | nil => exact h
  | cons w l ih =>
      rw [FsState.writes_cons]
      exact (ih fun v hv => hl v (List.mem_cons_of_mem _ hv)).write (hl w List.mem_cons_self) _

/-! ## A block map with a list of entries -/

/-- A block map whose first slots are used. -/
def listMap (l : List BlockNo) : BlockMap := ⟨inodeNull, fun i => l.getD i.val inodeNull⟩

section
variable {d : Dev} {m e : BlockNo} {l : List BlockNo}

theorem listMap_slot {i : Fin bmapBlocks} (h : (listMap l).blocks i ≠ inodeNull) :
    ∃ hi : i.val < l.length, (listMap l).blocks i = l[i.val] := by
  by_cases hi : i.val < l.length
  · exact ⟨hi, List.getD_eq_getElem _ _ hi⟩
  · exact absurd (List.getD_eq_default _ _ (Nat.not_lt.mp hi)) h

theorem hasEntry_listMap (hm : mapAt d m = listMap l) (h0 : inodeNull ∉ l)
    (hlen : l.length ≤ bmapBlocks) : HasEntry d [m] e ↔ e ∈ l := by
  constructor
  · rintro ⟨he, m', hm', j, hj⟩
    rw [List.mem_singleton.mp hm', hm] at hj
    obtain ⟨hi, hx⟩ := listMap_slot (hj ▸ he)
    rw [← hj, hx]
    exact List.getElem_mem hi
  · intro he
    obtain ⟨i, hi, rfl⟩ := List.getElem_of_mem he
    refine ⟨fun hc => h0 (hc ▸ he), m, List.mem_singleton_self m, ⟨i, by omega⟩, ?_⟩
    rw [hm]
    exact List.getD_eq_getElem _ _ hi

theorem entriesOk_listMap (hm : mapAt d m = listMap l) (h0 : inodeNull ∉ l)
    (hlen : l.length ≤ bmapBlocks) (hl : l.Nodup)
    (hnames : ∀ e ∈ l, ∀ e' ∈ l, (inodeAt d e).name = (inodeAt d e').name → e = e') :
    EntriesOk d [m] := by
  constructor
  · intro m₁ hm₁ m₂ hm₂ j j' hne heq
    rw [List.mem_singleton.mp hm₁, List.mem_singleton.mp hm₂]
    rw [List.mem_singleton.mp hm₁, hm] at hne heq
    rw [List.mem_singleton.mp hm₂, hm] at heq
    obtain ⟨hi, hx⟩ := listMap_slot hne
    obtain ⟨hi', hx'⟩ := listMap_slot (heq ▸ hne)
    refine ⟨rfl, Fin.ext ?_⟩
    rw [hx, hx'] at heq
    exact (hl.getElem_inj_iff).mp heq
  · intro e e' he he' heq
    exact hnames e ((hasEntry_listMap hm h0 hlen).mp he) e' ((hasEntry_listMap hm h0 hlen).mp he') heq

/-- A directory with one entry. -/
theorem entriesOk_single (hm : mapAt d m = listMap [e])
    (he : e ≠ inodeNull) : EntriesOk d [m] := by
  refine entriesOk_listMap hm (fun h0 => he (List.mem_singleton.mp h0).symm) ?_
    (List.nodup_singleton _) ?_
  · show 1 ≤ bmapBlocks
    decide
  · intro a ha b hb _
    rw [List.mem_singleton.mp ha, List.mem_singleton.mp hb]

end

/-! ## The volume -/

/-- A volume of 10240 blocks with these nodes in the root directory and these link blocks. -/
def leafVolume (nodes : List Inode) (links : List (BlockNo × CStr)) : FsState Disk :=
  startVolume.writes 0
    ((4100, Inode.layout { Inode.zero.asRoot 0 0 4100 with next := 6148 }) ::
      (6148, BlockMap.layout (listMap (nodes.map Inode.self))) ::
      (nodes.map (fun n => (n.self, Inode.layout n)) ++
        links.map fun w => (w.1, Link.layout ⟨strcpy (fun _ => 0) w.2, fun _ => 0⟩)))

/-- Nodes and link blocks that make a tree. -/
structure LeavesOk (nodes : List Inode) (links : List (BlockNo × CStr)) : Prop where
  inodeBlock : ∀ n ∈ nodes, 4100 < n.self.toNat ∧ n.self.toNat < 4108
  linkBlock : ∀ w ∈ links, 6148 < w.1.toNat ∧ w.1.toNat < 6156
  nodup : (nodes.map Inode.self).Nodup
  linksNodup : (links.map Prod.fst).Nodup
  parent : ∀ n ∈ nodes, n.parent = 4100
  kind : ∀ n ∈ nodes, ∃ k, n.HasKind k ∧ k ≠ .dir
  next : ∀ n ∈ nodes, ¬ n.IsLink → n.next = inodeNull
  link : ∀ n ∈ nodes, n.IsLink → n.next ∈ links.map Prod.fst
  alone : ∀ n ∈ nodes, ∀ n' ∈ nodes, n.IsLink → n'.IsLink → n'.next = n.next → n' = n
  names : ∀ n ∈ nodes, ∀ n' ∈ nodes, n.name = n'.name → n = n'

section Leaves
variable {nodes : List Inode} {links : List (BlockNo × CStr)} {n : Inode}

/-- The tree on it. -/
def leafTree (nodes : List Inode) : Tree := flatTree 4100 (nodes.map Inode.self).toFinset [6148]

theorem LeavesOk.blocks_nodup (h : LeavesOk nodes links) :
    (4100 :: 6148 :: (nodes.map Inode.self ++ links.map Prod.fst)).Nodup := by
  have hb : ∀ b ∈ nodes.map Inode.self, 4100 < b.toNat ∧ b.toNat < 4108 := by
    intro b hb
    obtain ⟨n, hn, rfl⟩ := List.mem_map.mp hb
    exact h.inodeBlock n hn
  have hl : ∀ b ∈ links.map Prod.fst, 6148 < b.toNat ∧ b.toNat < 6156 := by
    intro b hb
    obtain ⟨w, hw, rfl⟩ := List.mem_map.mp hb
    exact h.linkBlock w hw
  have hr : (4100 : BlockNo).toNat = 4100 := rfl
  have hm : (6148 : BlockNo).toNat = 6148 := rfl
  refine List.nodup_cons.mpr ⟨?_, List.nodup_cons.mpr ⟨?_, List.nodup_append.mpr
    ⟨h.nodup, h.linksNodup, ?_⟩⟩⟩
  · intro hmem
    rcases List.mem_cons.mp hmem with h0 | hmem
    · exact absurd h0 (by decide)
    · rcases List.mem_append.mp hmem with hmem | hmem
      · have := hb _ hmem
        omega
      · have := hl _ hmem
        omega
  · intro hmem
    rcases List.mem_append.mp hmem with hmem | hmem
    · have := hb _ hmem
      omega
    · have := hl _ hmem
      omega
  · rintro a ha b hb' rfl
    have := hb _ ha
    have := hl _ hb'
    omega

theorem LeavesOk.store (h : LeavesOk nodes links) {w : BlockNo × Sector}
    (hw : w ∈ (4100, Inode.layout { Inode.zero.asRoot 0 0 4100 with next := 6148 }) ::
      (6148, BlockMap.layout (listMap (nodes.map Inode.self))) ::
      (nodes.map (fun n => (n.self, Inode.layout n)) ++
        links.map fun w => (w.1, Link.layout ⟨strcpy (fun _ => 0) w.2, fun _ => 0⟩))) :
    (leafVolume nodes links).store 0 w.1 = w.2 := by
  refine FsState.writes_store ?_ hw
  simp only [List.map_cons, List.map_append, List.map_map]
  exact h.blocks_nodup

theorem LeavesOk.root (h : LeavesOk nodes links) :
    inodeAt ((leafVolume nodes links).store 0) 4100 =
      { Inode.zero.asRoot 0 0 4100 with next := 6148 } := by
  rw [inodeAt, h.store List.mem_cons_self, Equiv.symm_apply_apply]

theorem LeavesOk.map (h : LeavesOk nodes links) :
    mapAt ((leafVolume nodes links).store 0) 6148 = listMap (nodes.map Inode.self) := by
  rw [mapAt, h.store (List.mem_cons_of_mem _ List.mem_cons_self), Equiv.symm_apply_apply]

theorem LeavesOk.node (h : LeavesOk nodes links) (hn : n ∈ nodes) :
    inodeAt ((leafVolume nodes links).store 0) n.self = n := by
  rw [inodeAt, h.store (w := (n.self, Inode.layout n)) ?_, Equiv.symm_apply_apply]
  refine List.mem_cons_of_mem _ (List.mem_cons_of_mem _ (List.mem_append_left _ ?_))
  exact List.mem_map_of_mem hn

theorem LeavesOk.linkAt_eq (h : LeavesOk nodes links) {b : BlockNo} {path : CStr}
    (hw : (b, path) ∈ links) (hpath : path.Fits) :
    linkAt ((leafVolume nodes links).store 0) b = path := by
  have hstore := h.store (w := (b, Link.layout ⟨strcpy (fun _ => 0) path, fun _ => 0⟩)) (by
    refine List.mem_cons_of_mem _ (List.mem_cons_of_mem _ (List.mem_append_right _ ?_))
    exact List.mem_map.mpr ⟨_, hw, rfl⟩)
  rw [linkAt, hstore, Equiv.symm_apply_apply]
  exact cstr_strcpy hpath

theorem LeavesOk.null_not_mem (h : LeavesOk nodes links) : inodeNull ∉ nodes.map Inode.self := by
  intro hmem
  obtain ⟨n, hn, h0⟩ := List.mem_map.mp hmem
  have hlt := (h.inodeBlock n hn).1
  rw [h0] at hlt
  exact absurd hlt (by decide)

theorem LeavesOk.length_le (h : LeavesOk nodes links) : (nodes.map Inode.self).length ≤ 8 := by
  have hnd : ((nodes.map Inode.self).map fun b => b.toNat - 4100).Nodup := by
    refine h.nodup.map_on fun a ha b hb heq => UInt32.toNat_inj.mp ?_
    obtain ⟨n, hn, rfl⟩ := List.mem_map.mp ha
    obtain ⟨n', hn', rfl⟩ := List.mem_map.mp hb
    have := h.inodeBlock n hn
    have := h.inodeBlock n' hn'
    omega
  have hsub : ((nodes.map Inode.self).map fun b => b.toNat - 4100) ⊆ List.range 8 := by
    intro x hx
    obtain ⟨b, hb, rfl⟩ := List.mem_map.mp hx
    obtain ⟨n, hn, rfl⟩ := List.mem_map.mp hb
    have := h.inodeBlock n hn
    exact List.mem_range.mpr (by omega)
  have hle := (hnd.subperm hsub).length_le
  rw [List.length_map, List.length_range] at hle
  exact hle

theorem LeavesOk.hasEntry (h : LeavesOk nodes links) {e : BlockNo} :
    HasEntry ((leafVolume nodes links).store 0) [6148] e ↔ e ∈ nodes.map Inode.self :=
  hasEntry_listMap h.map h.null_not_mem (h.length_le.trans (by decide))

theorem LeavesOk.rootKind (h : LeavesOk nodes links) :
    (inodeAt ((leafVolume nodes links).store 0) 4100).HasKind .dir := by
  rw [h.root]
  exact ⟨by decide, by decide, by decide, by decide⟩

theorem LeavesOk.shaped (h : LeavesOk nodes links) :
    Shaped 4100 (leafTree nodes) ((leafVolume nodes links).store 0) := by
  have hroot : (4100 : BlockNo) ∉ nodes.map Inode.self := fun hmem =>
    (List.nodup_cons.mp h.blocks_nodup).1 (List.mem_cons_of_mem _ (List.mem_append_left _ hmem))
  obtain ⟨hmapNode, hnd⟩ := List.nodup_cons.mp (List.nodup_cons.mp h.blocks_nodup).2
  refine Shaped.of_leaves ?_ ?_ ?_ h.rootKind ?_ ?_ ?_ ?_ ?_ ?_
  · rw [h.root]
    exact cstr_strcpy (.of_all (by decide) (by decide))
  · rw [h.root]
    rfl
  · rw [h.root]
    rfl
  · rw [h.root]
    refine ⟨rfl, by decide, ?_⟩
    rw [h.map]
    rfl
  · refine entriesOk_listMap h.map h.null_not_mem (h.length_le.trans (by decide)) h.nodup ?_
    intro e he e' he' heq
    obtain ⟨n, hn, rfl⟩ := List.mem_map.mp he
    obtain ⟨n', hn', rfl⟩ := List.mem_map.mp he'
    rw [h.node hn, h.node hn'] at heq
    rw [h.names n hn n' hn' heq]
  · intro m hm
    rw [List.mem_singleton.mp hm, List.mem_toFinset]
    exact ⟨by decide, fun hmem => hmapNode (List.mem_append_left _ hmem)⟩
  · rw [List.mem_toFinset]
    exact hroot
  · intro e
    rw [List.mem_toFinset]
    exact h.hasEntry
  · intro e he
    obtain ⟨n, hn, rfl⟩ := List.mem_map.mp (List.mem_toFinset.mp he)
    have hat := h.node hn
    refine ⟨?_, ?_, ?_, ?_, ?_⟩ <;> rw [hat]
    · exact h.parent n hn
    · exact h.kind n hn
    · exact h.next n hn
    · intro hl
      have hmem := h.link n hn hl
      refine ⟨fun hm => ?_, fun hr => ?_, fun hx => ?_, fun e' he' hl' heq => ?_⟩
      · rw [List.mem_singleton.mp hm] at hmem
        exact hmapNode (List.mem_append_right _ hmem)
      · rw [hr] at hmem
        exact (List.nodup_cons.mp h.blocks_nodup).1
          (List.mem_cons_of_mem _ (List.mem_append_right _ hmem))
      · exact (List.nodup_append.mp hnd).2.2 _ (List.mem_toFinset.mp hx) _ hmem rfl
      · obtain ⟨n', hn', rfl⟩ := List.mem_map.mp (List.mem_toFinset.mp he')
        rw [h.node hn'] at hl' heq
        rw [h.alone n hn n' hn' hl hl' heq]

/-- Blocks among the first ones of the two regions are in use. -/
theorem LeavesOk.inUse (h : LeavesOk nodes links) {H : BlockSets}
    (hi : ∀ b ∈ H .imap, 4100 ≤ b.toNat ∧ b.toNat < 4108)
    (hd : ∀ b ∈ H .bmap, 6148 ≤ b.toNat ∧ b.toNat < 6156) :
    InUse (volumeShape (5242880 / 512)) 0 0 H (leafVolume nodes links) := by
  refine InUse.writes (startVolume_inUse hi hd) fun w hw k => not_inMap_10240 ?_ k
  rcases List.mem_cons.mp hw with rfl | hw
  · exact Nat.le_refl _
  rcases List.mem_cons.mp hw with rfl | hw
  · show 4100 ≤ (6148 : BlockNo).toNat
    decide
  rcases List.mem_append.mp hw with hw | hw
  · obtain ⟨n, hn, rfl⟩ := List.mem_map.mp hw
    exact Nat.le_of_lt (h.inodeBlock n hn).1
  · obtain ⟨v, hv, rfl⟩ := List.mem_map.mp hw
    have := (h.linkBlock v hv).1
    show 4100 ≤ v.1.toNat
    omega

theorem LeavesOk.stored (h : LeavesOk nodes links) :
    Stored (volumeShape (5242880 / 512)) 0 0 (leafTree nodes) (leafVolume nodes links) := by
  have hr : (4100 : BlockNo).toNat = 4100 := rfl
  have hm : (6148 : BlockNo).toNat = 6148 := rfl
  have hN : ∀ e ∈ (nodes.map Inode.self).toFinset, ∃ n ∈ nodes, n.self = e := fun e he =>
    List.mem_map.mp (List.mem_toFinset.mp he)
  refine ⟨volumeShape_clear (by decide), ?_, h.inUse (fun b hb => ?_) fun b hb => ?_⟩
  · rw [shape_10240.1]
    exact h.shaped
  · rcases Finset.mem_insert.mp hb with rfl | hb
    · omega
    · obtain ⟨n, hn, rfl⟩ := hN b hb
      have := h.inodeBlock n hn
      omega
  · obtain ⟨c, hc, hbc⟩ := Tree.mem_held_bmap.mp hb
    have hcN : c ≠ 4100 → ∃ n ∈ nodes, n.self = c := fun hne =>
      hN c ((Finset.mem_insert.mp hc).resolve_left hne)
    rw [leafTree, owned_flatTree h.rootKind ?_ hc] at hbc
    · by_cases hc4 : c = 4100
      · rw [if_pos hc4] at hbc
        rw [List.mem_singleton.mp hbc]
        omega
      · obtain ⟨n, hn, rfl⟩ := hcN hc4
        rw [if_neg hc4, h.node hn] at hbc
        split at hbc
        · rename_i hl
          obtain ⟨w, hw, hwb⟩ := List.mem_map.mp (h.link n hn hl)
          have hlt := h.linkBlock w hw
          rw [hwb, ← List.mem_singleton.mp hbc] at hlt
          omega
        · cases hbc
    · intro h4
      obtain ⟨n, hn, h4⟩ := hN _ h4
      have := h.inodeBlock n hn
      rw [h4] at this
      omega

theorem LeavesOk.rootName (h : LeavesOk nodes links) :
    (inodeAt ((leafVolume nodes links).store 0) 4100).name = [slash] := by
  rw [← shape_10240.1]
  exact h.stored.shaped.rootName

/-- The name of a leaf is found in the root. -/
theorem LeavesOk.stepDir (h : LeavesOk nodes links) (hn : n ∈ nodes) {name : CStr}
    (hname : n.name = name) {fuel : ℕ} (hfuel : 1 ≤ fuel) (p : Cred)
    (rl : BlockNo → NameM Disk BlockNo) (nr : Int32) :
    Fs.stepDir flatStore 0 p rl fuel name 4100 ⟨leafVolume nodes links, nr⟩ =
      some (.ok (n.self, n), ⟨leafVolume nodes links, nr⟩) := by
  have hst : Stored (volumeShape (5242880 / 512)) 0 0 (leafTree nodes)
      (⟨leafVolume nodes links, nr⟩ : Names Disk).fs := h.stored
  have hrx : inodeCheckPermissions (inodeAt ((leafVolume nodes links).store 0) 4100) p .rx := by
    rw [h.root]
    right
    right
    right
    decide
  have hmem : (4100 : BlockNo) ∈ (leafTree nodes).nodes := Finset.mem_insert_self ..
  have hdir := h.rootKind.dir.mpr rfl
  have hdist := (h.shaped.node 4100 hmem).distinct hdir
  have hent := hdist.namedEntry_eq (h.hasEntry.mpr (List.mem_map_of_mem hn))
  rw [h.node hn, hname] at hent
  have hstep := hst.stepDir_dir hmem hdir hrx hent hfuel rl
  rw [found, h.node hn] at hstep
  exact hstep

/-- The name of a leaf leads to it. -/
theorem LeavesOk.getFrom (h : LeavesOk nodes links) (hn : n ∈ nodes) {p : Cred} {now cwd : BlockNo}
    {path name : CStr} {nr : Int32} (hslash : path.head? = some slash) (hlen : path.length ≤ maxPath)
    (hcomp : components (normalize path) = [[], name]) (hname : n.name = name) {fuel : ℕ}
    (hfuel : 1 ≤ fuel) (rl : BlockNo → NameM Disk BlockNo) (doReadlink : Bool) (mode : InodeMode) :
    Fs.getFrom flatStore 0 p now 4100 rl fuel cwd path doReadlink mode ⟨leafVolume nodes links, nr⟩ =
      finishGet flatStore 0 p rl doReadlink mode n ⟨leafVolume nodes links, nr⟩ := by
  have hstep := h.stepDir hn hname hfuel p rl nr
  have hroot := h.rootName
  have hself : (inodeAt ((leafVolume nodes links).store 0) 4100).self = 4100 := by
    rw [h.root]
    rfl
  generalize leafVolume nodes links = fs at hstep hroot hself ⊢
  have hwalk : walk flatStore 0 p rl fuel [name].dropLast 4100 (⟨fs, nr⟩ : Names Disk) =
      some (.ok 4100, ⟨fs, nr⟩) := rfl
  rw [Fs.getFrom, Call.bind_of_ok (Call.require_of_pos hlen),
    Call.bind_of_ok (krealpath_absolute hslash hlen),
    Call.bind_of_ok (rootInode_flat (s := ⟨fs, nr⟩) hroot), hcomp, hself]
  exact (Call.bind_of_ok hwalk).trans (Call.bind_of_ok hstep)

theorem LeavesOk.rootBlock_eq (h : LeavesOk nodes links) :
    rootBlock 0 (leafVolume nodes links) = some 4100 := by
  rw [← shape_10240.1]
  exact h.stored.inUse.ok.rootBlock_eq

/-- A leaf can be looked up by a process that may do what it asks for. -/
theorem LeavesOk.inodeGet (h : LeavesOk nodes links) (hn : n ∈ nodes) {p : Cred} {now cwd : BlockNo}
    {path name : CStr} {mode : InodeMode} (hslash : path.head? = some slash)
    (hlen : path.length ≤ maxPath) (hcomp : components (normalize path) = [[], name])
    (hname : n.name = name) (hmode : inodeCheckPermissions n p mode) {fuel : ℕ} (hfuel : 1 ≤ fuel) :
    Fs.inodeGet flatStore 0 p now (fuel + 1) cwd path false mode ⟨leafVolume nodes links, 0⟩ =
      some (.ok n, ⟨leafVolume nodes links, 0⟩) := by
  have hroot : (ofOption (some 4100) : NameM Disk BlockNo) ⟨leafVolume nodes links, 0⟩ =
      some (.ok 4100, ⟨leafVolume nodes links, 0⟩) := rfl
  rw [Fs.inodeGet, Call.get_bind_apply, h.rootBlock_eq, Call.bind_of_ok hroot,
    h.getFrom hn hslash hlen hcomp hname hfuel, finishGet, if_neg (by simp)]
  exact Call.bind_of_ok (Call.require_of_pos hmode)

end Leaves

/-! ## An empty directory -/

/-- A volume with an empty root directory. -/
def emptyVolume : FsState Disk := leafVolume [] []

theorem leavesOk_nil : LeavesOk [] [] where
  inodeBlock _ h := by cases h
  linkBlock _ h := by cases h
  nodup := List.nodup_nil
  linksNodup := List.nodup_nil
  parent _ h := by cases h
  kind _ h := by cases h
  next _ h := by cases h
  link _ h := by cases h
  alone _ h := by cases h
  names _ h := by cases h

theorem emptyVolume_rootBlock : rootBlock 0 emptyVolume = some 4100 := leavesOk_nil.rootBlock_eq

theorem emptyVolume_root : (inodeAt (emptyVolume.store 0) 4100).name = [slash] :=
  leavesOk_nil.rootName

/-! ## A symbolic link -/

section Symlink
variable {target : CStr} {nr : Int32}

/-- The symbolic link `s`. -/
def symS : Inode := { newInode 0 [115] 511 0 0 0 4101 4100 with isSymlink := 1, next := 6149 }

/-- A root directory with a symbolic link to a path. -/
def symVolume (target : CStr) : FsState Disk := leafVolume [symS] [(6149, target)]

theorem symS_name : symS.name = [115] := cstr_strcpy (.of_all (by decide) (by decide))

theorem symVolume_ok (target : CStr) : LeavesOk [symS] [(6149, target)] := by
  have hkind : symS.HasKind .symlink := ⟨by decide, by decide, by decide, by decide⟩
  have hone : ∀ {Q : Inode → Prop}, Q symS → ∀ n ∈ [symS], Q n := by
    intro Q hQ n hn
    rw [List.mem_singleton.mp hn]
    exact hQ
  constructor
  · exact hone (by decide)
  · intro w hw
    rw [List.mem_singleton.mp hw]
    show 6148 < (6149 : BlockNo).toNat ∧ (6149 : BlockNo).toNat < 6156
    decide
  · exact List.nodup_singleton _
  · exact List.nodup_singleton _
  · exact hone rfl
  · exact hone ⟨_, hkind, by decide⟩
  · exact hone fun hl => absurd (Or.inl (hkind.symlink.mpr rfl)) hl
  · exact hone fun _ => List.mem_singleton_self _
  · exact hone (hone fun _ _ _ => rfl)
  · exact hone (hone fun _ => rfl)

theorem symVolume_rootBlock (target : CStr) : rootBlock 0 (symVolume target) = some 4100 := by
  rw [symVolume]
  exact (symVolume_ok target).rootBlock_eq

theorem symVolume_root (target : CStr) : inodeAt ((symVolume target).store 0) 4100 =
    { Inode.zero.asRoot 0 0 4100 with next := 6148 } := by
  rw [symVolume]
  exact (symVolume_ok target).root

theorem symVolume_rootName (target : CStr) :
    (inodeAt ((symVolume target).store 0) 4100).name = [slash] := by
  rw [symVolume]
  exact (symVolume_ok target).rootName

section Lookup
variable {p : Cred} {now cwd : BlockNo} {mode : InodeMode} {fuel : ℕ}

/-- The path `/s` leads to the link. -/
theorem getFrom_symVolume (hfuel : 1 ≤ fuel) (rl : BlockNo → NameM Disk BlockNo) :
    getFrom flatStore 0 p now 4100 rl fuel cwd [slash, 115] true mode ⟨symVolume target, nr⟩ =
      finishGet flatStore 0 p rl true mode symS ⟨symVolume target, nr⟩ := by
  have hcomp : components (normalize [slash, 115]) = [[], [115]] := by decide +kernel
  exact (symVolume_ok target).getFrom List.mem_cons_self rfl (by decide) hcomp symS_name hfuel rl
    true mode

/-- The lookup of the link, up to where it leads. -/
theorem finishGet_symS {rl : BlockNo → NameM Disk BlockNo} {s : Names Disk} :
    finishGet flatStore 0 p rl true mode symS s =
      (rl 4101 >>= fun block => do
        Call.require (block ≠ inodeNull) .fail
        let tnode ← readInode flatStore 0 block
        Call.require (inodeCheckPermissions tnode p mode) .fail
        pure tnode) s := by
  have hsym : (symS.isSymlink ≠ 0 ∨ symS.isHardlink ≠ 0) ∧ true = true := ⟨Or.inl (by decide), rfl⟩
  have hself : symS.self = 4101 := rfl
  rw [finishGet, if_pos hsym, hself]

end Lookup

/-- Following the link is looking its path up. -/
theorem linkTarget_symVolume (htarget : target.Fits) (hslash : target.head? = some slash) (fuel : ℕ)
    (get : BlockNo → CStr → NameM Disk Inode) :
    linkTarget flatStore 0 4100 fuel get 4101 ⟨symVolume target, nr⟩ =
      get 4101 target ⟨symVolume target, nr⟩ := by
  have hself : symS.self = 4101 := rfl
  have hnode : inodeAt ((symVolume target).store 0) 4101 = symS := by
    rw [← hself]
    exact (symVolume_ok target).node List.mem_cons_self
  have hlink : cstr (Link.layout.symm ((symVolume target).store 0 6149)).path = target :=
    (symVolume_ok target).linkAt_eq List.mem_cons_self htarget
  have hsym : symS.isSymlink ≠ 0 ∨ symS.isHardlink ≠ 0 := Or.inl (by decide)
  generalize symVolume target = fs at hnode hlink
  have hread : readInode flatStore 0 4101 (⟨fs, nr⟩ : Names Disk) = some (.ok symS, ⟨fs, nr⟩) := by
    rw [readInode_flat]
    show some (Except.ok (inodeAt (fs.store 0) 4101), (⟨fs, nr⟩ : Names Disk)) = _
    rw [hnode]
  have hpath : readLink flatStore 0 6149 (⟨fs, nr⟩ : Names Disk) =
      some (.ok (Link.layout.symm (fs.store 0 6149)), ⟨fs, nr⟩) := readLink_flat ..
  have hreal : krealpath flatStore 0 4100 fuel 4101 target (⟨fs, nr⟩ : Names Disk) =
      some (.ok (normalize target), ⟨fs, nr⟩) :=
    krealpath_absolute hslash (Nat.le_of_lt htarget.length)
  have hnext : symS.next = 6149 := rfl
  rw [linkTarget, Call.bind_of_ok hread, Call.bind_of_ok (Call.require_of_pos hsym), hnext,
    Call.bind_of_ok hpath, hlink, Call.bind_of_ok hreal]

end Symlink

end OxKernel.Fs
