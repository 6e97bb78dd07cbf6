import OxKernel.Fs.CreateSteps

/-!
# Creations with room

With enough free blocks in the maps `inode_create` does not fail once it has found the directory:
it fails before it has changed anything, or it makes the node.

## Main definitions

* `freeOf` — the blocks that are recorded as free.
* `RoomFor` — there are enough of them for a creation.
* `Stored.create_error`, `Stored.create_returns` — the results of a creation with room.
-/
namespace OxKernel.Fs

open Lib (Call)

/-! ## Free blocks -/

section Room
variable (g : Shape) (dev : DevNo) (row : Fin inodeNrDev)

/-- The blocks of a map that are recorded as free. -/
def freeOf (fs : FsState Disk) (k : MapKind) : Finset BlockNo :=
  (g.covered k).filter fun b => recorded g dev row fs k b = 0

/-- There is an inode block for the node, and there are data blocks for a block map and a link. -/
def RoomFor (k : NodeKind) (fs : FsState Disk) : Prop :=
  1 ≤ (freeOf g dev row fs .imap).card ∧ 1 + k.links ≤ (freeOf g dev row fs .bmap).card

variable {g dev row} {H : BlockSets} {i l : List BlockNo} {fs : FsState Disk} {d : Dev}
  {s s' : Names Disk} {k : MapKind}

/-- A get succeeds if a block is free. -/
theorem InUse.take_free (h : InUse g dev row H s.fs) (hfree : (freeOf g dev row s.fs k).Nonempty) :
    ∃ b s', takeBlock flatStore dev k s = some (.ok b, s') := by
  rcases h.take k with ⟨b, fs, hrun, -⟩ | ⟨fs, -, hfull⟩
  · exact ⟨b, _, hrun⟩
  · obtain ⟨b, hb⟩ := hfree
    rw [freeOf, Finset.mem_filter, Shape.mem_covered h.ok.sound] at hb
    have hset := hfull.full b hb.1
    rw [hb.2] at hset
    cases hset

/-- What has been taken is not free any more, and the other blocks still are. -/
theorem Progress.take_free (h : Progress g dev row H i l fs d s.fs)
    (hroom : (draws i l k).length < (freeOf g dev row fs k).card) :
    ∃ b s', takeBlock flatStore dev k s = some (.ok b, s') := by
  refine h.inUse.take_free ?_
  have hsub : freeOf g dev row fs k \ (draws i l k).toFinset ⊆ freeOf g dev row s.fs k := by
    intro b hb
    rw [freeOf, Finset.mem_sdiff, Finset.mem_filter, List.mem_toFinset] at hb
    have hcov := (Shape.mem_covered h.inUse.ok.sound).mp hb.1.1
    rw [freeOf, Finset.mem_filter]
    refine ⟨hb.1.1, ?_⟩
    rw [h.record k b hcov, if_neg hb.2]
    exact hb.1.2
  have hcard := Finset.le_card_sdiff (draws i l k).toFinset (freeOf g dev row fs k)
  have hlen := List.toFinset_card_le (draws i l k)
  refine Finset.Nonempty.mono hsub (Finset.card_pos.mp ?_)
  omega

end Room

/-! ## The parts of a creation do not fail -/

/-- A computation does not fail from a state. -/
def NoError {α : Type} (x : NameM Disk α) (s : Names Disk) : Prop :=
  ∀ e s', x s ≠ some (.error e, s')

section Parts
variable {g : Shape} {dev : DevNo} {row : Fin inodeNrDev} {H : BlockSets} {s s' : Names Disk}
  {P next : BlockNo} {ms : List BlockNo} {fuel : ℕ} {α β : Type}

theorem NoError.of_ok {x : NameM Disk α} {a : α} (h : x s = some (.ok a, s')) : NoError x s := by
  intro e s'' he
  cases h.symm.trans he

theorem NoError.bind {x : NameM Disk α} {f : α → NameM Disk β} (hx : NoError x s)
    (hf : ∀ a s', x s = some (.ok a, s') → NoError (f a) s') : NoError (x >>= f) s := by
  intro e s' he
  rcases Call.bind_eq_error.mp he with hxe | ⟨a, s₁, hxa, hfe⟩
  · exact hx e s' hxe
  · exact hf a s₁ hxa e s' hfe

theorem NoError.bind_of_ok {x : NameM Disk α} {f : α → NameM Disk β} {a : α}
    (hx : x s = some (.ok a, s')) (hf : NoError (f a) s') : NoError (x >>= f) s := by
  intro e s'' he
  rw [Call.bind_of_ok hx] at he
  exact hf e s'' he

/-- A computation that does not fail and returns. -/
theorem NoError.ok {x : NameM Disk α} (h : NoError x s) {r : Except InodeRtvl α}
    (hrun : x s = some (r, s')) : ∃ a, r = .ok a := by
  cases r with
  | error e => exact absurd hrun (h e s')
  | ok a => exact ⟨a, rfl⟩

theorem placeInChain_noError (hclear : g.Clear) (huse : InUse g dev row H s.fs)
    (hfree : (freeOf g dev row s.fs .imap).Nonempty) :
    NoError (placeInChain flatStore dev fuel next) s := by
  induction fuel generalizing next with
  | zero =>
      intro e s' h
      cases h
  | succ fuel ih =>
      rw [placeInChain]
      refine NoError.bind_of_ok (readBmap_flat ..) ?_
      cases (mapAt (s.fs.store dev) next).freeSlot with
      | some j =>
          obtain ⟨b, s₁, htake⟩ := huse.take_free hfree
          obtain ⟨hcov, -⟩ := (Progress.start huse).takeInode_ok htake
          refine NoError.bind_of_ok htake (NoError.bind_of_ok (writeSector_flat ..) ?_)
          rw [if_pos (hclear.ne_null .imap b hcov)]
          exact NoError.of_ok (Call.pure_apply ..)
      | none =>
          dsimp only
          split
          · exact NoError.of_ok (Call.pure_apply ..)
          · exact ih

theorem placeInNewMap_noError {x : BlockNo} {data : BlockNo → Sector}
    (huse : InUse g dev row H s.fs) (hx : ∀ k, ¬ g.InMap k x)
    (hnode : (freeOf g dev row s.fs .imap).Nonempty)
    (hmap : (freeOf g dev row s.fs .bmap).Nonempty) :
    NoError (placeInNewMap flatStore dev fun next => writeSector flatStore dev x (data next)) s := by
  obtain ⟨m, s₁, htake⟩ := huse.take_free hmap
  obtain ⟨-, fs₁, rfl, hprog⟩ := (Progress.start huse).takeData_ok htake
  have hlinked := hprog.write hx (data m)
  obtain ⟨b, s₂, hnext⟩ := Progress.take_free (k := .imap)
    (s := (s.setFs fs₁).write dev x (data m)) hlinked (Finset.card_pos.mpr hnode)
  rw [placeInNewMap]
  refine NoError.bind_of_ok htake (NoError.bind_of_ok (writeSector_flat ..) ?_)
  refine NoError.bind_of_ok hnext (NoError.bind_of_ok (writeSector_flat ..) ?_)
  exact NoError.of_ok (Call.pure_apply ..)

/-- **Placing an entry does not fail** if there are free blocks. -/
theorem placeEntry_noError (hclear : g.Clear) (huse : InUse g dev row H s.fs)
    (hcov : ∀ m ∈ ms, g.Covers .bmap m) (hP : g.Covers .imap P)
    (hself : (inodeAt (s.fs.store dev) P).self = P)
    (hl : Linked (s.fs.store dev) (inodeAt (s.fs.store dev) P).next ms)
    (hnode : (freeOf g dev row s.fs .imap).Nonempty)
    (hmap : (freeOf g dev row s.fs .bmap).Nonempty) :
    NoError (placeEntry flatStore dev fuel (inodeAt (s.fs.store dev) P)) s := by
  rw [placeEntry]
  split
  · refine placeInNewMap_noError huse ?_ hnode hmap
    rw [hself]
    exact hclear.not_map .imap P hP
  · rename_i hnext
    have hms : ms ≠ [] := fun h0 => hnext (hl.nil_iff.mpr h0)
    refine NoError.bind (placeInChain_noError hclear huse hnode) fun r s₁ hchain => ?_
    rcases placeInChain_ok hclear huse hcov hl hms hchain with
      ⟨m, j, e, fs, rfl, -⟩ | ⟨pre, q, hpre, rfl, rfl, -⟩
    · exact NoError.of_ok (Call.pure_apply ..)
    · have hq := hcov q (by rw [hpre]; exact List.mem_append_right _ (List.mem_singleton_self q))
      exact placeInNewMap_noError huse (hclear.not_map .bmap q hq) hnode hmap

/-- **Making the inode does not fail** if there is a block for a link. -/
theorem makeNode_noError {e : BlockNo} {ext : List BlockNo} {fs₀ : FsState Disk} {d : Dev}
    (hprog : Progress g dev row H [e] ext fs₀ d s.fs) {n : Inode} {mode : InodeMode} {k : NodeKind}
    (hk : mode.kind = some k) {get : BlockNo → CStr → NameM Disk Inode} {linkPath : CStr}
    (hroom : ext.length + k.links ≤ (freeOf g dev row fs₀ .bmap).card) :
    NoError (makeNode flatStore dev get mode linkPath n) s := by
  cases mode with
  | createFile => exact NoError.bind_of_ok (readInode_flat ..) (NoError.of_ok (writeSector_flat ..))
  | createDir => exact NoError.bind_of_ok (readInode_flat ..) (NoError.of_ok (writeSector_flat ..))
  | createSymlink =>
      cases hk
      obtain ⟨b, s₁, htake⟩ := hprog.take_free (k := .bmap) (Nat.lt_of_succ_le hroom)
      refine NoError.bind_of_ok (readInode_flat ..) (NoError.bind_of_ok htake ?_)
      exact NoError.bind_of_ok (writeSector_flat ..) (NoError.of_ok (writeSector_flat ..))
  | _ => cases hk

/-! ## The parts of a creation end -/

/-- The search of a chain ends, given enough rounds. -/
theorem placeInChain_ends (hclear : g.Clear) (huse : InUse g dev row H s.fs)
    (hl : Linked (s.fs.store dev) next ms) (hms : ms ≠ []) (hfuel : ms.length ≤ fuel) :
    placeInChain flatStore dev fuel next s ≠ none := by
  induction fuel generalizing next ms with
  | zero => exact absurd (List.length_eq_zero_iff.mp (Nat.le_zero.mp hfuel)) hms
  | succ fuel ih =>
      cases ms with
      | nil => exact absurd rfl hms
      | cons m ms =>
          obtain ⟨rfl, -, hrest⟩ := hl
          rw [placeInChain, Call.bind_of_ok (readBmap_flat ..)]
          cases (mapAt (s.fs.store dev) next).freeSlot with
          | some j =>
              dsimp only
              rcases huse.take .imap with ⟨b, fs, htake, ht⟩ | ⟨fs, htake, -⟩
              · rw [Call.bind_of_ok htake, Call.bind_of_ok (writeSector_flat ..),
                  if_pos (hclear.ne_null .imap b ht.covers), Call.pure_apply]
                exact Option.some_ne_none _
              · rw [Call.bind_of_error htake]
                exact Option.some_ne_none _
          | none =>
              dsimp only
              split
              · rw [Call.pure_apply]
                exact Option.some_ne_none _
              · rename_i hnext
                refine ih hrest (fun h0 => hnext (hrest.nil_iff.mpr h0)) ?_
                rw [List.length_cons] at hfuel
                omega

theorem bind_ne_none {x : NameM Disk α} {f : α → NameM Disk β} (hx : x s ≠ none)
    (hf : ∀ a s', x s = some (.ok a, s') → f a s' ≠ none) : (x >>= f) s ≠ none := by
  rcases hxs : x s with _ | ⟨_ | a, s'⟩
  · exact absurd hxs hx
  · rw [Call.bind_of_error hxs]
    exact Option.some_ne_none _
  · rw [Call.bind_of_ok hxs]
    exact hf a s' hxs

theorem takeBlock_ne_none (k : MapKind) : takeBlock flatStore dev k s ≠ none := by
  rw [takeBlock]
  split <;> exact Option.some_ne_none _

theorem placeInNewMap_ends (x : BlockNo) (data : BlockNo → Sector) :
    placeInNewMap flatStore dev (fun next => writeSector flatStore dev x (data next)) s ≠ none := by
  rw [placeInNewMap]
  refine bind_ne_none (takeBlock_ne_none .bmap) fun m s₁ _ => ?_
  rw [Call.bind_of_ok (writeSector_flat ..)]
  refine bind_ne_none (takeBlock_ne_none .imap) fun b s₂ _ => ?_
  rw [Call.bind_of_ok (writeSector_flat ..), Call.pure_apply]
  exact Option.some_ne_none _

theorem placeEntry_ends (hclear : g.Clear) (huse : InUse g dev row H s.fs) {dir : Inode}
    (hl : Linked (s.fs.store dev) dir.next ms) (hfuel : ms.length ≤ fuel) :
    placeEntry flatStore dev fuel dir s ≠ none := by
  rw [placeEntry]
  split
  · exact placeInNewMap_ends dir.self fun next => Inode.layout { dir with next := next }
  · rename_i hnext
    have hms : ms ≠ [] := fun h0 => hnext (hl.nil_iff.mpr h0)
    refine bind_ne_none (placeInChain_ends hclear huse hl hms hfuel) fun r s₁ _ => ?_
    rcases r with b | ⟨q, bmap⟩
    · exact Option.some_ne_none (Except.ok b, s₁)
    · exact placeInNewMap_ends q fun next => BlockMap.layout { bmap with next := next }

end Parts

/-! ## The whole call -/

section Prefix
variable {dev : DevNo} {root now : BlockNo} {p : Cred} {fuel : ℕ}
  {R : Names Disk → Names Disk → Prop} [Std.Refl R] [IsTrans (Names Disk) R]

/-- The search of the directory reads only. -/
theorem within_createDirectory
    (hread : ∀ b, Call.Within R (readSector flatStore dev b) (readSector flatStore dev b))
    {readlink : BlockNo → NameM Disk BlockNo} (hl : ∀ b, Call.Within R (readlink b) (readlink b))
    (name : CStr) (b : BlockNo) :
    Call.Within R (createDirectory flatStore dev p readlink fuel name b)
      (createDirectory flatStore dev p readlink fuel name b) := by
  have hend : ∀ (c : BlockNo) (o : Option (BlockNo × Inode)), Call.Within R
      (do
        Call.require (o.isNone = true) .fail
        let dir ← readInode flatStore dev c
        pure (c, dir) : NameM Disk (BlockNo × Inode))
      (do
        Call.require (o.isNone = true) .fail
        let dir ← readInode flatStore dev c
        pure (c, dir) : NameM Disk (BlockNo × Inode)) := fun c o =>
    Call.Within.bind Call.Within.require fun _ =>
      Call.Within.bind (within_readInode hread c) fun _ => Call.Within.pure _
  rw [createDirectory]
  refine Call.Within.bind (within_enterDir hread hl b) fun a => ?_
  refine Call.Within.bind Call.Within.require fun _ => ?_
  split
  · exact Call.Within.bind (Call.Within.pure none) (hend a.1)
  · exact Call.Within.bind (within_scanChain hread (le_refl fuel) name _) (hend a.1)

end Prefix

section Outcome
variable {g : Shape} {dev : DevNo} {row : Fin inodeNrDev} {T : Tree} {s s' : Names Disk}
  {p : Cred} {now cwd : BlockNo} {fuel : ℕ} {path : CStr} {a : NewNode} {k : NodeKind}
  {r : Except InodeRtvl Unit}

/-- The way to the directory keeps the file system, whether it ends there or not. -/
theorem Stored.keepsFs_follow (h : Stored g dev row T s.fs) (b : BlockNo) :
    Call.Within (Carries (· = s.fs)) (follow dev p now (g.regionStart .imap) fuel b)
      (follow dev p now (g.regionStart .imap) fuel b) := by
  refine within_kreadlink carries_readSector (le_refl fuel) (fun _ _ h => h) (fun b path => ?_) b
  exact within_carries_iff.mpr
    (keepsFs_inodeGet h.inUse.ok.rootBlock_eq h.shaped.rootName fuel b path true .dontCheckPerms)

theorem Stored.walk_keeps (h : Stored g dev row T s.fs) {names : List CStr} {b : BlockNo}
    {r : Except InodeRtvl BlockNo}
    (hrun : walk flatStore dev p (follow dev p now (g.regionStart .imap) fuel) fuel names b s =
      some (r, s')) : s'.fs = s.fs :=
  (within_walk carries_readSector (le_refl fuel) h.keepsFs_follow names b _ _ _ hrun).2 rfl

theorem Stored.createDirectory_keeps (h : Stored g dev row T s.fs) {name : CStr} {b : BlockNo}
    {r : Except InodeRtvl (BlockNo × Inode)}
    (hrun : createDirectory flatStore dev p (follow dev p now (g.regionStart .imap) fuel) fuel name b
      s = some (r, s')) : s'.fs = s.fs :=
  (within_createDirectory carries_readSector h.keepsFs_follow name b _ _ _ hrun).2 rfl

theorem components_cases (path : CStr) : (components path).length ≤ 1 ∨
    ∃ c names name, components path = c :: (names ++ [name]) := by
  rcases hcomp : components path with _ | ⟨c, names⟩
  · exact Or.inl (Nat.zero_le 1)
  · rcases List.eq_nil_or_concat names with rfl | ⟨names, name, rfl⟩
    · exact Or.inl (le_refl 1)
    · exact Or.inr ⟨c, names, name, by rw [List.concat_eq_append]⟩

/-- A path without components is no creation. -/
theorem createAt_short {rl : BlockNo → NameM Disk BlockNo} {get : BlockNo → CStr → NameM Disk Inode}
    {root : BlockNo} {abs linkPath : CStr} (h : (components abs).length ≤ 1) :
    createAt flatStore dev p now root rl get fuel abs linkPath a =
      rootInode flatStore dev now root >>= fun _ => pure () := by
  rw [createAt]
  rcases hcomp : components abs with _ | ⟨c, _ | ⟨name, names⟩⟩
  · rfl
  · rfl
  · rw [hcomp, List.length_cons, List.length_cons] at h
    omega

/-- **A creation that fails** with room has not changed the file system. -/
theorem Stored.create_error (h : Stored g dev row T s.fs) (hk : a.mode.kind = some k)
    (hroom : RoomFor g dev row k s.fs) {e : InodeRtvl}
    (hrun : inodeCreate flatStore dev p now fuel cwd path a s = some (.error e, s')) :
    s'.fs = s.fs := by
  have hrootSelf := (h.shaped.node _ h.shaped.rootMem).self
  have hreq : ∀ {c : Prop} [Decidable c] {t : Names Disk} {α : Type} {f : Unit → NameM Disk α},
      (Call.require c .fail >>= f) t = some (.error e, s') →
      s' = t ∨ c ∧ f () t = some (.error e, s') := by
    intro c _ t α f hf
    rw [Call.require_bind_apply] at hf
    split at hf
    · exact Or.inr ⟨by assumption, hf⟩
    · cases hf
      exact Or.inl rfl
  rw [inodeCreate_eq, Call.get_bind_apply, Call.bind_of_ok h.ofOption_rootBlock, createFrom] at hrun
  rcases hreq hrun with rfl | ⟨-, hrun₁⟩
  · rfl
  rcases hreq hrun₁ with rfl | ⟨-, hrun₂⟩
  · rfl
  rcases hreq hrun₂ with rfl | ⟨-, hrun₃⟩
  · rfl
  rcases Call.bind_eq_error.mp hrun₃ with hreal | ⟨abs, s₁, hreal, hrun₄⟩
  · rw [krealpath_state hreal]
  rw [krealpath_state hreal] at hrun₄
  have hlink : (∃ lpath, krealpath flatStore dev (g.regionStart .imap) fuel cwd lpath s =
      some (.error e, s')) ∨ ∃ linkPath, createAt flatStore dev p now (g.regionStart .imap)
      (follow dev p now (g.regionStart .imap) fuel)
      (fun parent linkPath => inodeGet flatStore dev p now fuel parent linkPath false .dontCheckPerms)
      fuel abs linkPath a s = some (.error e, s') := by
    cases hl : a.lpath with
    | none =>
        rw [hl] at hrun₄
        exact Or.inr ⟨[], hrun₄⟩
    | some lpath =>
        rw [hl] at hrun₄
        rcases Call.bind_eq_error.mp hrun₄ with hlink | ⟨linkPath, s₂, hlink, hrun₅⟩
        · exact Or.inl ⟨lpath, hlink⟩
        · rw [krealpath_state hlink] at hrun₅
          exact Or.inr ⟨linkPath, hrun₅⟩
  rcases hlink with ⟨lpath, hlink⟩ | ⟨linkPath, hat⟩
  · rw [krealpath_state hlink]
  rcases components_cases abs with hshort | ⟨c, names, name, hcomp⟩
  · rw [createAt_short hshort, Call.bind_of_ok h.rootInode_ok, Call.pure_apply] at hat
    cases hat
  rw [createAt_concat hcomp, Call.bind_of_ok h.rootInode_ok, hrootSelf] at hat
  rcases Call.bind_eq_error.mp hat with hwalk | ⟨b, s₂, hwalk, hbelow⟩
  · exact h.walk_keeps hwalk
  obtain ⟨hs₂, hb⟩ := h.walk_ok hwalk
  rw [hs₂] at hbelow
  rcases Call.bind_eq_error.mp hbelow with hcreate | ⟨x, s₃, hcreate, hplace⟩
  · exact h.createDirectory_keeps hcreate
  -- From here on there is room for everything that is taken.
  obtain ⟨y, s₄, henter, -⟩ := Call.bind_eq_ok.mp hcreate
  obtain ⟨hs₄, -, -, ⟨P, hP, hy, -⟩, hdir⟩ :=
    h.shows.mirrors_enterDir h.mirrors_follow hb _ _ henter
  rw [hs₄, hy] at henter
  rw [hy] at hdir
  obtain ⟨hs₃, hx, -, -⟩ := h.createDirectory_ok hP hdir henter hcreate
  rw [hs₃, hx] at hplace
  have hok := h.shaped.node P hP
  have hnode := Finset.card_pos.mp hroom.1
  have hmap := Finset.card_pos.mp (Nat.lt_of_lt_of_le (Nat.lt_add_right _ Nat.one_pos) hroom.2)
  have hcov : ∀ m ∈ T.chain P, g.Covers .bmap m := fun m hm => h.covers_map hP hm
  have hlinked := hok.linked_dir hdir
  rcases Call.bind_eq_error.mp hplace with herr | ⟨b', s₅, hentry, hmake⟩
  · exact absurd herr (placeEntry_noError h.clear h.inUse hcov (h.covers_node hP) hok.self hlinked
      hnode hmap e s')
  · obtain ⟨-, ext, d₁, fs, hs₅, -, -, hlen, hprog⟩ :=
      placeEntry_ok h.clear h.inUse hcov (h.covers_node hP) hok.self hlinked hentry
    have hle : ext.length ≤ 1 := by
      rw [hlen, mapsNeeded]
      split <;> decide
    have hroom' := (Nat.add_le_add_right hle k.links).trans hroom.2
    rw [hs₅] at hmake
    exact absurd hmake (makeNode_noError (s := s.setFs fs) hprog hk hroom' e s')

/-- **A file or a directory is made**, given enough rounds, if there is room, the caller may
change the directory, and the name is new. -/
theorem Stored.create_returns (h : Stored g dev row T s.fs) {names : List CStr} {name : CStr}
    {P : BlockNo} (hin : CreatesIn dev p now (g.regionStart .imap) fuel cwd path names name P s)
    (hlen : path.length ≤ maxPath) (hfuel : (T.chain P).length ≤ fuel)
    (hrwx : inodeCheckPermissions (inodeAt (s.fs.store dev) P) p .rwx)
    (hnew : namedEntry (s.fs.store dev) (T.chain P) name = none)
    (hmode : a.mode = .createFile ∨ a.mode = .createDir) (hlpath : a.lpath = none)
    (hroom : RoomFor g dev row .file s.fs) :
    ∃ s', inodeCreate flatStore dev p now fuel cwd path a s = some (.ok (), s') := by
  obtain ⟨hP, hdir⟩ := h.enterPath_mem hin.dir
  obtain ⟨abs, habs, hcomp⟩ := hin.path
  have hok := h.shaped.node P hP
  have hlinked := hok.linked_dir hdir
  obtain ⟨b, s₁, hwalk, henter⟩ := Call.bind_eq_ok.mp hin.dir
  obtain ⟨hs₁, -⟩ := h.walk_ok hwalk
  rw [hs₁] at hwalk henter
  -- The search of the directory finds nothing.
  have hcreate : createDirectory flatStore dev p (follow dev p now (g.regionStart .imap) fuel) fuel
      name b s = some (.ok (found (s.fs.store dev) P), s) := by
    have hend : ∀ o : Option (BlockNo × Inode), o = none → (do
        Call.require (o.isNone = true) .fail
        let dir ← readInode flatStore dev P
        pure (P, dir) : NameM Disk (BlockNo × Inode)) s = some (.ok (found (s.fs.store dev) P), s) := by
      rintro o rfl
      exact (Call.bind_of_ok (Call.require_of_pos rfl)).trans (Call.bind_of_ok (readInode_flat ..))
    rw [createDirectory, Call.bind_of_ok henter]
    refine (Call.bind_of_ok (Call.require_of_pos hrwx)).trans ?_
    by_cases hnext : (found (s.fs.store dev) P).2.next = inodeNull
    · rw [if_pos hnext, Call.pure_bind_apply]
      exact hend none rfl
    · have hms : T.chain P ≠ [] := fun h0 => hnext (hlinked.nil_iff.mpr h0)
      have hscan := (scanChain_flat name fuel hlinked hms).resolve_left
        fun hc => absurd hc.2 (Nat.not_lt.mpr hfuel)
      rw [hnew] at hscan
      rw [if_neg hnext]
      exact (Call.bind_of_ok hscan).trans (hend none rfl)
  have hcov : ∀ m ∈ T.chain P, g.Covers .bmap m := fun m hm => h.covers_map hP hm
  have hplace : ∃ e s₂, placeEntry flatStore dev fuel (inodeAt (s.fs.store dev) P) s =
      some (.ok e, s₂) := by
    obtain ⟨⟨r, s₂⟩, hrun⟩ := Option.ne_none_iff_exists'.mp (placeEntry_ends h.clear h.inUse hlinked hfuel)
    obtain ⟨e, rfl⟩ := (placeEntry_noError h.clear h.inUse hcov (h.covers_node hP) hok.self hlinked
      (Finset.card_pos.mp hroom.1) (Finset.card_pos.mp (Nat.lt_of_lt_of_le Nat.one_pos hroom.2))).ok hrun
    exact ⟨e, s₂, hrun⟩
  obtain ⟨e, s₂, hplace⟩ := hplace
  have hmade : ∀ (get : BlockNo → CStr → NameM Disk Inode) (n : Inode),
      ∃ s', makeNode flatStore dev get a.mode [] n s₂ = some (.ok (), s') := by
    intro get n
    rcases hmode with hm | hm <;> rw [hm, makeNode, Call.bind_of_ok (readInode_flat ..)]
    · exact ⟨_, writeSector_flat ..⟩
    · exact ⟨_, writeSector_flat ..⟩
  obtain ⟨s', hmade⟩ := hmade
    (fun parent linkPath => inodeGet flatStore dev p now fuel parent linkPath false .dontCheckPerms)
    (newInode now name a.perm a.umask a.group a.owner e P)
  have hreq : a.lpath.isSome = true ∨ a.mode ≠ .createSymlink ∧ a.mode ≠ .createHardlink := by
    right
    rcases hmode with hm | hm <;> rw [hm] <;> exact ⟨by decide, by decide⟩
  have hreq' : (a.lpath.getD []).length ≤ maxPath := by
    rw [hlpath]
    exact Nat.zero_le _
  have hself := (h.shaped.node _ h.shaped.rootMem).self
  refine ⟨s', ?_⟩
  rw [inodeCreate_eq, Call.get_bind_apply, Call.bind_of_ok h.ofOption_rootBlock, createFrom,
    Call.bind_of_ok (Call.require_of_pos hreq), Call.bind_of_ok (Call.require_of_pos hlen),
    Call.bind_of_ok (Call.require_of_pos hreq'), Call.bind_of_ok habs, hlpath]
  show createAt flatStore dev p now (g.regionStart .imap) (follow dev p now (g.regionStart .imap) fuel)
    _ fuel abs [] a s = _
  rw [createAt_concat hcomp, Call.bind_of_ok h.rootInode_ok, hself, Call.bind_of_ok hwalk,
    Call.bind_of_ok hcreate]
  exact (Call.bind_of_ok hplace).trans hmade

end Outcome

end OxKernel.Fs
