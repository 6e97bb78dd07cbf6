import OxKernel.Fs.CreateGrowth
import OxKernel.Fs.Cycles
import OxKernel.Fs.LinkCount

/-!
# A creation taken apart

`inode_create` goes to the directory the way `inode_get` does, looks for the name there, places
the entry and makes the inode. Up to the placing it changes nothing, and a lookup of the same
components leads to the same directory.

## Main definitions

* `enterPath` — the directory that components lead to.
* `CreatesIn` — the directory and the name of a creation.
* `CreateRun` — what a creation has done when it returns.
-/
namespace OxKernel.Fs

open Lib (Call)

/-! ## The way to the directory -/

section Way
variable (dev : DevNo) (p : Cred) (now root : BlockNo) (fuel : ℕ)

/-- `kreadlink` as the path functions call it. -/
def follow : BlockNo → NameM Disk BlockNo :=
  kreadlink flatStore dev root fuel fun cwd path =>
    inodeGet flatStore dev p now fuel cwd path true .dontCheckPerms

/-- The directory that components lead to from the root. -/
def enterPath (names : List CStr) : NameM Disk (BlockNo × Inode) := do
  let b ← walk flatStore dev p (follow dev p now root fuel) fuel names root
  enterDir flatStore dev (follow dev p now root fuel) b

/-- The components that a path is made of. -/
def PathIs (cwd : BlockNo) (path : CStr) (names : List CStr) (s : Names Disk) : Prop :=
  ∃ abs, krealpath flatStore dev root fuel cwd path s = some (.ok abs, s) ∧
    components abs = [] :: names

/-- A creation of `name` in the directory `P`, the last but one component of the path. -/
structure CreatesIn (cwd : BlockNo) (path : CStr) (names : List CStr) (name : CStr) (P : BlockNo)
    (s : Names Disk) : Prop where
  path : PathIs dev root fuel cwd path (names ++ [name]) s
  dir : enterPath dev p now root fuel names s = some (.ok (found (s.fs.store dev) P), s)

variable {dev p now root fuel} {s t : Names Disk} {N : Finset BlockNo} {len fuel' : ℕ}
  {now' : BlockNo}

theorem Shows.mirrors_follow (h : Shows dev root N len s t) (hf : fuel + len ≤ fuel') :
    MirrorsLink s t N (follow dev p now root fuel) (follow dev p now' root fuel') := by
  refine h.mirrors_kreadlink (Nat.le_of_add_right_le hf) fun b hb path => ?_
  exact h.deeper.mirrors_inodeGet hf (h.deeper.samePath (Or.inr hb)) true .dontCheckPerms

/-- **The way to a directory** is the same on both devices. -/
theorem Shows.mirrors_enterPath (h : Shows dev root N len s t) (hf : fuel + len ≤ fuel')
    (names : List CStr) :
    Call.Mirrors (fun a a' => SameEntry s t dev N a a' ∧ a.2.isDirectory ≠ 0)
      (enterPath dev p now root fuel names) s (enterPath dev p now' root fuel' names) t := by
  have hl : MirrorsLink s t N (follow dev p now root fuel) (follow dev p now' root fuel') :=
    h.mirrors_follow hf
  rw [enterPath, enterPath]
  refine Call.Mirrors.bind (h.mirrors_walk hl (by omega) names h.root_mem) fun b b' hb => ?_
  obtain ⟨hb, rfl⟩ := hb
  exact h.mirrors_enterDir hl hb

/-- A walk and the step behind it. -/
theorem walk_concat {rl : BlockNo → NameM Disk BlockNo} (names : List CStr) (name : CStr)
    (b : BlockNo) :
    walk flatStore dev p rl fuel (names ++ [name]) b =
      walk flatStore dev p rl fuel names b >>= fun c =>
        stepDir flatStore dev p rl fuel name c >>= fun a => pure a.1 := by
  induction names generalizing b with
  | nil => rfl
  | cons x names ih =>
      have hrec : walk flatStore dev p rl fuel (x :: names ++ [name]) b =
          stepDir flatStore dev p rl fuel x b >>= fun a =>
            walk flatStore dev p rl fuel (names ++ [name]) a.1 := rfl
      rw [hrec, walk, Call.bind_assoc]
      exact congrArg _ (funext fun a => ih a.1)

/-- A lookup below the root, with its last component. -/
theorem getBelow_concat {rl : BlockNo → NameM Disk BlockNo} (names : List CStr) (name : CStr)
    (doReadlink : Bool) (mode : InodeMode) (n : Inode) :
    getBelow flatStore dev p rl fuel doReadlink mode ([] :: (names ++ [name])) n =
      walk flatStore dev p rl fuel names n.self >>= fun b =>
        stepDir flatStore dev p rl fuel name b >>= fun a =>
          finishGet flatStore dev p rl doReadlink mode a.2 := by
  obtain ⟨x, l, hl⟩ := List.exists_cons_of_ne_nil (List.concat_ne_nil name names)
  have hdrop : (x :: l).dropLast = names := by rw [← hl, List.dropLast_concat]
  have hlast : (x :: l).getLast (List.cons_ne_nil _ _) = name := by
    simp only [← hl, List.getLast_append_singleton]
  rw [hl]
  show walk flatStore dev p rl fuel (x :: l).dropLast n.self >>= (fun b =>
    stepDir flatStore dev p rl fuel ((x :: l).getLast (List.cons_ne_nil _ _)) b >>= fun a =>
      finishGet flatStore dev p rl doReadlink mode a.2) = _
  rw [hdrop, hlast]

end Way

/-! ## The lookup of the directory -/

section Parent
variable {g : Shape} {dev : DevNo} {row : Fin inodeNrDev} {T : Tree} {s s' : Names Disk}
  {p : Cred} {now cwd P : BlockNo} {fuel : ℕ} {path name : CStr} {names : List CStr}

theorem Stored.rootInode_ok (h : Stored g dev row T s.fs) :
    rootInode flatStore dev now (g.regionStart .imap) s =
      some (.ok (inodeAt (s.fs.store dev) (g.regionStart .imap)), s) :=
  rootInode_flat h.shaped.rootName

theorem Stored.ofOption_rootBlock (h : Stored g dev row T s.fs) :
    (ofOption (rootBlock dev s.fs) : NameM Disk BlockNo) s = some (.ok (g.regionStart .imap), s) := by
  rw [h.inUse.ok.rootBlock_eq]
  rfl

/-- Where a walk and a directory behind it are. -/
theorem Stored.enterPath_ok (h : Stored g dev row T s.fs) {a : BlockNo × Inode}
    (hrun : enterPath dev p now (g.regionStart .imap) fuel names s = some (.ok a, s')) :
    s' = s ∧ ∃ b ∈ T.nodes, a = found (s.fs.store dev) b ∧
      (inodeAt (s.fs.store dev) b).isDirectory ≠ 0 := by
  have hmore : Call.Mirrors (fun a a' => SameEntry s s dev T.nodes a a' ∧ a.2.isDirectory ≠ 0)
      (enterPath dev p now (g.regionStart .imap) fuel names) s
      (enterPath dev p now (g.regionStart .imap) (fuel + T.maxLength) names) s :=
    h.shows.mirrors_enterPath (le_refl _) names
  obtain ⟨hs, a', -, ⟨b, hb, rfl, -⟩, hdir⟩ := hmore _ _ hrun
  exact ⟨hs, b, hb, rfl, hdir⟩

theorem Stored.mirrors_follow (h : Stored g dev row T s.fs) :
    MirrorsLink s s T.nodes (follow dev p now (g.regionStart .imap) fuel)
      (follow dev p now (g.regionStart .imap) (fuel + T.maxLength)) :=
  h.shows.mirrors_follow (le_refl (fuel + T.maxLength))

theorem Stored.walk_ok (h : Stored g dev row T s.fs) {b : BlockNo}
    (hrun : walk flatStore dev p (follow dev p now (g.regionStart .imap) fuel) fuel names
      (g.regionStart .imap) s = some (.ok b, s')) : s' = s ∧ b ∈ T.nodes := by
  obtain ⟨hs, -, -, hb, -⟩ := h.shows.mirrors_walk h.mirrors_follow
    (Nat.le_add_left T.maxLength fuel) names h.shaped.rootMem _ _ hrun
  exact ⟨hs, hb⟩

theorem Stored.stepDir_ok (h : Stored g dev row T s.fs) {b : BlockNo} (hb : b ∈ T.nodes)
    {a : BlockNo × Inode}
    (hrun : stepDir flatStore dev p (follow dev p now (g.regionStart .imap) fuel) fuel name b s =
      some (.ok a, s')) : s' = s ∧ ∃ c ∈ T.nodes, a = found (s.fs.store dev) c := by
  obtain ⟨hs, -, -, c, hc, hca, -⟩ := h.shows.mirrors_stepDir h.mirrors_follow
    (Nat.le_add_left T.maxLength fuel) name hb _ _ hrun
  exact ⟨hs, c, hc, hca⟩

/-- The way ends at a directory. -/
theorem Stored.enterPath_mem (h : Stored g dev row T s.fs)
    (hin : enterPath dev p now (g.regionStart .imap) fuel names s =
      some (.ok (found (s.fs.store dev) P), s')) :
    P ∈ T.nodes ∧ (inodeAt (s.fs.store dev) P).isDirectory ≠ 0 := by
  obtain ⟨-, b, hb, heq, hdir⟩ := h.enterPath_ok hin
  obtain rfl : P = b := congrArg Prod.fst heq
  exact ⟨hb, hdir⟩

/-- The end of a lookup that follows links leads to the directory that is entered. -/
theorem Stored.finishGet_entered (h : Stored g dev row T s.fs) {b : BlockNo} (hb : b ∈ T.nodes)
    (hrun : enterDir flatStore dev (follow dev p now (g.regionStart .imap) fuel) b s =
      some (.ok (found (s.fs.store dev) P), s)) :
    finishGet flatStore dev p (follow dev p now (g.regionStart .imap) fuel) true .dontCheckPerms
      (inodeAt (s.fs.store dev) b) s = some (.ok (inodeAt (s.fs.store dev) P), s) := by
  have hok := h.shaped.node b hb
  obtain ⟨k, hk⟩ := hok.kind
  have hgrant : ∀ n, inodeCheckPermissions n p .dontCheckPerms := fun n => Or.inl rfl
  rw [enterDir, Call.bind_of_ok (readInode_flat ..)] at hrun
  split at hrun
  · split at hrun
    · -- A symbolic link: the lookup follows it too.
      rename_i hsym
      obtain ⟨c, s₁, hlink, hrun⟩ := Call.bind_eq_ok.mp hrun
      obtain ⟨hc0, hrun⟩ := Call.require_bind_eq_ok.mp hrun
      rw [hok.self] at hlink
      obtain ⟨a, ha, hgo⟩ := h.mirrors_follow b hb _ _ hlink
      cases ha
      obtain ⟨hs₁, hcT, -⟩ := hgo hc0
      rw [hs₁, Call.bind_of_ok (readInode_flat ..)] at hrun
      obtain ⟨hdir, hrun⟩ := Call.require_bind_eq_ok.mp hrun
      obtain rfl : c = P := by
        have hself : (inodeAt (s.fs.store dev) c).self = P :=
          congrArg (fun r => r.1) (Except.ok.inj (congrArg Prod.fst (Option.some.inj hrun)))
        rw [← hself, (h.shaped.node c hcT).self]
      rw [hs₁] at hlink
      rw [finishGet, if_pos ⟨Or.inl hsym, rfl⟩, hok.self, Call.bind_of_ok hlink,
        Call.bind_of_ok (Call.require_of_pos hc0), Call.bind_of_ok (readInode_flat ..)]
      exact Call.bind_of_ok (Call.require_of_pos (hgrant _))
    · -- A directory: there is no link.
      rename_i hcond hsym
      have hdir := hcond.resolve_right hsym
      obtain rfl : b = P := congrArg (fun r => r.1) (Except.ok.inj (congrArg Prod.fst (Option.some.inj hrun)))
      have hnl := (hk.not_link_of_dir hdir).1
      rw [finishGet, if_neg fun hc => hnl hc.1, Call.pure_bind_apply]
      exact Call.bind_of_ok (Call.require_of_pos (hgrant _))
  · cases hrun

/-- **The directory of a creation** is the one that `inode_get` finds under the path without its
last component. -/
theorem CreatesIn.inodeGet_parent
    (hin : CreatesIn dev p now (g.regionStart .imap) fuel cwd path names name P s)
    (h : Stored g dev row T s.fs) {ppath : CStr} (hlen : ppath.length ≤ maxPath)
    (hppath : PathIs dev (g.regionStart .imap) fuel cwd ppath names s) :
    inodeGet flatStore dev p now (fuel + 1) cwd ppath true .dontCheckPerms s =
      some (.ok (inodeAt (s.fs.store dev) P), s) := by
  obtain ⟨abs, habs, hcomp⟩ := hppath
  have hself := (h.shaped.node _ h.shaped.rootMem).self
  rw [inodeGet, Call.get_bind_apply, Call.bind_of_ok h.ofOption_rootBlock]
  refine getFrom_eq_ok.mpr ⟨hlen, abs, _, s, habs, h.rootInode_ok, ?_⟩
  rw [hcomp]
  have hdir := hin.dir
  rcases List.eq_nil_or_concat names with rfl | ⟨init, last, rfl⟩
  · -- The root, which is not a link.
    have hfinish := h.finishGet_entered h.shaped.rootMem hdir
    obtain ⟨k, hk⟩ := (h.shaped.node _ h.shaped.rootMem).kind
    rw [finishGet, if_neg fun hc => (hk.not_link_of_dir h.shaped.rootDir).1 hc.1,
      Call.pure_bind_apply] at hfinish
    exact (Call.require_bind_eq_ok.mp hfinish).2
  · rw [List.concat_eq_append] at hdir ⊢
    rw [getBelow_concat, hself]
    rw [enterPath, walk_concat, Call.bind_assoc] at hdir
    obtain ⟨b, s₁, hwalk, hdir⟩ := Call.bind_eq_ok.mp hdir
    obtain ⟨rfl, hb⟩ := h.walk_ok hwalk
    rw [Call.bind_assoc] at hdir
    obtain ⟨a, s₂, hstep, hdir⟩ := Call.bind_eq_ok.mp hdir
    obtain ⟨rfl, c, hc, rfl⟩ := h.stepDir_ok hb hstep
    exact (Call.bind_of_ok hwalk).trans ((Call.bind_of_ok hstep).trans (h.finishGet_entered hc hdir))

end Parent

/-! ## The creation -/

/-- What a creation that returns has done: it has put `e` into the directory `P`, with the block
maps `ext` added, and made a node there with the link blocks `lnk`. -/
structure CreateRun (g : Shape) (dev : DevNo) (row : Fin inodeNrDev) (T : Tree) (P : BlockNo)
    (k : NodeKind) (name : CStr) (e : BlockNo) (ext lnk : List BlockNo) (d₁ d' : Dev)
    (fs fs' : FsState Disk) : Prop where
  node : g.Covers .imap e
  data : ∀ m ∈ ext ++ lnk, g.Covers .bmap m
  planted : Planted (fs.store dev) P (T.chain P) e ext d₁
  extLength : ext.length = mapsNeeded (fs.store dev) (T.chain P)
  linkLength : lnk.length = k.links
  made : NodeMade e P k name lnk (inodeAt d' e)
  other : ∀ q, q ≠ e → q ∉ lnk → d' q = d₁ q
  progress : Progress g dev row (T.held (fs.store dev)) [e] (ext ++ lnk) fs d' fs'

section Creation
variable {g : Shape} {dev : DevNo} {row : Fin inodeNrDev} {T : Tree} {s s' : Names Disk}
  {p : Cred} {now cwd P : BlockNo} {fuel : ℕ} {path name linkPath : CStr} {names : List CStr}
  {a : NewNode} {k : NodeKind} {u : Unit}

theorem createAt_concat {rl : BlockNo → NameM Disk BlockNo} {get : BlockNo → CStr → NameM Disk Inode}
    {root : BlockNo} {abs c : CStr} (hcomp : components abs = c :: (names ++ [name])) :
    createAt flatStore dev p now root rl get fuel abs linkPath a =
      rootInode flatStore dev now root >>= fun inode =>
        walk flatStore dev p rl fuel names inode.self >>= fun parent =>
          createDirectory flatStore dev p rl fuel name parent >>= fun d =>
            placeEntry flatStore dev fuel d.2 >>= fun block =>
              makeNode flatStore dev get a.mode linkPath
                (newInode now name a.perm a.umask a.group a.owner block d.1) := by
  obtain ⟨x, l, hl⟩ := List.exists_cons_of_ne_nil (List.concat_ne_nil name names)
  have hdrop : (x :: l).dropLast = names := by rw [← hl, List.dropLast_concat]
  have hlast : (x :: l).getLast (List.cons_ne_nil _ _) = name := by
    simp only [← hl, List.getLast_append_singleton]
  rw [createAt, hcomp, hl]
  dsimp only
  rw [hdrop, hlast]

/-- **The directory is searched** before the entry is placed: the caller may change it, and the
name is new. -/
theorem Stored.createDirectory_ok (h : Stored g dev row T s.fs) (hP : P ∈ T.nodes)
    (hdir : (inodeAt (s.fs.store dev) P).isDirectory ≠ 0) {rl : BlockNo → NameM Disk BlockNo}
    {b : BlockNo} {x : BlockNo × Inode}
    (henter : enterDir flatStore dev rl b s = some (.ok (found (s.fs.store dev) P), s))
    (hrun : createDirectory flatStore dev p rl fuel name b s = some (.ok x, s')) :
    s' = s ∧ x = found (s.fs.store dev) P ∧
      inodeCheckPermissions (inodeAt (s.fs.store dev) P) p .rwx ∧
      ∀ y, HasEntry (s.fs.store dev) (T.chain P) y → (inodeAt (s.fs.store dev) y).name ≠ name := by
  have hlinked := (h.shaped.node P hP).linked_dir hdir
  rw [createDirectory, Call.bind_of_ok henter] at hrun
  obtain ⟨hrwx, hrun⟩ := Call.require_bind_eq_ok.mp hrun
  -- In a directory without block maps there is nothing to look for.
  have hsearch : ((namedEntry (s.fs.store dev) (T.chain P) name).map
      (found (s.fs.store dev))).isNone = true ∧
        (readInode flatStore dev P >>= fun dir => pure (P, dir)) s = some (.ok x, s') := by
    by_cases hnext : (found (s.fs.store dev) P).2.next = inodeNull
    · rw [if_pos hnext, Call.pure_bind_apply] at hrun
      obtain ⟨-, hrun⟩ := Call.require_bind_eq_ok.mp hrun
      rw [hlinked.nil_iff.mp hnext]
      exact ⟨rfl, hrun⟩
    · have hms : T.chain P ≠ [] := fun h0 => hnext (hlinked.nil_iff.mpr h0)
      rw [if_neg hnext] at hrun
      obtain ⟨o, s₁, hscan, hrun⟩ := Call.bind_eq_ok.mp hrun
      rcases scanChain_flat name fuel hlinked hms with ⟨hnone, -⟩ | hsome
      · cases hscan.symm.trans hnone
      · cases hscan.symm.trans hsome
        exact Call.require_bind_eq_ok.mp hrun
  obtain ⟨hnone, hrun⟩ := hsearch
  rw [Call.bind_of_ok (readInode_flat ..)] at hrun
  cases hrun
  refine ⟨rfl, rfl, hrwx, fun y hy heq => ?_⟩
  have hfind := ((h.shaped.node P hP).distinct hdir).namedEntry_eq hy
  rw [heq] at hfind
  rw [hfind] at hnone
  cases hnone

/-- What a creation that returns has made of its path. -/
theorem Stored.create_absolute (h : Stored g dev row T s.fs) {u : Unit}
    (hrun : inodeCreate flatStore dev p now fuel cwd path a s = some (.ok u, s')) :
    path.length ≤ maxPath ∧
      ∃ abs, krealpath flatStore dev (g.regionStart .imap) fuel cwd path s = some (.ok abs, s) ∧
        ∃ linkPath, createAt flatStore dev p now (g.regionStart .imap)
          (follow dev p now (g.regionStart .imap) fuel)
          (fun parent linkPath => inodeGet flatStore dev p now fuel parent linkPath false .dontCheckPerms)
          fuel abs linkPath a s = some (.ok u, s') := by
  rw [inodeCreate_eq, Call.get_bind_apply, Call.bind_of_ok h.ofOption_rootBlock, createFrom] at hrun
  obtain ⟨-, hrun⟩ := Call.require_bind_eq_ok.mp hrun
  obtain ⟨hlen, hrun⟩ := Call.require_bind_eq_ok.mp hrun
  obtain ⟨-, hrun⟩ := Call.require_bind_eq_ok.mp hrun
  obtain ⟨abs, s₁, habs, hrun⟩ := Call.bind_eq_ok.mp hrun
  have hs₁ := krealpath_state habs
  rw [hs₁] at habs hrun
  refine ⟨hlen, abs, habs, ?_⟩
  cases hl : a.lpath with
  | none =>
      rw [hl] at hrun
      exact ⟨[], hrun⟩
  | some lpath =>
      rw [hl] at hrun
      obtain ⟨linkPath, s₂, hlink, hrun⟩ := Call.bind_eq_ok.mp hrun
      rw [krealpath_state hlink] at hrun
      exact ⟨linkPath, hrun⟩

/-- **A creation taken apart**: where it goes and what it does there. -/
theorem Stored.create_ok (h : Stored g dev row T s.fs) {abs c : CStr}
    (habs : krealpath flatStore dev (g.regionStart .imap) fuel cwd path s = some (.ok abs, s))
    (hcomp : components abs = c :: (names ++ [name])) (hk : a.mode.kind = some k)
    (hrun : inodeCreate flatStore dev p now fuel cwd path a s = some (.ok u, s')) :
    path.length ≤ maxPath ∧
      ∃ P, enterPath dev p now (g.regionStart .imap) fuel names s =
          some (.ok (found (s.fs.store dev) P), s) ∧
        inodeCheckPermissions (inodeAt (s.fs.store dev) P) p .rwx ∧
        (∀ y, HasEntry (s.fs.store dev) (T.chain P) y → (inodeAt (s.fs.store dev) y).name ≠ name) ∧
        ∃ e ext lnk d₁ d' fs, s' = s.setFs fs ∧
          CreateRun g dev row T P k name e ext lnk d₁ d' s.fs fs := by
  have hrootSelf := (h.shaped.node _ h.shaped.rootMem).self
  have hmem : name ∈ (components abs).tail := by
    rw [hcomp]
    exact List.mem_append_right names (List.mem_singleton_self name)
  have hname := components_fits hmem
  obtain ⟨hlen, abs', habs', linkPath, hat⟩ := h.create_absolute hrun
  cases habs.symm.trans habs'
  rw [createAt_concat hcomp, Call.bind_of_ok h.rootInode_ok, hrootSelf] at hat
  obtain ⟨b, s₁, hwalk, hbelow⟩ := Call.bind_eq_ok.mp hat
  obtain ⟨hs₁, hb⟩ := h.walk_ok hwalk
  rw [hs₁] at hwalk hbelow
  obtain ⟨x, s₂, hcreate, hplace⟩ := Call.bind_eq_ok.mp hbelow
  -- The directory, as `createDirectory` enters it.
  obtain ⟨y, s₃, henter, -⟩ := Call.bind_eq_ok.mp hcreate
  obtain ⟨hs₃, -, -, ⟨P, hP, hy, -⟩, hdir⟩ := h.shows.mirrors_enterDir h.mirrors_follow hb _ _ henter
  rw [hs₃, hy] at henter
  rw [hy] at hdir
  have hin : enterPath dev p now (g.regionStart .imap) fuel names s =
      some (.ok (found (s.fs.store dev) P), s) := (Call.bind_of_ok hwalk).trans henter
  have hok := h.shaped.node P hP
  obtain ⟨hs₂, hx, hrwx, hnew⟩ := h.createDirectory_ok hP hdir henter hcreate
  rw [hs₂, hx] at hplace
  obtain ⟨e, s₄, hplace, hmake⟩ := Call.bind_eq_ok.mp hplace
  obtain ⟨he, ext, d₁, fs, hs₄, hext, hplanted, hextLength, hprog⟩ :=
    placeEntry_ok h.clear h.inUse (fun m hm => h.covers_map hP hm) (h.covers_node hP) hok.self
      (hok.linked_dir hdir) hplace
  rw [hs₄] at hmake
  have hblank : (newInode now name a.perm a.umask a.group a.owner e P).Blank e P name :=
    newInode_blank hname
  obtain ⟨lnk, d', fs', hs', hlnk, hlnkLength, hmade, hother, hprog⟩ :=
    makeNode_ok (s := s.setFs fs) h.clear hprog he hblank hk hmake
  rw [Names.setFs_setFs] at hs'
  refine ⟨hlen, P, hin, hrwx, hnew, e, ext, lnk, d₁, d', fs', hs', he, fun m hm => ?_, hplanted,
    hextLength, hlnkLength, hmade, hother, hprog⟩
  exact (List.mem_append.mp hm).elim (hext m) (hlnk m)

end Creation

end OxKernel.Fs
