import OxKernel.Fs.LookupRules
import OxKernel.Fs.Node

/-!
# What a lookup finds

Lookups over the flat store. The search of a chain returns the first entry with the name,
and a lookup that succeeds leaves the state as it was.

Two devices can show the same names: `View d d'` says that what a lookup passes on `d` is
there on `d'` as well. A lookup that succeeds on `d` then succeeds on `d'` and ends at the
same block. The nodes may differ in what a lookup does not read, and `d'` may have more
entries. With `d' = d` this says what a successful lookup returns.

## Main definitions

* `namedEntry` — the entry that a search of a chain finds.
* `Inode.shown` — the fields of an inode that a lookup reads.
* `View` — what a device shows, another one shows too.
-/
namespace OxKernel.Fs

open Lib (Call)

/-! ## Searching a chain -/

section Search
variable (d : Dev) (ms : List BlockNo) (name : CStr)

/-- The first entry of a chain with a given name. -/
def namedEntry : Option BlockNo :=
  (dirSlots d ms).find? fun e => e ≠ inodeNull ∧ (inodeAt d e).name = name

/-- An entry with its inode. -/
def found (e : BlockNo) : BlockNo × Inode := (e, inodeAt d e)

variable {d ms} {dev : DevNo} {s : Names Disk}

theorem scanEntries_flat (bmap : BlockMap) (js : List (Fin bmapBlocks)) :
    scanEntries flatStore dev name bmap js s =
      some (.ok (((js.map bmap.blocks).find? fun e =>
        e ≠ inodeNull ∧ (inodeAt (s.fs.store dev) e).name = name).map (found (s.fs.store dev))), s) := by
  induction js with
  | nil => rfl
  | cons j js ih =>
      rw [scanEntries, List.map_cons, List.find?_cons]
      by_cases hnull : bmap.blocks j = inodeNull
      · rw [if_pos hnull, ih]
        simp [hnull]
      · rw [if_neg hnull, Call.bind_of_ok (readInode_flat ..)]
        by_cases hname : (inodeAt (s.fs.store dev) (bmap.blocks j)).name = name
        · rw [if_pos hname]
          simp [hnull, hname, found]
        · rw [if_neg hname, ih]
          simp [hname]

/-- **The search of a chain** finds the first entry with the name, given enough rounds. -/
theorem scanChain_flat {next : BlockNo} (fuel : ℕ) (h : Linked (s.fs.store dev) next ms)
    (hms : ms ≠ []) :
    scanChain flatStore dev name fuel next s = none ∧ fuel < ms.length ∨
      scanChain flatStore dev name fuel next s =
        some (.ok ((namedEntry (s.fs.store dev) ms name).map (found (s.fs.store dev))), s) := by
  induction fuel generalizing next ms with
  | zero =>
      left
      exact ⟨rfl, List.length_pos_iff.mpr hms⟩
  | succ fuel ih =>
      cases ms with
      | nil => exact absurd rfl hms
      | cons m ms =>
          obtain ⟨rfl, -, hrest⟩ := h
          have hfind : namedEntry (s.fs.store dev) (next :: ms) name =
              ((List.ofFn (mapAt (s.fs.store dev) next).blocks).find? fun e =>
                e ≠ inodeNull ∧ (inodeAt (s.fs.store dev) e).name = name).or
                (namedEntry (s.fs.store dev) ms name) := by
            rw [namedEntry, dirSlots_cons, List.find?_append]
            rfl
          rw [scanChain, Call.bind_of_ok (readBmap_flat ..),
            Call.bind_of_ok (scanEntries_flat ..), ← List.ofFn_eq_map, hfind]
          cases hhead : (List.ofFn (mapAt (s.fs.store dev) next).blocks).find? fun e =>
              e ≠ inodeNull ∧ (inodeAt (s.fs.store dev) e).name = name with
          | some e =>
              right
              rfl
          | none =>
              simp only [Option.map_none, Option.none_or]
              by_cases hnext : (mapAt (s.fs.store dev) next).next = inodeNull
              · rw [if_pos hnext]
                rw [hrest.nil_iff.mp hnext]
                right
                rfl
              · rw [if_neg hnext]
                rcases ih hrest (fun h0 => hnext (hrest.nil_iff.mpr h0)) with ⟨hrun, hlt⟩ | hrun
                · left
                  exact ⟨hrun, Nat.succ_lt_succ hlt⟩
                · right
                  exact hrun

end Search

/-! ## Devices that show the same names -/

/-- The fields of an inode that a lookup reads, apart from `next`. -/
def Inode.shown (n : Inode) : Inode :=
  { n with
    createTime := 0, modifiedTime := 0, accessedTime := 0, size := 0, pos := 0, current := 0
    currentParent := 0, iblock := 0, dev := 0, oMode := 0, refcount := 0, next := 0 }

/-- A node that leads to another one by a path. -/
def Inode.IsLink (n : Inode) : Prop := n.isSymlink ≠ 0 ∨ n.isHardlink ≠ 0

instance (n : Inode) : Decidable n.IsLink := inferInstanceAs (Decidable (_ ∨ _))

/-- What `d` shows of the nodes `N`, `d'` shows too, with at most `len` block maps in a
directory. -/
structure View (root : BlockNo) (N : Finset BlockNo) (len : ℕ) (d d' : Dev) : Prop where
  root_mem : root ∈ N
  root_name : (inodeAt d root).name = [slash]
  self : ∀ b ∈ N, (inodeAt d b).self = b
  parent : ∀ b ∈ N, (inodeAt d b).parent ∈ N
  shown : ∀ b ∈ N, (inodeAt d' b).shown = (inodeAt d b).shown
  link : ∀ b ∈ N, (inodeAt d b).IsLink →
    (inodeAt d' b).next = (inodeAt d b).next ∧ d' (inodeAt d b).next = d (inodeAt d b).next
  dir : ∀ b ∈ N, (inodeAt d b).isDirectory ≠ 0 → ∃ ms ms', Linked d (inodeAt d b).next ms ∧
    Linked d' (inodeAt d' b).next ms' ∧ ms'.length ≤ len ∧
    ∀ name e, namedEntry d ms name = some e → e ∈ N ∧ namedEntry d' ms' name = some e

section View
variable {root : BlockNo} {N : Finset BlockNo} {len : ℕ} {d d' : Dev} {b : BlockNo}

/-- Nodes that show the same agree in every field that is shown. -/
theorem Inode.eq_of_shown {α : Type} {n n' : Inode} (h : n'.shown = n.shown) (f : Inode → α)
    (hf : ∀ m : Inode, f m = f m.shown) : f n' = f n := by
  rw [hf n', h, ← hf n]

theorem Inode.shown_next (n : Inode) (b : BlockNo) :
    ({ n with next := b } : Inode).shown = n.shown := rfl

theorem View.name (h : View root N len d d') (hb : b ∈ N) :
    (inodeAt d' b).name = (inodeAt d b).name :=
  Inode.eq_of_shown (h.shown b hb) Inode.name fun _ => rfl

theorem View.parent' (h : View root N len d d') (hb : b ∈ N) :
    (inodeAt d' b).parent = (inodeAt d b).parent :=
  Inode.eq_of_shown (h.shown b hb) Inode.parent fun _ => rfl

theorem View.self' (h : View root N len d d') (hb : b ∈ N) : (inodeAt d' b).self = b :=
  (Inode.eq_of_shown (h.shown b hb) Inode.self fun _ => rfl).trans (h.self b hb)

theorem View.isDirectory (h : View root N len d d') (hb : b ∈ N) :
    (inodeAt d' b).isDirectory = (inodeAt d b).isDirectory :=
  Inode.eq_of_shown (h.shown b hb) Inode.isDirectory fun _ => rfl

theorem View.isSymlink (h : View root N len d d') (hb : b ∈ N) :
    (inodeAt d' b).isSymlink = (inodeAt d b).isSymlink :=
  Inode.eq_of_shown (h.shown b hb) Inode.isSymlink fun _ => rfl

theorem View.isHardlink (h : View root N len d d') (hb : b ∈ N) :
    (inodeAt d' b).isHardlink = (inodeAt d b).isHardlink :=
  Inode.eq_of_shown (h.shown b hb) Inode.isHardlink fun _ => rfl

theorem inodeCheckPermissions_shown {n n' : Inode} (h : n'.shown = n.shown) {p : Cred}
    {mode : InodeMode} : inodeCheckPermissions n' p mode ↔ inodeCheckPermissions n p mode :=
  Iff.of_eq (Inode.eq_of_shown h (fun n => inodeCheckPermissions n p mode) fun _ => rfl)

end View

/-- Two states of which one shows what the other shows. -/
structure Shows (dev : DevNo) (root : BlockNo) (N : Finset BlockNo) (len : ℕ) (s t : Names Disk) :
    Prop extends View root N len (s.fs.store dev) (t.fs.store dev) where
  mounted : rootBlock dev s.fs = some root
  mounted' : rootBlock dev t.fs = some root
  count : t.nrRecursion = s.nrRecursion

section Lookups
variable {dev : DevNo} {root : BlockNo} {N : Finset BlockNo} {len fuel fuel' : ℕ}
  {s t : Names Disk} {p : Cred} {now now' : BlockNo}

/-- The same node on both devices. -/
def SameNode (s t : Names Disk) (dev : DevNo) (N : Finset BlockNo) (n n' : Inode) : Prop :=
  ∃ b ∈ N, n = inodeAt (s.fs.store dev) b ∧ n' = inodeAt (t.fs.store dev) b

/-- The same block with its inode on both devices. -/
def SameEntry (s t : Names Disk) (dev : DevNo) (N : Finset BlockNo) (a a' : BlockNo × Inode) :
    Prop :=
  ∃ b ∈ N, a = found (s.fs.store dev) b ∧ a' = found (t.fs.store dev) b

theorem mirrors_readInode (b : BlockNo) :
    Call.Mirrors (fun n n' => n = inodeAt (s.fs.store dev) b ∧ n' = inodeAt (t.fs.store dev) b)
      (readInode flatStore dev b) s (readInode flatStore dev b) t := by
  intro n s' hn
  cases hn
  exact ⟨rfl, _, rfl, rfl, rfl⟩

theorem mirrors_ofOption {α : Type} (o : Option α) :
    Call.Mirrors Eq (ofOption o) s (ofOption o) t := by
  cases o with
  | none => exact Call.Mirrors.fail
  | some a => exact Call.Mirrors.pure rfl

/-- Directories whose way to the root is the same on both devices. -/
def SameWay (s t : Names Disk) (dev : DevNo) (C : Set BlockNo) : Prop :=
  ∀ b ∈ C, (inodeAt (t.fs.store dev) b).name = (inodeAt (s.fs.store dev) b).name ∧
    (inodeAt (t.fs.store dev) b).parent = (inodeAt (s.fs.store dev) b).parent ∧
    (inodeAt (s.fs.store dev) b).parent ∈ C

theorem SameWay.mirrors_cwdPath {C : Set BlockNo} (h : SameWay s t dev C) (hf : fuel ≤ fuel')
    {dir : BlockNo} (hdir : dir ∈ C) (tmp : CStr) :
    Call.Mirrors Eq (cwdPath flatStore dev root fuel dir tmp) s
      (cwdPath flatStore dev root fuel' dir tmp) t := by
  induction fuel generalizing fuel' dir tmp with
  | zero => exact Call.Mirrors.loop
  | succ fuel ih =>
      obtain ⟨fuel', rfl⟩ : ∃ k, fuel' = k + 1 := ⟨fuel' - 1, by omega⟩
      rw [cwdPath, cwdPath]
      by_cases hroot : dir = root
      · rw [if_pos hroot, if_pos hroot]
        exact Call.Mirrors.pure rfl
      · rw [if_neg hroot, if_neg hroot]
        refine Call.Mirrors.bind (mirrors_readInode dir) fun n n' hn => ?_
        obtain ⟨rfl, rfl⟩ := hn
        obtain ⟨hname, hparent, hmem⟩ := h dir hdir
        rw [hname, hparent]
        refine Call.Mirrors.bind (mirrors_ofOption _) fun a a' ha => ?_
        subst ha
        refine Call.Mirrors.bind (mirrors_ofOption _) fun a' a'' ha => ?_
        subst ha
        exact ih (Nat.le_of_succ_le_succ hf) hmem _

/-- A path becomes the same absolute path on both devices. -/
def SamePath (s t : Names Disk) (dev : DevNo) (root cwd : BlockNo) (path : CStr) : Prop :=
  ∀ fuel fuel', fuel ≤ fuel' → Call.Mirrors Eq (krealpath flatStore dev root fuel cwd path) s
    (krealpath flatStore dev root fuel' cwd path) t

theorem SameWay.samePath {C : Set BlockNo} (h : SameWay s t dev C) {cwd : BlockNo} {path : CStr}
    (hcwd : path.head? = some slash ∨ cwd ∈ C) : SamePath s t dev root cwd path := by
  intro fuel fuel' hf
  rw [krealpath, krealpath]
  have hend : ∀ front : CStr, Call.Mirrors Eq
      (do
        Call.require (front.length + path.length ≤ maxPath) .fail
        pure (normalize (front ++ path)) : NameM Disk CStr) s
      (do
        Call.require (front.length + path.length ≤ maxPath) .fail
        pure (normalize (front ++ path)) : NameM Disk CStr) t :=
    fun front => Call.Mirrors.bind (Call.Mirrors.require id) fun _ _ _ => Call.Mirrors.pure rfl
  by_cases hslash : path.head? = some slash
  · rw [if_pos hslash, if_pos hslash]
    exact hend []
  · rw [if_neg hslash, if_neg hslash]
    have hdir := hcwd.resolve_left hslash
    refine Call.Mirrors.bind (h.mirrors_cwdPath hf hdir []) fun a a' ha => ?_
    subst ha
    refine Call.Mirrors.bind (Call.Mirrors.require id) fun _ _ _ => ?_
    refine Call.Mirrors.bind (mirrors_ofOption _) fun front front' hfront => ?_
    subst hfront
    exact hend front

/-- On one device every path does. -/
theorem samePath_self (s : Names Disk) (cwd : BlockNo) (path : CStr) :
    SamePath s s dev root cwd path := by
  have hway : SameWay s s dev Set.univ := fun b _ => ⟨rfl, rfl, trivial⟩
  exact hway.samePath (Or.inr trivial)

theorem Shows.samePath (h : Shows dev root N len s t) {cwd : BlockNo} {path : CStr}
    (hcwd : path.head? = some slash ∨ cwd ∈ N) : SamePath s t dev root cwd path := by
  have hway : SameWay s t dev N := fun b hb => ⟨h.name hb, h.parent' hb, h.parent b hb⟩
  exact hway.samePath hcwd

theorem Shows.mirrors_rootInode (h : Shows dev root N len s t) :
    Call.Mirrors (SameNode s t dev {root}) (rootInode flatStore dev now root) s
      (rootInode flatStore dev now' root) t := by
  rw [rootInode, rootInode]
  refine Call.Mirrors.bind (mirrors_readInode root) fun n n' hn => ?_
  obtain ⟨rfl, rfl⟩ := hn
  rw [if_pos h.root_name, if_pos ((h.name h.root_mem).trans h.root_name)]
  exact Call.Mirrors.pure ⟨root, Finset.mem_singleton_self _, rfl, rfl⟩

/-- Following a link on both devices, as long as it leads somewhere. -/
def MirrorsLink (s t : Names Disk) (N : Finset BlockNo)
    (readlink readlink' : BlockNo → NameM Disk BlockNo) : Prop :=
  ∀ b ∈ N, ∀ r s', readlink b s = some (r, s') →
    ∃ a, r = .ok a ∧ (a ≠ inodeNull → s' = s ∧ a ∈ N ∧ readlink' b t = some (.ok a, t))

theorem MirrorsLink.bind {α β : Type} {R : α → β → Prop} {b : BlockNo}
    {readlink readlink' : BlockNo → NameM Disk BlockNo} {f : BlockNo → NameM Disk α}
    {g : BlockNo → NameM Disk β} (h : MirrorsLink s t N readlink readlink') (hb : b ∈ N)
    (hf : ∀ a ∈ N, Call.Mirrors R (f a) s (g a) t) :
    Call.Mirrors R
      (readlink b >>= fun a => Call.require (a ≠ inodeNull) .fail >>= fun _ => f a) s
      (readlink' b >>= fun a => Call.require (a ≠ inodeNull) .fail >>= fun _ => g a) t := by
  intro c s'' hrun
  obtain ⟨a, s', hlink, hrest⟩ := Call.bind_eq_ok.mp hrun
  obtain ⟨u, s₁, hreq, hrest⟩ := Call.bind_eq_ok.mp hrest
  obtain ⟨hne, hs₁⟩ := Call.require_eq_ok.mp hreq
  obtain ⟨a', ha', hgo⟩ := h b hb _ _ hlink
  cases ha'
  obtain ⟨hs', ha, hlink'⟩ := hgo hne
  rw [hs₁, hs'] at hrest
  rw [Call.bind_of_ok hlink', Call.bind_of_ok (Call.require_of_pos hne)]
  exact hf a ha c s'' hrest

section Links
variable {readlink readlink' : BlockNo → NameM Disk BlockNo}

theorem Shows.mirrors_enterDir (h : Shows dev root N len s t)
    (hl : MirrorsLink s t N readlink readlink') {b : BlockNo} (hb : b ∈ N) :
    Call.Mirrors (fun a a' => SameEntry s t dev N a a' ∧ a.2.isDirectory ≠ 0)
      (enterDir flatStore dev readlink b) s (enterDir flatStore dev readlink' b) t := by
  rw [enterDir, enterDir]
  refine Call.Mirrors.bind (mirrors_readInode b) fun n n' hn => ?_
  obtain ⟨rfl, rfl⟩ := hn
  rw [h.isDirectory hb, h.isSymlink hb, h.self b hb, h.self' hb]
  by_cases hdir : (inodeAt (s.fs.store dev) b).isDirectory ≠ 0 ∨
      (inodeAt (s.fs.store dev) b).isSymlink ≠ 0
  · rw [if_pos hdir, if_pos hdir]
    by_cases hsym : (inodeAt (s.fs.store dev) b).isSymlink ≠ 0
    · rw [if_pos hsym, if_pos hsym]
      refine hl.bind hb fun a ha => ?_
      refine Call.Mirrors.bind (mirrors_readInode a) fun m m' hm => ?_
      obtain ⟨rfl, rfl⟩ := hm
      rw [h.isDirectory ha, h.self a ha, h.self' ha]
      refine Call.Mirrors.bind (Call.Mirrors.require id) fun _ _ hdir => ?_
      exact Call.Mirrors.pure ⟨⟨a, ha, rfl, rfl⟩, hdir⟩
    · rw [if_neg hsym, if_neg hsym]
      exact Call.Mirrors.pure ⟨⟨b, hb, rfl, rfl⟩, hdir.resolve_right hsym⟩
  · rw [if_neg hdir, if_neg hdir]
    exact Call.Mirrors.fail

theorem Shows.mirrors_stepDir (h : Shows dev root N len s t)
    (hl : MirrorsLink s t N readlink readlink') (hf : len ≤ fuel') (name : CStr) {b : BlockNo}
    (hb : b ∈ N) :
    Call.Mirrors (SameEntry s t dev N) (stepDir flatStore dev p readlink fuel name b) s
      (stepDir flatStore dev p readlink' fuel' name b) t := by
  rw [stepDir, stepDir]
  refine Call.Mirrors.bind (h.mirrors_enterDir hl hb) fun a a' ha => ?_
  obtain ⟨⟨c, hc, rfl, rfl⟩, hdir⟩ := ha
  obtain ⟨ms, ms', hms, hms', hlen, hnamed⟩ := h.dir c hc hdir
  refine Call.Mirrors.bind
    (Call.Mirrors.require (inodeCheckPermissions_shown (h.shown c hc)).mpr) fun _ _ _ => ?_
  -- What the search finds here it finds there, so the chain there is not empty either.
  intro r s' hrun
  obtain ⟨u, s₁, hreq, hrun⟩ := Call.bind_eq_ok.mp hrun
  obtain ⟨hne, hs₁⟩ := Call.require_eq_ok.mp hreq
  obtain ⟨o, s₂, hscan, hrun⟩ := Call.bind_eq_ok.mp hrun
  rw [hs₁] at hscan
  have hms0 : ms ≠ [] := fun h0 => hne (hms.nil_iff.mpr h0)
  rcases scanChain_flat name fuel hms hms0 with ⟨hnone, -⟩ | hsome
  · rw [found, hnone] at hscan
    cases hscan
  · rw [found, hsome] at hscan
    cases hscan
    cases hent : namedEntry (s.fs.store dev) ms name with
    | none =>
        rw [hent] at hrun
        cases hrun
    | some e =>
        rw [hent] at hrun
        cases hrun
        obtain ⟨he, hent'⟩ := hnamed name e hent
        have hms0' : ms' ≠ [] := by
          rintro rfl
          cases hent'
        have hne' : (found (t.fs.store dev) c).2.next ≠ inodeNull := hms'.head_ne hms0'
        refine ⟨rfl, found (t.fs.store dev) e, ?_, e, he, rfl, rfl⟩
        rw [Call.bind_of_ok (Call.require_of_pos hne')]
        rcases scanChain_flat name fuel' hms' hms0' with ⟨-, hlt⟩ | hsome'
        · omega
        · refine (Call.bind_of_ok hsome').trans ?_
          rw [hent']
          rfl

theorem Shows.mirrors_walk (h : Shows dev root N len s t)
    (hl : MirrorsLink s t N readlink readlink') (hf : len ≤ fuel') (names : List CStr)
    {b : BlockNo} (hb : b ∈ N) :
    Call.Mirrors (fun a a' => a ∈ N ∧ a' = a) (walk flatStore dev p readlink fuel names b) s
      (walk flatStore dev p readlink' fuel' names b) t := by
  induction names generalizing b with
  | nil => exact Call.Mirrors.pure ⟨hb, rfl⟩
  | cons name names ih =>
      rw [walk, walk]
      refine Call.Mirrors.bind (h.mirrors_stepDir hl hf name hb) fun a a' ha => ?_
      obtain ⟨c, hc, rfl, rfl⟩ := ha
      exact ih hc

theorem Shows.mirrors_finishGet (h : Shows dev root N len s t)
    (hl : MirrorsLink s t N readlink readlink') (doReadlink : Bool) (mode : InodeMode)
    {n n' : Inode} (hn : SameNode s t dev N n n') :
    Call.Mirrors (SameNode s t dev N) (finishGet flatStore dev p readlink doReadlink mode n) s
      (finishGet flatStore dev p readlink' doReadlink mode n') t := by
  obtain ⟨b, hb, rfl, rfl⟩ := hn
  have hend : ∀ c ∈ N, Call.Mirrors (SameNode s t dev N)
      (do
        Call.require (inodeCheckPermissions (inodeAt (s.fs.store dev) c) p mode) .fail
        pure (inodeAt (s.fs.store dev) c) : NameM Disk Inode) s
      (do
        Call.require (inodeCheckPermissions (inodeAt (t.fs.store dev) c) p mode) .fail
        pure (inodeAt (t.fs.store dev) c) : NameM Disk Inode) t := by
    intro c hc
    refine Call.Mirrors.bind
      (Call.Mirrors.require (inodeCheckPermissions_shown (h.shown c hc)).mpr) fun _ _ _ => ?_
    exact Call.Mirrors.pure ⟨c, hc, rfl, rfl⟩
  rw [finishGet, finishGet, h.isSymlink hb, h.isHardlink hb, h.self b hb, h.self' hb]
  by_cases hlink : ((inodeAt (s.fs.store dev) b).isSymlink ≠ 0 ∨
      (inodeAt (s.fs.store dev) b).isHardlink ≠ 0) ∧ doReadlink
  · rw [if_pos hlink, if_pos hlink]
    refine hl.bind hb fun a ha => ?_
    refine Call.Mirrors.bind (mirrors_readInode a) fun m m' hm => ?_
    obtain ⟨rfl, rfl⟩ := hm
    exact hend a ha
  · rw [if_neg hlink, if_neg hlink]
    exact hend b hb

end Links

/-- The state inside a link. -/
def Names.deeper (s : Names Disk) : Names Disk := { s with nrRecursion := s.nrRecursion + 1 }

theorem Shows.deeper (h : Shows dev root N len s t) : Shows dev root N len s.deeper t.deeper where
  toView := h.toView
  mounted := h.mounted
  mounted' := h.mounted'
  count := congrArg (· + 1) h.count

theorem Shows.mirrors_linkTarget (h : Shows dev root N len s t) (hf : fuel ≤ fuel')
    {get get' : BlockNo → CStr → NameM Disk Inode}
    (hget : ∀ b ∈ N, ∀ path, Call.Mirrors (SameNode s t dev N) (get b path) s (get' b path) t)
    {b : BlockNo} (hb : b ∈ N) :
    Call.Mirrors (SameNode s t dev N) (linkTarget flatStore dev root fuel get b) s
      (linkTarget flatStore dev root fuel' get' b) t := by
  rw [linkTarget, linkTarget]
  refine Call.Mirrors.bind (mirrors_readInode b) fun n n' hn => ?_
  obtain ⟨rfl, rfl⟩ := hn
  rw [h.isSymlink hb, h.isHardlink hb]
  refine Call.Mirrors.bind (Call.Mirrors.require id) fun _ _ hlink => ?_
  obtain ⟨hnext, hsec⟩ := h.link b hb hlink
  have hread : Call.Mirrors Eq
      (readLink flatStore dev (inodeAt (s.fs.store dev) b).next) s
      (readLink flatStore dev (inodeAt (t.fs.store dev) b).next) t := by
    intro l s₁ hl
    cases hl
    refine ⟨rfl, _, rfl, ?_⟩
    rw [hnext, hsec]
  refine Call.Mirrors.bind hread fun l l' hl => ?_
  subst hl
  refine Call.Mirrors.bind (h.samePath (Or.inr hb) _ _ hf) fun _ _ _ => ?_
  exact hget b hb _

/-- **`kreadlink`** leads to the same node, if the lookup that it makes does. -/
theorem Shows.mirrors_kreadlink (h : Shows dev root N len s t) (hf : fuel ≤ fuel')
    {get get' : BlockNo → CStr → NameM Disk Inode}
    (hget : ∀ b ∈ N, ∀ path, Call.Mirrors (SameNode s.deeper t.deeper dev N) (get b path) s.deeper
      (get' b path) t.deeper) :
    MirrorsLink s t N (kreadlink flatStore dev root fuel get)
      (kreadlink flatStore dev root fuel' get') := by
  intro b hb r s' hrun
  have hcount : ∀ u : Names Disk, { u.deeper with nrRecursion := u.deeper.nrRecursion - 1 } = u := by
    intro u
    have hback : u.nrRecursion + 1 - 1 = u.nrRecursion := Int32.add_sub_cancel _ _
    rw [Names.deeper]
    simp only [hback]
  rw [kreadlink, Call.modify_bind_apply, Call.get_bind_apply] at hrun
  by_cases hmax : maxRecursion < s.nrRecursion + 1
  · rw [if_pos hmax] at hrun
    cases hrun
    exact ⟨inodeNull, rfl, fun h0 => absurd rfl h0⟩
  · rw [if_neg hmax] at hrun
    obtain ⟨a, rfl, hinner⟩ := Call.recover_eq_some hrun
    refine ⟨a, rfl, fun hne => ?_⟩
    -- Up to the lookup nothing changes; then the counter goes back.
    obtain ⟨n, s₁, hlook, hend⟩ := Call.bind_eq_ok.mp (hinner hne)
    obtain ⟨hs₁, n', hlook', c, hc, hn, hn'⟩ :=
      h.deeper.mirrors_linkTarget hf hget hb n s₁ hlook
    rw [hs₁] at hend
    cases hend
    have hself : n.self = c := by
      rw [hn]
      exact h.self c hc
    have hself' : n'.self = c := by
      rw [hn']
      exact h.self' hc
    have hmax' : ¬ maxRecursion < t.nrRecursion + 1 := by
      rw [h.count]
      exact hmax
    refine ⟨hcount s, ?_, ?_⟩
    · rw [hself]
      exact hc
    · rw [kreadlink, Call.modify_bind_apply, Call.get_bind_apply, if_neg hmax']
      refine Call.recover_of_ok ((Call.bind_of_ok hlook').trans ?_)
      rw [Call.modify_bind_apply, hself, hself', hcount t]
      rfl

theorem Shows.mirrors_getFrom (h : Shows dev root N len s t)
    {readlink readlink' : BlockNo → NameM Disk BlockNo}
    (hl : MirrorsLink s t N readlink readlink') (hf : fuel + len ≤ fuel') {cwd : BlockNo}
    {path : CStr} (hpath : SamePath s t dev root cwd path) (doReadlink : Bool) (mode : InodeMode) :
    Call.Mirrors (SameNode s t dev N)
      (getFrom flatStore dev p now root readlink fuel cwd path doReadlink mode) s
      (getFrom flatStore dev p now' root readlink' fuel' cwd path doReadlink mode) t := by
  rw [getFrom, getFrom]
  refine Call.Mirrors.bind (Call.Mirrors.require id) fun _ _ _ => ?_
  refine Call.Mirrors.bind (hpath _ _ (by omega)) fun path path' hpath => ?_
  subst hpath
  refine Call.Mirrors.bind h.mirrors_rootInode fun n n' hn => ?_
  obtain ⟨b, hb, rfl, rfl⟩ := hn
  obtain rfl := Finset.mem_singleton.mp hb
  rw [h.self b h.root_mem, h.self' h.root_mem]
  split
  · exact Call.Mirrors.fail
  · split
    · exact Call.Mirrors.pure ⟨b, h.root_mem, rfl, rfl⟩
    · exact Call.Mirrors.fail
  · refine Call.Mirrors.bind (h.mirrors_walk hl (by omega) _ h.root_mem) fun c c' hc => ?_
    obtain ⟨hc, rfl⟩ := hc
    refine Call.Mirrors.bind (h.mirrors_stepDir hl (by omega) _ hc) fun e e' he => ?_
    obtain ⟨a, ha, rfl, rfl⟩ := he
    exact h.mirrors_finishGet hl doReadlink mode ⟨a, ha, rfl, rfl⟩

/-- **A lookup that succeeds** leaves the state alone, and where the same is shown it ends at
the same node, at any time. -/
theorem Shows.mirrors_inodeGet (h : Shows dev root N len s t) (hf : fuel + len ≤ fuel')
    {cwd : BlockNo} {path : CStr} (hpath : SamePath s t dev root cwd path) (doReadlink : Bool)
    (mode : InodeMode) :
    Call.Mirrors (SameNode s t dev N) (inodeGet flatStore dev p now fuel cwd path doReadlink mode) s
      (inodeGet flatStore dev p now' fuel' cwd path doReadlink mode) t := by
  induction fuel generalizing s t fuel' cwd path doReadlink mode with
  | zero => exact Call.Mirrors.loop
  | succ fuel ih =>
      obtain ⟨fuel', rfl⟩ : ∃ k, fuel' = k + 1 := ⟨fuel' - 1, by omega⟩
      have hle : fuel + len ≤ fuel' := by omega
      have hget : ∀ b ∈ N, ∀ path, Call.Mirrors (SameNode s.deeper t.deeper dev N)
          (inodeGet flatStore dev p now fuel b path true .dontCheckPerms) s.deeper
          (inodeGet flatStore dev p now' fuel' b path true .dontCheckPerms) t.deeper :=
        fun b hb path => ih h.deeper hle (h.deeper.samePath (Or.inr hb)) true .dontCheckPerms
      have hl := h.mirrors_kreadlink (Nat.le_of_add_right_le hle) hget
      intro n s' hrun
      rw [inodeGet, Call.get_bind_apply, h.mounted] at hrun
      rw [inodeGet, Call.get_bind_apply, h.mounted']
      exact h.mirrors_getFrom hl hle hpath doReadlink mode n s' hrun

end Lookups

/-! ## Lookups that fail -/

section Frame
variable {dev : DevNo} {root : BlockNo} {I : FsState Disk → Prop} {fs : FsState Disk} {p : Cred}
  {now : BlockNo}

/-- A path function that keeps a condition on the file system. -/
def KeepsOn {α : Type} (I : FsState Disk → Prop) (x : NameM Disk α) : Prop :=
  Call.Keeps (fun s => I s.fs) x

/-- A path function that does not change the file system. -/
def KeepsFs {α : Type} (fs : FsState Disk) (x : NameM Disk α) : Prop := KeepsOn (· = fs) x

theorem keepsFs_rootInode (hroot : (inodeAt (fs.store dev) root).name = [slash]) :
    KeepsFs fs (rootInode flatStore dev now root) := by
  intro s hs
  rw [rootInode, Call.bind_of_ok (readInode_flat ..), hs, if_pos hroot]
  exact Call.Keeps.pure _ s hs

/-- The condition holds after a step if it holds before it. -/
def Carries (I : FsState Disk → Prop) (s s' : Names Disk) : Prop := I s.fs → I s'.fs

instance : Std.Refl (Carries I) := ⟨fun _ h => h⟩

instance : IsTrans (Names Disk) (Carries I) := ⟨fun _ _ _ h h' hs => h' (h hs)⟩

theorem within_carries_iff {α : Type} {x : NameM Disk α} :
    Call.Within (Carries I) x x ↔ KeepsOn I x := by
  constructor
  · intro h s hs
    exact ⟨fun _ _ hx => (h _ _ _ hx).2 hs, fun _ _ hx => (h _ _ _ hx).2 hs⟩
  · intro h s r s' hx
    exact ⟨hx, fun hs => Call.Keeps.after h hs hx⟩

theorem carries_readSector (b : BlockNo) :
    Call.Within (Carries I) (readSector flatStore dev b) (readSector flatStore dev b) := by
  intro s r s' h
  cases h
  exact ⟨rfl, id⟩

/-- **A lookup keeps a condition on the file system** that the making of the root keeps. -/
theorem keepsOn_inodeGet (hmount : ∀ fs, I fs → rootBlock dev fs = some root)
    (hroot : KeepsOn I (rootInode flatStore dev now root)) (fuel : ℕ) (cwd : BlockNo) (path : CStr)
    (doReadlink : Bool) (mode : InodeMode) :
    KeepsOn I (inodeGet flatStore dev p now fuel cwd path doReadlink mode) := by
  induction fuel generalizing cwd path doReadlink mode with
  | zero => exact Call.Keeps.loop
  | succ fuel ih =>
      have hget : ∀ b path, Call.Within (Carries I)
          (inodeGet flatStore dev p now fuel b path true .dontCheckPerms)
          (inodeGet flatStore dev p now fuel b path true .dontCheckPerms) :=
        fun b path => within_carries_iff.mpr (ih b path true .dontCheckPerms)
      intro s hs
      rw [inodeGet, Call.get_bind_apply, hmount s.fs hs]
      refine within_carries_iff.mp ?_ s hs
      exact within_getFrom carries_readSector (le_refl _)
        (within_kreadlink carries_readSector (le_refl _) (fun _ _ h => h) hget)
        (within_carries_iff.mpr hroot) cwd path doReadlink mode

/-- **A lookup keeps the file system**, whether it succeeds or not, once there is a root. -/
theorem keepsFs_inodeGet (hmount : rootBlock dev fs = some root)
    (hroot : (inodeAt (fs.store dev) root).name = [slash]) (fuel : ℕ) (cwd : BlockNo) (path : CStr)
    (doReadlink : Bool) (mode : InodeMode) :
    KeepsFs fs (inodeGet flatStore dev p now fuel cwd path doReadlink mode) :=
  keepsOn_inodeGet (fun _ h => h ▸ hmount) (keepsFs_rootInode hroot) fuel cwd path doReadlink mode

end Frame

/-! ## Absolute paths -/

section Absolute
variable {dev : DevNo} {root : BlockNo} {s : Names Disk} {p : Cred} {now cwd : BlockNo} {fuel : ℕ}

theorem krealpath_absolute {path : CStr} (hslash : path.head? = some slash)
    (hlen : path.length ≤ maxPath) :
    krealpath flatStore dev root fuel cwd path s = some (.ok (normalize path), s) := by
  have hfit : ([] : CStr).length + path.length ≤ maxPath := by
    rw [List.length_nil, Nat.zero_add]
    exact hlen
  rw [krealpath, if_pos hslash]
  exact Call.bind_of_ok (Call.require_of_pos hfit)

theorem rootInode_flat (hroot : (inodeAt (s.fs.store dev) root).name = [slash]) :
    rootInode flatStore dev now root s = some (.ok (inodeAt (s.fs.store dev) root), s) := by
  rw [rootInode, Call.bind_of_ok (readInode_flat ..), if_pos hroot]
  rfl

/-- The root itself. -/
theorem getFrom_root (hroot : (inodeAt (s.fs.store dev) root).name = [slash])
    (rl : BlockNo → NameM Disk BlockNo) (doReadlink : Bool) (mode : InodeMode) :
    getFrom flatStore dev p now root rl fuel cwd [slash] doReadlink mode s =
      some (.ok (inodeAt (s.fs.store dev) root), s) := by
  have hcomp : components (normalize [slash]) = [[]] := by decide +kernel
  have hlen : ([slash] : CStr).length ≤ maxPath := by decide
  rw [getFrom, Call.bind_of_ok (Call.require_of_pos hlen),
    Call.bind_of_ok (krealpath_absolute rfl hlen), Call.bind_of_ok (rootInode_flat hroot), hcomp]
  rfl

theorem inodeGet_root (hmount : rootBlock dev s.fs = some root)
    (hroot : (inodeAt (s.fs.store dev) root).name = [slash]) (doReadlink : Bool) (mode : InodeMode) :
    inodeGet flatStore dev p now (fuel + 1) cwd [slash] doReadlink mode s =
      some (.ok (inodeAt (s.fs.store dev) root), s) := by
  have hmounted : (ofOption (some root) : NameM Disk BlockNo) s = some (.ok root, s) := rfl
  rw [inodeGet, Call.get_bind_apply, hmount, Call.bind_of_ok hmounted]
  exact getFrom_root hroot _ doReadlink mode

/-- A path that is made absolute as a name without a slash is not found. -/
theorem inodeGet_lone (hmount : rootBlock dev s.fs = some root)
    (hroot : (inodeAt (s.fs.store dev) root).name = [slash]) {path c : CStr}
    (hslash : path.head? = some slash) (hlen : path.length ≤ maxPath)
    (hcomp : components (normalize path) = [c]) (hc : c ≠ []) (doReadlink : Bool) (mode : InodeMode) :
    inodeGet flatStore dev p now (fuel + 1) cwd path doReadlink mode s = some (.error .fail, s) := by
  have hmounted : (ofOption (some root) : NameM Disk BlockNo) s = some (.ok root, s) := rfl
  rw [inodeGet, Call.get_bind_apply, hmount, Call.bind_of_ok hmounted, getFrom,
    Call.bind_of_ok (Call.require_of_pos hlen), Call.bind_of_ok (krealpath_absolute hslash hlen),
    Call.bind_of_ok (rootInode_flat hroot), hcomp]
  dsimp only
  rw [if_neg hc]
  rfl

end Absolute

end OxKernel.Fs
