import OxKernel.Fs.CreateLaw
import OxKernel.Fs.UnlinkLaw
import OxKernel.Lib.NameTree

/-!
# The name space of a volume

What a user sees of a volume: the kind of what is at each path. It is read off the device by
going from the root through the entries of directories. On a volume that holds a tree in which
every node is below the root, the nodes with their parents and names are a sound tree, and its
name space is that of the volume. A creation then adds a leaf and a removal takes one away.

## Main definitions

* `Lists` — the way from the root to an inode through the directories of a device.
* `volumeSpace` — the name space of a device.
* `Connected` — a volume with a tree in which every node is below the root.
-/
namespace OxKernel.Fs

open Lib (Call NameTree Space)

/-- The kind of an inode. -/
def Inode.kindOf (n : Inode) : NodeKind :=
  if n.isFile ≠ 0 then .file
  else if n.isDirectory ≠ 0 then .dir
  else if n.isSymlink ≠ 0 then .symlink
  else .hardlink

theorem Inode.HasKind.kindOf_eq {n : Inode} {k : NodeKind} (h : n.HasKind k) : n.kindOf = k := by
  obtain ⟨hfile, hdir, hsym, -⟩ := h.eq_zero
  rw [Inode.kindOf]
  cases k with
  | file => rw [if_pos (h.file.mpr rfl)]
  | dir => rw [if_neg (not_not.mpr (hfile (by decide))), if_pos (h.dir.mpr rfl)]
  | symlink =>
      rw [if_neg (not_not.mpr (hfile (by decide))), if_neg (not_not.mpr (hdir (by decide))),
        if_pos (h.symlink.mpr rfl)]
  | hardlink =>
      rw [if_neg (not_not.mpr (hfile (by decide))), if_neg (not_not.mpr (hdir (by decide))),
        if_neg (not_not.mpr (hsym (by decide)))]

section Device
variable (root : BlockNo) (d : Dev)

/-- Each directory on the way from the root lists the next inode. -/
inductive Lists : List CStr → BlockNo → Prop
  | root : Lists [] root
  | entry {names : List CStr} {P e : BlockNo} {ms : List BlockNo} (h : Lists names P)
      (hdir : (inodeAt d P).isDirectory ≠ 0) (hl : Linked d (inodeAt d P).next ms)
      (he : HasEntry d ms e) : Lists (names ++ [(inodeAt d e).name]) e

/-- What is at the paths of a device. -/
noncomputable def volumeSpace : Space CStr NodeKind :=
  Space.of (Lists root d) fun b => (inodeAt d b).kindOf

/-- The nodes of a tree, with the parents and names that the device has for them. -/
def Tree.nameTree (T : Tree) : NameTree BlockNo CStr NodeKind where
  nodes := {b | b ∈ T.nodes}
  root := root
  parent b := (inodeAt d b).parent
  name b := (inodeAt d b).name
  kind b := (inodeAt d b).kindOf

end Device

section Shaped
variable {root : BlockNo} {T : Tree} {d : Dev} {names : List CStr} {b : BlockNo}

/-- A node is a directory if it has the kind of one. -/
theorem NodeOk.kindOf_dir (h : NodeOk root T d b) :
    (inodeAt d b).kindOf = .dir ↔ (inodeAt d b).isDirectory ≠ 0 := by
  obtain ⟨k, hk⟩ := h.kind
  rw [hk.kindOf_eq, hk.dir]

/-- **The entries and the parents agree**: the directories list a node at the path that it
has in the tree. -/
theorem Shaped.lists_iff (h : Shaped root T d) :
    Lists root d names b ↔ (T.nameTree root d).At names b := by
  constructor
  · intro hb
    induction hb with
    | root => exact NameTree.At.root (t := T.nameTree root d)
    | @entry names P e ms hP hdir hl he ih =>
        have hPT : P ∈ T.nodes := ih.mem h.rootMem
        obtain rfl := hl.unique ((h.node P hPT).linked_dir hdir)
        obtain ⟨heT, rfl, hr⟩ := (h.node P hPT).entries hdir e he
        exact NameTree.At.child (t := T.nameTree root d) ih heT hr
  · intro hb
    induction hb with
    | root => exact .root
    | @child names a _ ha hr ih =>
        have hok := h.node a ha
        exact .entry ih hok.parentDir ((h.node _ hok.parent).linked_dir hok.parentDir) (hok.listed hr)

theorem Shaped.volumeSpace_eq (h : Shaped root T d) :
    volumeSpace root d = (T.nameTree root d).space := by
  have hat : Lists root d = (T.nameTree root d).At :=
    funext fun names => funext fun b => propext h.lists_iff
  rw [volumeSpace, hat]
  rfl

/-- A tree in which every node is below the root is sound. -/
theorem Shaped.sound (h : Shaped root T d) (hroot : ∀ b ∈ T.nodes, ∃ names, Lists root d names b) :
    (T.nameTree root d).Sound .dir where
  root_mem := h.rootMem
  root_dir := (h.node root h.rootMem).kindOf_dir.mpr h.rootDir
  parent_mem b hb := (h.node b hb).parent
  parent_dir b hb := (h.node _ (h.node b hb).parent).kindOf_dir.mpr (h.node b hb).parentDir
  distinct a ha b hb har hbr hp hname := by
    have hoka := h.node a ha
    have hdist := (h.node _ hoka.parent).distinct hoka.parentDir
    refine hdist.names a b (hoka.listed har) ?_ hname
    have hlist := (h.node b hb).listed hbr
    rwa [← show (inodeAt d a).parent = (inodeAt d b).parent from hp] at hlist
  rooted b hb := by
    obtain ⟨names, hn⟩ := hroot b hb
    exact ⟨names, h.lists_iff.mp hn⟩

end Shaped

/-- A mounted volume that holds a tree, every node of which is below the root. -/
structure Connected (g : Shape) (dev : DevNo) (row : Fin inodeNrDev) (T : Tree)
    (fs : FsState Disk) : Prop extends Stored g dev row T fs where
  rooted : ∀ b ∈ T.nodes, ∃ names, Lists (g.regionStart .imap) (fs.store dev) names b

section Changes
variable {g : Shape} {dev : DevNo} {row : Fin inodeNrDev} {T T' : Tree} {P e b : BlockNo}
  {ms : List BlockNo} {k : NodeKind} {name : CStr} {fs fs' : FsState Disk}

theorem Connected.sound (h : Connected g dev row T fs) :
    (T.nameTree (g.regionStart .imap) (fs.store dev)).Sound .dir :=
  h.shaped.sound h.rooted

/-- The kind of a node is what lookups see of it. -/
theorem Inode.kindOf_shown {n n' : Inode} (h : n'.shown = n.shown) : n'.kindOf = n.kindOf :=
  Inode.eq_of_shown h Inode.kindOf fun _ => rfl

/-- A creation adds a leaf. -/
theorem Created.adds (hc : Created g dev row T P e ms k name fs fs')
    (hst : Stored g dev row T fs) (hP : P ∈ T.nodes)
    (hdir : (inodeAt (fs.store dev) P).isDirectory ≠ 0) :
    (T.nameTree (g.regionStart .imap) (fs.store dev)).Adds .dir P e name k
      ((T.grow P ms e).nameTree (g.regionStart .imap) (fs'.store dev)) where
  root := rfl
  nodes _ := Finset.mem_insert
  fresh := hc.grown.fresh
  mem := hP
  isDir := (hst.shaped.node P hP).kindOf_dir.mpr hdir
  parent_new := hc.grown.up
  name_new := hc.grown.name
  kind_new := hc.grown.kind.kindOf_eq
  parent _ ha := hc.grown.parent_eq ha
  name _ ha := hc.grown.name_eq ha
  kind _ ha := Inode.kindOf_shown (hc.grown.shown ha)
  new a ha har hap hname := by
    -- The old entry and the new one would have one name in the new directory.
    have hP' : P ∈ (T.grow P ms e).nodes := Finset.mem_insert_of_mem hP
    have ha' : a ∈ (T.grow P ms e).nodes := Finset.mem_insert_of_mem ha
    have hdir' : (inodeAt (fs'.store dev) P).isDirectory ≠ 0 := by
      rw [Inode.eq_of_shown (hc.grown.shown hP) Inode.isDirectory fun _ => rfl]
      exact hdir
    have hentry : HasEntry (fs'.store dev) ((T.grow P ms e).chain P) a :=
      (hc.stored.shaped.hasEntry_iff hP' hdir').mpr ⟨ha', (hc.grown.parent_eq ha).trans hap, har⟩
    have hfound := ((hc.stored.shaped.node P hP').distinct hdir').namedEntry_eq hentry
    rw [(hc.grown.name_eq ha).trans hname, hc.namedEntry_eq hP hdir] at hfound
    exact hc.grown.fresh (Option.some.inj hfound ▸ ha)

theorem Created.connected (hc : Created g dev row T P e ms k name fs fs')
    (h : Connected g dev row T fs) (hP : P ∈ T.nodes)
    (hdir : (inodeAt (fs.store dev) P).isDirectory ≠ 0) :
    Connected g dev row (T.grow P ms e) fs' := by
  refine ⟨hc.stored, fun b hb => ?_⟩
  obtain ⟨names, hn⟩ := ((hc.adds h.toStored hP hdir).sound h.sound).rooted b hb
  exact ⟨names, hc.stored.shaped.lists_iff.mpr hn⟩

/-- **A creation makes one entry** in the name space. -/
theorem Created.makes (hc : Created g dev row T P e ms k name fs fs')
    (h : Connected g dev row T fs) (hP : P ∈ T.nodes)
    (hdir : (inodeAt (fs.store dev) P).isDirectory ≠ 0) :
    ∃ names, Space.Makes .dir (volumeSpace (g.regionStart .imap) (fs.store dev)) names name k
      (volumeSpace (g.regionStart .imap) (fs'.store dev)) := by
  rw [h.shaped.volumeSpace_eq, hc.stored.shaped.volumeSpace_eq]
  obtain ⟨names, -, hmakes⟩ := (hc.adds h.toStored hP hdir).makes h.sound
  exact ⟨names, hmakes⟩

/-- A removal takes a leaf away. -/
theorem Unlinked.removes (hun : Unlinked g dev row T T' P b fs fs') (hb : b ∈ T.nodes)
    (hself : (inodeAt (fs.store dev) b).parent ≠ b) :
    (T.nameTree (g.regionStart .imap) (fs.store dev)).Removes b
      (T'.nameTree (g.regionStart .imap) (fs'.store dev)) := by
  have hmem : ∀ a, a ∈ T'.nodes ↔ a ≠ b ∧ a ∈ T.nodes := by
    intro a
    rw [hun.nodes]
    exact Finset.mem_erase
  have hparent : ∀ a ∈ T'.nodes, (inodeAt (fs'.store dev) a).parent =
      (inodeAt (fs.store dev) a).parent := fun a ha =>
    Inode.eq_of_shown (hun.shown a ha) Inode.parent fun _ => rfl
  refine ⟨rfl, hmem, hb, ?_, fun a ha => ?_, hparent, fun a ha => ?_, fun a ha => ?_⟩
  · exact ((hmem _).mp hun.stored.shaped.rootMem).1.symm
  · by_cases hab : a = b
    · rw [hab]
      exact hself
    · have ha' := (hmem a).mpr ⟨hab, ha⟩
      have hp := (hun.stored.shaped.node a ha').parent
      rw [hparent a ha'] at hp
      exact ((hmem _).mp hp).1
  · exact Inode.eq_of_shown (hun.shown a ha) Inode.name fun _ => rfl
  · exact Inode.kindOf_shown (hun.shown a ha)

theorem Unlinked.connected (hun : Unlinked g dev row T T' P b fs fs')
    (h : Connected g dev row T fs) (hb : b ∈ T.nodes)
    (hself : (inodeAt (fs.store dev) b).parent ≠ b) : Connected g dev row T' fs' := by
  refine ⟨hun.stored, fun a ha => ?_⟩
  obtain ⟨names, hn⟩ := ((hun.removes hb hself).sound h.sound).rooted a ha
  exact ⟨names, hun.stored.shaped.lists_iff.mpr hn⟩

/-- **A removal drops one entry** of the name space. -/
theorem Unlinked.drops (hun : Unlinked g dev row T T' P b fs fs')
    (h : Connected g dev row T fs) (hb : b ∈ T.nodes)
    (hself : (inodeAt (fs.store dev) b).parent ≠ b) :
    ∃ names, Space.Drops (volumeSpace (g.regionStart .imap) (fs.store dev)) names
      (volumeSpace (g.regionStart .imap) (fs'.store dev)) := by
  rw [h.shaped.volumeSpace_eq, hun.stored.shaped.volumeSpace_eq]
  obtain ⟨names, -, hdrops⟩ := (hun.removes hb hself).drops h.sound
  exact ⟨names, hdrops⟩

end Changes

/-! ## Lookups -/

/-- No link is on the way along some components, and every directory on it may be searched. -/
structure Passable (root : BlockNo) (d : Dev) (p : Cred) (names : List CStr) : Prop where
  noLink : ∀ ns b, ns <+: names → ns ≠ names → Lists root d ns b → (inodeAt d b).isSymlink = 0
  search : ∀ ns b, ns <+: names → ns ≠ names → Lists root d ns b → (inodeAt d b).isDirectory ≠ 0 →
    inodeCheckPermissions (inodeAt d b) p .rx

section Lookup
variable {g : Shape} {dev : DevNo} {row : Fin inodeNrDev} {T : Tree} {s : Names Disk} {p : Cred}
  {now cwd P : BlockNo} {fuel : ℕ} {path name : CStr} {names pre : List CStr}
  {rl : BlockNo → NameM Disk BlockNo}

/-- What is below a node is an entry of it. -/
theorem Connected.lists_concat (h : Connected g dev row T s.fs) {b : BlockNo}
    (hP : Lists (g.regionStart .imap) (s.fs.store dev) pre P)
    (hb : Lists (g.regionStart .imap) (s.fs.store dev) (pre ++ [name]) b) :
    (inodeAt (s.fs.store dev) P).isDirectory ≠ 0 ∧ HasEntry (s.fs.store dev) (T.chain P) b ∧
      (inodeAt (s.fs.store dev) b).name = name := by
  obtain ⟨hat, hbT, hbr, hname⟩ := (h.shaped.lists_iff.mp hb).concat
  obtain rfl : (inodeAt (s.fs.store dev) b).parent = P :=
    hat.node_unique h.sound (h.shaped.lists_iff.mp hP)
  have hok := h.shaped.node b hbT
  exact ⟨hok.parentDir, hok.listed hbr, hname⟩

theorem enterDir_dir {b : BlockNo} (hdir : (inodeAt (s.fs.store dev) b).isDirectory ≠ 0)
    (hsym : (inodeAt (s.fs.store dev) b).isSymlink = 0) :
    enterDir flatStore dev rl b s = some (.ok (found (s.fs.store dev) b), s) := by
  rw [enterDir, Call.bind_of_ok (readInode_flat ..), if_pos (Or.inl hdir), if_neg (not_not.mpr hsym)]
  rfl

theorem enterDir_other {b : BlockNo} (hdir : ¬ (inodeAt (s.fs.store dev) b).isDirectory ≠ 0)
    (hsym : (inodeAt (s.fs.store dev) b).isSymlink = 0) :
    enterDir flatStore dev rl b s = some (.error .fail, s) := by
  rw [enterDir, Call.bind_of_ok (readInode_flat ..), if_neg (not_or.mpr ⟨hdir, not_not.mpr hsym⟩)]
  rfl

/-- A name that a directory does not have. -/
theorem Connected.stepDir_missing (h : Connected g dev row T s.fs) (hPT : P ∈ T.nodes)
    (hdir : (inodeAt (s.fs.store dev) P).isDirectory ≠ 0)
    (hsym : (inodeAt (s.fs.store dev) P).isSymlink = 0)
    (hrx : inodeCheckPermissions (inodeAt (s.fs.store dev) P) p .rx) (hfuel : T.maxLength ≤ fuel)
    (hent : namedEntry (s.fs.store dev) (T.chain P) name = none) :
    stepDir flatStore dev p rl fuel name P s = some (.error .fileNotFound, s) := by
  have hlinked := (h.shaped.node P hPT).linked_dir hdir
  rw [stepDir, Call.bind_of_ok (enterDir_dir hdir hsym)]
  refine (Call.bind_of_ok (Call.require_of_pos hrx)).trans ?_
  by_cases hne : (inodeAt (s.fs.store dev) P).next ≠ inodeNull
  · have hchain : T.chain P ≠ [] := fun h0 => hne (hlinked.nil_iff.mpr h0)
    have hscan := (scanChain_flat name fuel hlinked hchain).resolve_left fun hc =>
      absurd hc.2 (Nat.not_lt.mpr ((Tree.length_le hPT).trans hfuel))
    refine (Call.bind_of_ok (Call.require_of_pos hne)).trans ((Call.bind_of_ok hscan).trans ?_)
    rw [hent]
    rfl
  · exact Call.bind_of_error (Call.require_of_neg hne)

/-- **One component** is looked up among the entries. -/
theorem Connected.stepDir_lists (h : Connected g dev row T s.fs)
    (rl : BlockNo → NameM Disk BlockNo) (name : CStr)
    (hP : Lists (g.regionStart .imap) (s.fs.store dev) pre P)
    (hsym : (inodeAt (s.fs.store dev) P).isSymlink = 0)
    (hrx : (inodeAt (s.fs.store dev) P).isDirectory ≠ 0 →
      inodeCheckPermissions (inodeAt (s.fs.store dev) P) p .rx) (hfuel : T.maxLength ≤ fuel) :
    (∃ b, Lists (g.regionStart .imap) (s.fs.store dev) (pre ++ [name]) b ∧
      stepDir flatStore dev p rl fuel name P s = some (.ok (found (s.fs.store dev) b), s)) ∨
    (∀ b, ¬ Lists (g.regionStart .imap) (s.fs.store dev) (pre ++ [name]) b) ∧
      ∃ e, stepDir flatStore dev p rl fuel name P s = some (.error e, s) := by
  have hPT : P ∈ T.nodes := (h.shaped.lists_iff.mp hP).mem h.shaped.rootMem
  by_cases hdir : (inodeAt (s.fs.store dev) P).isDirectory ≠ 0
  · have hlinked := (h.shaped.node P hPT).linked_dir hdir
    cases hent : namedEntry (s.fs.store dev) (T.chain P) name with
    | some e =>
        left
        obtain ⟨hentry, rfl⟩ := namedEntry_some hent
        exact ⟨e, .entry hP hdir hlinked hentry, h.stepDir_dir hPT hdir (hrx hdir) hent
          ((Tree.length_le hPT).trans hfuel) rl⟩
    | none =>
        right
        constructor
        · intro b hb
          obtain ⟨-, hentry, rfl⟩ := h.lists_concat hP hb
          rw [((h.shaped.node P hPT).distinct hdir).namedEntry_eq hentry] at hent
          cases hent
        · exact ⟨.fileNotFound, h.stepDir_missing hPT hdir hsym (hrx hdir) hfuel hent⟩
  · right
    refine ⟨fun b hb => hdir (h.lists_concat hP hb).1, .fail, ?_⟩
    rw [stepDir]
    exact Call.bind_of_error (enterDir_other hdir hsym)

/-- **A walk** ends at the node of its path, or nothing is there. -/
theorem Connected.walk_lists (h : Connected g dev row T s.fs)
    (rl : BlockNo → NameM Disk BlockNo) (hfuel : T.maxLength ≤ fuel)
    (hway : ∀ ns b, ns <+: names → ns ≠ names →
      Lists (g.regionStart .imap) (s.fs.store dev) (pre ++ ns) b →
      (inodeAt (s.fs.store dev) b).isSymlink = 0 ∧ ((inodeAt (s.fs.store dev) b).isDirectory ≠ 0 →
        inodeCheckPermissions (inodeAt (s.fs.store dev) b) p .rx))
    (hP : Lists (g.regionStart .imap) (s.fs.store dev) pre P) :
    (∃ b, Lists (g.regionStart .imap) (s.fs.store dev) (pre ++ names) b ∧
      walk flatStore dev p rl fuel names P s = some (.ok b, s)) ∨
    (∀ b, ¬ Lists (g.regionStart .imap) (s.fs.store dev) (pre ++ names) b) ∧
      ∃ e, walk flatStore dev p rl fuel names P s = some (.error e, s) := by
  induction names generalizing pre P with
  | nil =>
      rw [List.append_nil]
      exact Or.inl ⟨P, hP, rfl⟩
  | cons name names ih =>
      have hsplit : pre ++ name :: names = pre ++ [name] ++ names := by rw [List.append_assoc]; rfl
      have hnil : ([] : List CStr) ≠ name :: names := (List.cons_ne_nil _ _).symm
      obtain ⟨hsym, hrx⟩ := hway [] P List.nil_prefix hnil (by rwa [List.append_nil])
      rw [hsplit, walk]
      rcases h.stepDir_lists rl name hP hsym hrx hfuel with
        ⟨b, hb, hstep⟩ | ⟨hno, e, hstep⟩
      · rw [Call.bind_of_ok hstep]
        refine ih (fun ns c hns hne hc => ?_) hb
        refine hway (name :: ns) c (List.cons_prefix_cons.mpr ⟨rfl, hns⟩) ?_ ?_
        · exact fun heq => hne (List.cons.inj heq).2
        · rwa [show pre ++ name :: ns = pre ++ [name] ++ ns by rw [List.append_assoc]; rfl]
      · right
        refine ⟨fun b hb => ?_, e, Call.bind_of_error hstep⟩
        -- What is further down is below an entry with the name.
        obtain ⟨c, hc⟩ := (h.shaped.lists_iff.mp hb).above
        exact hno c (h.shaped.lists_iff.mpr hc)

/-- A lookup below the root, on a passable way: its end is that of the node it comes to. -/
theorem Connected.getBelow_lists (h : Connected g dev row T s.fs)
    (rl : BlockNo → NameM Disk BlockNo) (doReadlink : Bool) (mode : InodeMode)
    (hfuel : T.maxLength ≤ fuel)
    (hway : Passable (g.regionStart .imap) (s.fs.store dev) p names) :
    (∃ b, Lists (g.regionStart .imap) (s.fs.store dev) names b ∧
      getBelow flatStore dev p rl fuel doReadlink mode ([] :: names)
          (inodeAt (s.fs.store dev) (g.regionStart .imap)) s =
        if names = [] then some (.ok (inodeAt (s.fs.store dev) b), s)
        else finishGet flatStore dev p rl doReadlink mode (inodeAt (s.fs.store dev) b) s) ∨
    (∀ b, ¬ Lists (g.regionStart .imap) (s.fs.store dev) names b) ∧
      ∃ e, getBelow flatStore dev p rl fuel doReadlink mode ([] :: names)
        (inodeAt (s.fs.store dev) (g.regionStart .imap)) s = some (.error e, s) := by
  rcases List.eq_nil_or_concat names with rfl | ⟨init, name, rfl⟩
  · exact Or.inl ⟨_, .root, rfl⟩
  · rw [List.concat_eq_append] at hway ⊢
    have hpre : init <+: init ++ [name] := List.prefix_append init [name]
    have hne : init ≠ init ++ [name] := fun heq => by simpa using congrArg List.length heq
    rw [getBelow_concat, (h.shaped.node _ h.shaped.rootMem).self]
    have hinit : ∀ ns b, ns <+: init → ns ≠ init →
        Lists (g.regionStart .imap) (s.fs.store dev) ([] ++ ns) b →
        (inodeAt (s.fs.store dev) b).isSymlink = 0 ∧ ((inodeAt (s.fs.store dev) b).isDirectory ≠ 0 →
          inodeCheckPermissions (inodeAt (s.fs.store dev) b) p .rx) := by
      intro ns c hns hlt hc
      have hns' := hns.trans hpre
      have hlt' : ns ≠ init ++ [name] := by
        rintro rfl
        exact absurd hns.length_le (by simp)
      exact ⟨hway.noLink ns c hns' hlt' hc, hway.search ns c hns' hlt' hc⟩
    rcases h.walk_lists rl hfuel hinit .root with ⟨P, hP, hwalk⟩ | ⟨hno, e, hwalk⟩
    · rcases h.stepDir_lists rl name hP (hway.noLink init P hpre hne hP)
        (hway.search init P hpre hne hP) hfuel with ⟨b, hb, hstep⟩ | ⟨hno, e, hstep⟩
      · left
        refine ⟨b, hb, (Call.bind_of_ok hwalk).trans ((Call.bind_of_ok hstep).trans ?_)⟩
        rw [if_neg (List.concat_ne_nil name init)]
        rfl
      · exact Or.inr ⟨hno, e, (Call.bind_of_ok hwalk).trans (Call.bind_of_error hstep)⟩
    · right
      refine ⟨fun b hb => ?_, e, Call.bind_of_error hwalk⟩
      obtain ⟨c, hc⟩ := (h.shaped.lists_iff.mp hb).above
      exact hno c (h.shaped.lists_iff.mpr hc)

/-- A node that is no link to be followed is returned to a process that it grants the mode. -/
theorem finishGet_node {n : Inode} {doReadlink : Bool} {mode : InodeMode}
    (hlink : doReadlink = true → n.isSymlink = 0 ∧ n.isHardlink = 0) :
    finishGet flatStore dev p rl doReadlink mode n s =
      some (if inodeCheckPermissions n p mode then .ok n else .error .fail, s) := by
  have hcond : ¬ ((n.isSymlink ≠ 0 ∨ n.isHardlink ≠ 0) ∧ doReadlink = true) := by
    rintro ⟨hkind, hread⟩
    obtain ⟨hsym, hhard⟩ := hlink hread
    exact hkind.elim (fun h0 => h0 hsym) fun h0 => h0 hhard
  rw [finishGet, if_neg hcond, Call.pure_bind_apply]
  refine (Call.require_bind_apply _).trans ?_
  split
  · rfl
  · rfl

/-- **A lookup answers from the name space**: along a way that may be passed it finds the node
of the path, if it is no link to be followed, and returns it if it grants the mode; the mode is
not looked at for the root. Or there is nothing at the path and it fails. -/
theorem inodeGet_answers {doReadlink : Bool} {mode : InodeMode} (h : Connected g dev row T s.fs)
    (hfuel : T.maxLength ≤ fuel) (hlen : path.length ≤ maxPath)
    (hpath : PathIs dev (g.regionStart .imap) fuel cwd path names s)
    (hway : Passable (g.regionStart .imap) (s.fs.store dev) p names)
    (hlink : ∀ b, Lists (g.regionStart .imap) (s.fs.store dev) names b → doReadlink = true →
      (inodeAt (s.fs.store dev) b).isSymlink = 0 ∧ (inodeAt (s.fs.store dev) b).isHardlink = 0) :
    (∃ b, inodeGet flatStore dev p now (fuel + 1) cwd path doReadlink mode s =
        some (if names = [] ∨ inodeCheckPermissions (inodeAt (s.fs.store dev) b) p mode then
          .ok (inodeAt (s.fs.store dev) b) else .error .fail, s) ∧
      Lists (g.regionStart .imap) (s.fs.store dev) names b ∧
      volumeSpace (g.regionStart .imap) (s.fs.store dev) names =
        some (inodeAt (s.fs.store dev) b).kindOf) ∨
    (∃ e, inodeGet flatStore dev p now (fuel + 1) cwd path doReadlink mode s =
        some (.error e, s)) ∧
      volumeSpace (g.regionStart .imap) (s.fs.store dev) names = none := by
  obtain ⟨abs, habs, hcomp⟩ := hpath
  rw [inodeGet, Call.get_bind_apply, Call.bind_of_ok h.ofOption_rootBlock, getFrom_eq,
    Call.bind_of_ok (Call.require_of_pos hlen), Call.bind_of_ok habs,
    Call.bind_of_ok h.rootInode_ok, hcomp, h.shaped.volumeSpace_eq]
  rcases h.getBelow_lists (follow dev p now (g.regionStart .imap) fuel) doReadlink mode hfuel hway
    with ⟨b, hb, hget⟩ | ⟨hno, e, hget⟩
  · refine Or.inl ⟨b, hget.trans ?_, hb, (h.shaped.lists_iff.mp hb).space_eq h.sound⟩
    by_cases hnil : names = []
    · rw [if_pos hnil, if_pos (Or.inl hnil)]
    · rw [if_neg hnil, finishGet_node (hlink b hb)]
      simp only [hnil, false_or]
  · exact Or.inr ⟨⟨e, hget⟩, NameTree.space_eq_none fun b hb => hno b (h.shaped.lists_iff.mpr hb)⟩

end Lookup

/-- The files `a` and `b` of two block maps are below the root. -/
theorem twoMaps_connected : Connected (volumeShape (5242880 / 512)) 0 0 twoTree twoMaps := by
  refine ⟨twoMaps_stored, fun b hb => ?_⟩
  rw [shape_10240.1]
  rcases Finset.mem_insert.mp hb with rfl | hb
  · exact ⟨[], .root⟩
  · have hdir : (inodeAt (twoMaps.store 0) 4100).isDirectory ≠ 0 := twoMaps_kinds.1.dir.mpr rfl
    have hlinked := (twoMaps_shaped.node 4100 (by decide)).linked_dir hdir
    exact ⟨_, .entry .root hdir hlinked (twoMaps_entry.mpr hb)⟩

theorem twoMaps_passable : Passable ((volumeShape (5242880 / 512)).regionStart .imap)
    (twoMaps.store 0) ⟨0, 0⟩ [[97]] := by
  have hroot : ∀ ns b, ns <+: [([97] : CStr)] → ns ≠ [[97]] → Lists
      ((volumeShape (5242880 / 512)).regionStart .imap) (twoMaps.store 0) ns b → b = 4100 := by
    intro ns b hns hne hb
    have hnil : ns = [] := by
      rcases List.prefix_cons_iff.mp hns with h0 | ⟨l, rfl, hl⟩
      · exact h0
      · exact absurd (by rw [List.prefix_nil.mp hl]) hne
    rw [hnil] at hb
    rw [(twoMaps_connected.shaped.lists_iff.mp hb).eq_root]
    exact shape_10240.1
  constructor
  · intro ns b hns hne hb
    rw [hroot ns b hns hne hb]
    exact twoMaps_kinds.1.eq_zero.2.2.1 (by decide)
  · intro ns b hns hne hb _
    rw [hroot ns b hns hne hb, twoMaps_contents.1]
    decide

theorem twoMaps_lists : Lists ((volumeShape (5242880 / 512)).regionStart .imap)
    (twoMaps.store 0) [[97]] 4101 := by
  have hdir : (inodeAt (twoMaps.store 0) 4100).isDirectory ≠ 0 := twoMaps_kinds.1.dir.mpr rfl
  have hlinked := (twoMaps_shaped.node 4100 (by decide)).linked_dir hdir
  have hroot : Lists 4100 (twoMaps.store 0) [] 4100 := .root
  have hmem : (4101 : BlockNo) ∈ ({4101, 4102} : Finset BlockNo) := by decide
  have hentry := hroot.entry hdir hlinked (twoMaps_entry.mpr hmem)
  rw [twoMaps_names.1] at hentry
  rw [shape_10240.1]
  exact hentry

/-- `/a` is a file without permissions. -/
theorem inodeGet_answers_file :
    inodeGet flatStore 0 ⟨0, 0⟩ 0 3 4100 [slash, 97] true .dontCheckPerms ⟨twoMaps, 0⟩ =
        some (.ok (inodeAt (twoMaps.store 0) 4101), ⟨twoMaps, 0⟩) ∧
      inodeGet flatStore 0 ⟨0, 0⟩ 0 3 4100 [slash, 97] true .read ⟨twoMaps, 0⟩ =
        some (.error .fail, ⟨twoMaps, 0⟩) ∧
      volumeSpace 4100 (twoMaps.store 0) [[97]] = some .file := by
  have hst := twoMaps_connected
  have hpath : PathIs 0 ((volumeShape (5242880 / 512)).regionStart .imap) 2 4100 [slash, 97] [[97]]
      ⟨twoMaps, 0⟩ := ⟨_, krealpath_absolute rfl (by decide), by decide +kernel⟩
  have hmem := twoMaps_lists
  have hfile : (inodeAt (twoMaps.store 0) 4101).HasKind .file := twoMaps_kinds.2 4101 (by decide)
  have hunique : ∀ b, Lists ((volumeShape (5242880 / 512)).regionStart .imap) (twoMaps.store 0)
      [[97]] b → b = 4101 := fun b hb =>
    (hst.shaped.lists_iff.mp hb).node_unique hst.sound (hst.shaped.lists_iff.mp hmem)
  have hspace := (hst.shaped.lists_iff.mp hmem).space_eq hst.sound
  rw [← hst.shaped.volumeSpace_eq] at hspace
  have hnode : ∀ b, Lists ((volumeShape (5242880 / 512)).regionStart .imap) (twoMaps.store 0)
      [[97]] b → true = true → (inodeAt (twoMaps.store 0) b).isSymlink = 0 ∧
        (inodeAt (twoMaps.store 0) b).isHardlink = 0 := by
    intro b hb _
    rw [hunique b hb]
    exact ⟨hfile.eq_zero.2.2.1 (by decide), hfile.eq_zero.2.2.2 (by decide)⟩
  have hget : ∀ mode, inodeGet flatStore 0 ⟨0, 0⟩ 0 3 4100 [slash, 97] true mode ⟨twoMaps, 0⟩ =
      some (if inodeCheckPermissions (inodeAt (twoMaps.store 0) 4101) ⟨0, 0⟩ mode then
        .ok (inodeAt (twoMaps.store 0) 4101) else .error .fail, ⟨twoMaps, 0⟩) := by
    intro mode
    rcases @inodeGet_answers _ _ _ _ ⟨twoMaps, 0⟩ ⟨0, 0⟩ 0 _ _ _ _ true mode hst (by decide)
      (by decide) hpath twoMaps_passable hnode with ⟨b, hrun, hb, -⟩ | ⟨-, hnone⟩
    · rw [hunique b hb] at hrun
      simpa using hrun
    · rw [hspace] at hnone
      cases hnone
  have hread : ¬ inodeCheckPermissions (inodeAt (twoMaps.store 0) 4101) ⟨0, 0⟩ .read := by
    rw [twoMaps_contents.2.1]
    decide
  refine ⟨?_, ?_, ?_⟩
  · have hany : inodeCheckPermissions (inodeAt (twoMaps.store 0) 4101) ⟨0, 0⟩ .dontCheckPerms :=
      Or.inl rfl
    rw [hget, if_pos hany]
  · rw [hget, if_neg hread]
  · rw [shape_10240.1] at hspace
    exact hspace.trans (congrArg some hfile.kindOf_eq)

end OxKernel.Fs
