import OxKernel.Fs.Cycles
import OxKernel.Fs.NameSpace

/-!
# Links that lead around

On a volume that holds a tree, the paths stored in symbolic links say which link needs which:
a link whose path ends at another link needs that one. So a ring of links, each with the path
of the next, is a cycle, and no path that leads to one of them is found.

## Main definitions

* `PathEnds` — a path from the root that ends at a node, with no link before its last component.
* `TargetsLink` — a link with the path of another one.

## Main results

* `TargetsLink.needsLink` — such a link needs the other one.
* `ring_not_found` — a lookup of a link on a ring fails.
-/
namespace OxKernel.Fs

open Lib (Call)

section Targets
variable (root : BlockNo) (d : Dev) (p : Cred)

/-- A path from the root ends at a node, and nothing on the way stops a lookup. -/
structure PathEnds (path : CStr) (names : List CStr) (b : BlockNo) : Prop where
  slash : path.head? = some slash
  length : path.length ≤ maxPath
  comps : components (normalize path) = [] :: names
  passable : Passable root d p names
  lists : Lists root d names b

/-- The link `b` has the path of the symbolic link `c`. -/
def TargetsLink (b c : BlockNo) : Prop :=
  (inodeAt d c).isSymlink ≠ 0 ∧ ∃ names, PathEnds root d p (linkAt d (inodeAt d b).next) names c

end Targets

section Volume
variable {g : Shape} {dev : DevNo} {row : Fin inodeNrDev} {T : Tree} {p : Cred} {now cwd : BlockNo}
  {b c : BlockNo} {path : CStr} {names : List CStr}

/-- The end of a lookup at a symbolic link that leads nowhere. -/
theorem finishGet_avoid {s : Names Disk} {rl : BlockNo → NameM Disk BlockNo} {n : Inode}
    (hself : n.self = c) (hsym : n.isSymlink ≠ 0) (mode : InodeMode) :
    finishGet flatStore dev p (avoidLink c rl) true mode n s = some (.error .fail, s) := by
  have hcond : (n.isSymlink ≠ 0 ∨ n.isHardlink ≠ 0) ∧ true = true := ⟨Or.inl hsym, rfl⟩
  rw [finishGet, if_pos hcond, avoidLink, if_pos hself, Call.pure_bind_apply]
  exact Call.bind_of_error (Call.require_of_neg fun h => h rfl)

/-- **A path that ends at a link** needs it. -/
theorem Connected.pathNeedsLink {s : Names Disk} (h : Connected g dev row T s.fs)
    (hpath : PathEnds (g.regionStart .imap) (s.fs.store dev) p path names c)
    (hsym : (inodeAt (s.fs.store dev) c).isSymlink ≠ 0) (mode : InodeMode) :
    PathNeedsLink dev p now s cwd path true mode c := by
  intro fuel n s' hrun
  cases fuel with
  | zero => cases hrun
  | succ fuel =>
      have hc := h.shaped.lists_iff.mp hpath.lists
      have hself := (h.shaped.node c (hc.mem h.shaped.rootMem)).self
      -- The root is a directory, and so no link.
      have hnil : names ≠ [] := by
        rintro rfl
        rw [hc.eq_root] at hsym
        obtain ⟨k, hkind⟩ := (h.shaped.node _ h.shaped.rootMem).kind
        obtain rfl := hkind.dir.mp h.shaped.rootDir
        exact hsym (hkind.eq_zero.2.2.1 (by decide))
      rw [inodeGetAvoid, Call.get_bind_apply, Call.bind_of_ok h.ofOption_rootBlock] at hrun
      -- More rounds, so that the searches of the directories end.
      obtain ⟨hmore, -⟩ := within_getFrom (fun b => within_anyStates _)
        (Nat.le_add_right fuel T.maxLength) (fun b => within_anyStates _) (within_anyStates _)
        _ _ _ _ _ _ _ hrun
      rw [getFrom_eq, Call.bind_of_ok (Call.require_of_pos hpath.length),
        Call.bind_of_ok (krealpath_absolute hpath.slash hpath.length),
        Call.bind_of_ok h.rootInode_ok, hpath.comps] at hmore
      rcases h.getBelow_lists (avoidLink c (kreadlink flatStore dev (g.regionStart .imap) fuel
          fun cwd path => inodeGetAvoid flatStore dev c p now fuel cwd path true .dontCheckPerms))
        true mode (Nat.le_add_left T.maxLength fuel) hpath.passable with ⟨b, hb, hget⟩ | ⟨hno, -⟩
      · obtain rfl : b = c := (h.shaped.lists_iff.mp hb).node_unique h.sound hc
        rw [if_neg hnil, finishGet_avoid hself hsym mode] at hget
        rw [hget] at hmore
        cases hmore
      · exact hno c hpath.lists

/-- **A link with the path of another one** needs it. -/
theorem TargetsLink.needsLink {fs : FsState Disk} (h : Connected g dev row T fs)
    (ht : TargetsLink (g.regionStart .imap) (fs.store dev) p b c) : NeedsLink dev p now fs b c := by
  obtain ⟨hsym, names, hpath⟩ := ht
  refine NeedsLink.of_target ?_
  rintro s rfl
  exact h.pathNeedsLink hpath hsym .dontCheckPerms

/-- A ring of links is a cycle. -/
theorem onCycle_of_ring {fs : FsState Disk} (h : Connected g dev row T fs)
    (hring : Relation.TransGen (TargetsLink (g.regionStart .imap) (fs.store dev) p) b b) :
    OnCycle dev p now fs b :=
  hring.lift id fun _ _ ht => ht.needsLink h

/-- **A link on a ring is not found**, whatever path leads to it. -/
theorem ring_not_found {s s' : Names Disk} (h : Connected g dev row T s.fs)
    (hring : Relation.TransGen (TargetsLink (g.regionStart .imap) (s.fs.store dev) p) b b)
    (hpath : PathEnds (g.regionStart .imap) (s.fs.store dev) p path names b)
    (hsym : (inodeAt (s.fs.store dev) b).isSymlink ≠ 0) (fuel : ℕ) (mode : InodeMode) (n : Inode) :
    inodeGet flatStore dev p now fuel cwd path true mode s ≠ some (.ok n, s') := by
  have hrooted : rootedFs dev now s = s.fs := by
    rw [rootedFs, h.inUse.ok.rootBlock_eq]
    dsimp only
    rw [h.rootInode_ok]
  refine OnCycle.not_ok ?_ (h.pathNeedsLink hpath hsym mode)
  rw [hrooted]
  exact onCycle_of_ring h hring

end Volume

end OxKernel.Fs
