import OxKernel.Fs.FileOpen
import OxKernel.Fs.Leaves
import OxKernel.Fs.Cycles

/-!
# The current directory

`kchdir` stores the inode block of a directory in the process and `kgetcwd` makes a path from
it: the name in the inode, made absolute as if its directory were the root. So the path leads
back to the directory only when that is the root, an entry of the root, or what a link of that
name in the root leads to.

## Main definitions

* `kchdir`, `kgetcwd`, `currentDirName` — the calls.
* `AbsPath` — the path from the root to a node.
* `CwdResolves` — the path of `kgetcwd` leads to the current directory.
* `LinkedFromRoot` — the root has a link with the name of the directory which leads to it.
* `nestedVolume` — a volume with a directory in a directory.
-/
namespace OxKernel.Fs

open Lib (Call)

/-- A name that stands for itself in a path. -/
structure CStr.Component (c : CStr) : Prop where
  ne_nil : c ≠ []
  nonzero : ∀ x ∈ c, x ≠ 0
  noSlash : slash ∉ c
  ne_dot : c ≠ [dot]
  ne_dots : c ≠ [dot, dot]

/-- Such a name with room for a slash and the end of the string. -/
structure CStr.Plain (c : CStr) : Prop extends CStr.Component c where
  length : c.length + 1 < maxPath

section Plain
variable {c : CStr}

/-- The buffer after the leading slash has been cut off. -/
def nameBuffer (c : CStr) : Buffer := Function.update (pathBuffer (slash :: c)) 0 0

theorem nameBuffer_succ (i : ℕ) : nameBuffer c (i + 1) = c.getD i 0 := by
  rw [nameBuffer, Function.update_of_ne (Nat.succ_ne_zero i), pathBuffer, List.getD_cons_succ]

theorem nameBuffer_end {i : ℕ} (h : c.length < i) : nameBuffer c i = 0 := by
  obtain ⟨i, rfl⟩ : ∃ j, i = j + 1 := ⟨i - 1, by omega⟩
  rw [nameBuffer_succ, List.getD_eq_default _ _ (by omega)]

theorem CStr.Plain.no_slash (h : c.Plain) (i : ℕ) : nameBuffer c i ≠ slash := by
  intro hi
  cases i with
  | zero =>
      rw [nameBuffer, Function.update_self] at hi
      exact absurd hi (by decide)
  | succ i =>
      rw [nameBuffer_succ] at hi
      by_cases hlt : i < c.length
      · rw [List.getD_eq_getElem _ _ hlt] at hi
        exact h.noSlash (hi ▸ List.getElem_mem hlt)
      · rw [List.getD_eq_default _ _ (Nat.not_lt.mp hlt)] at hi
        exact absurd hi (by decide)

theorem CStr.Plain.find_slash (h : c.Plain) (start : ℕ) :
    (List.range maxPath).find? (fun i => start ≤ i ∧ nameBuffer c i = slash) = none := by
  rw [List.find?_eq_none]
  intro i _
  simp only [decide_eq_true_eq, not_and]
  exact fun _ => h.no_slash i

theorem CStr.Plain.getD_ne_zero (h : c.Plain) {i : ℕ} (hi : i < c.length) : c.getD i 0 ≠ 0 := by
  rw [List.getD_eq_getElem _ _ hi]
  exact h.nonzero _ (List.getElem_mem hi)

/-- The name in its buffer. -/
theorem CStr.Plain.cstrAt_one (h : c.Plain) : cstrAt (nameBuffer c) 1 = c := by
  have hlen := h.length
  have hmap : (List.range (maxPath - 1)).map (fun i => nameBuffer c (1 + i)) =
      c ++ 0 :: List.replicate (maxPath - 2 - c.length) 0 := by
    apply List.ext_getElem
    · simp only [List.length_map, List.length_range, List.length_append, List.length_cons,
        List.length_replicate]
      omega
    · intro i h₁ h₂
      rw [List.getElem_map, List.getElem_range, Nat.add_comm, nameBuffer_succ]
      by_cases hi : i < c.length
      · rw [List.getD_eq_getElem _ _ hi, List.getElem_append_left hi]
      · rw [List.getD_eq_default _ _ (Nat.not_lt.mp hi)]
        simp only [← List.replicate_succ, List.getElem_append_right (Nat.not_lt.mp hi),
          List.getElem_replicate]
  rw [cstrAt, hmap]
  exact takeWhile_append_zero h.nonzero

/-- The first character of a name is not a special component. -/
theorem CStr.Plain.not_special (h : c.Plain) :
    ¬ (nameBuffer c 1 = dot ∧ nameBuffer c 2 = 0) ∧
      ¬ (nameBuffer c 1 = dot ∧ nameBuffer c 2 = dot ∧ nameBuffer c 3 = 0) := by
  rw [nameBuffer_succ, nameBuffer_succ, nameBuffer_succ]
  have hd : dot ≠ 0 := by decide
  rcases c with _ | ⟨x, _ | ⟨y, _ | ⟨z, t⟩⟩⟩
  · exact absurd rfl h.ne_nil
  · refine ⟨fun hx => h.ne_dot (by rw [← hx.1]; rfl), fun hx => hd hx.2.1.symm⟩
  · refine ⟨fun hx => ?_, fun hx => h.ne_dots ?_⟩
    · exact h.getD_ne_zero (i := 1) (by simp) hx.2
    · rw [show x = dot from hx.1, show y = dot from hx.2.1]
  · refine ⟨fun hx => h.getD_ne_zero (i := 1) (by simp) hx.2, fun hx => ?_⟩
    exact h.getD_ne_zero (i := 2) (by simp) hx.2.2

/-- **The components of `/` and a name.** -/
theorem CStr.Plain.components (h : c.Plain) : components (slash :: c) = [[], c] := by
  have hfirst : getNextPath 0 (pathBuffer (slash :: c)) = some (0, 0, nameBuffer c) := by
    have hslash : pathBuffer (slash :: c) 0 = slash := rfl
    have hfind : (List.range maxPath).find?
        (fun i => 0 ≤ i ∧ pathBuffer (slash :: c) i = slash) = some 0 := by
      rw [show maxPath = 255 + 1 from rfl, List.range_succ_eq_map, List.find?_cons_of_pos]
      simp [hslash]
    have hdot : slash ≠ dot := by decide
    rw [getNextPath, hslash, if_neg fun hx => hdot hx.1, if_neg fun hx => hdot hx.1, hfind]
    rfl
  have hsecond : getNextPath 1 (nameBuffer c) = some (1, c.length + 2, nameBuffer c) := by
    have hne : nameBuffer c 1 ≠ 0 := by
      rw [nameBuffer_succ]
      exact h.getD_ne_zero (List.length_pos_of_ne_nil h.ne_nil)
    rw [getNextPath, if_neg h.not_special.1, if_neg h.not_special.2, h.find_slash, h.cstrAt_one]
    rw [if_pos hne, Nat.add_assoc, Nat.add_comm 1]
  have hthird : getNextPath (c.length + 3) (nameBuffer c) = none := by
    have hend : nameBuffer c (c.length + 3) = 0 := nameBuffer_end (by omega)
    rw [getNextPath, hend, h.find_slash, if_neg (fun hx => absurd hx.1 (by decide)),
      if_neg (fun hx => absurd hx.1 (by decide))]
    exact if_neg (not_not.mpr rfl)
  have hzero : cstrAt (nameBuffer c) 0 = [] := by
    rw [cstrAt, show maxPath - 0 = 255 + 1 from rfl, List.range_succ_eq_map, List.map_cons,
      List.takeWhile_cons_of_neg]
    simp [nameBuffer]
  have htab : pathTab (maxPath + 1) 0 (pathBuffer (slash :: c)) = ([0, 1], nameBuffer c) := by
    rw [show maxPath + 1 = 254 + 1 + 1 + 1 from rfl, pathTab, hfirst]
    dsimp only
    rw [pathTab, Nat.zero_add, hsecond]
    dsimp only
    rw [pathTab, hthird]
  rw [Fs.components, htab]
  dsimp only
  rw [List.map_cons, List.map_cons, List.map_nil, hzero, h.cstrAt_one]

/-- Such a path is already absolute. -/
theorem CStr.Plain.normalize (h : c.Plain) : normalize (slash :: c) = slash :: c := by
  have hempty : normalizeStep [] [] = [[]] := rfl
  have hname : normalizeStep [[]] c = [[], c] := by
    rw [normalizeStep, if_neg h.ne_dot, if_neg h.ne_dots]
    rfl
  rw [Fs.normalize, h.components, List.foldl_cons, hempty, List.foldl_cons, hname, List.foldl_nil,
    assemble]
  simp

end Plain

/-! ## The calls -/

section Calls
variable {σ : Type} (L : BlockLayer σ)

/-- The path that `kget_current_dir_name` computes: the name of the directory, made absolute
as if it were in the root directory. -/
def currentDirName (dev : DevNo) (fuel : ℕ) (cwd : BlockNo) : NameM σ CStr := do
  let inode ← readInode L dev cwd
  let s ← Call.get
  let root ← ofOption (rootBlock dev s.fs)
  krealpath L dev root fuel root inode.name

/-- `kgetcwd`, with a buffer of `size` bytes: the string it leaves there, or NULL. -/
def kgetcwd (fuel : ℕ) (size : UInt32) (s : Sys σ) : Option (Option CStr × Sys σ) := do
  let (r, s) ← s.call (currentDirName L (masterGetDev s) fuel s.proc.cwd)
  match r with
  | .error _ => pure (none, s)
  | .ok tmp =>
    if size = 0 then pure (none, s)
    else if size.toNat ≤ tmp.length then pure (none, s) else pure (some tmp, s)

/-- `kchdir`. -/
def kchdir (fuel : ℕ) (now : BlockNo) (path : CStr) (s : Sys σ) : Option (Int32 × Sys σ) := do
  let (r, s) ← s.get L fuel now path true .dontCheckPerms
  match r with
  | .error _ => pure (-1, s)
  | .ok n =>
    if n.isDirectory ≠ 0 then pure (0, { s with proc := { s.proc with cwd := n.self } })
    else pure (-1, s)

end Calls

/-! ## The round trip -/

/-- The names in a tree stand for themselves in a path. -/
def PlainNames (root : BlockNo) (T : Tree) (d : Dev) : Prop :=
  ∀ b ∈ T.nodes, b ≠ root → (inodeAt d b).name.Component

/-- The path from the root to a node: a slash and a name for each node on the way. -/
inductive AbsPath (root : BlockNo) (d : Dev) : BlockNo → CStr → Prop
  | root : AbsPath root d root []
  | step {b : BlockNo} {path : CStr} : b ≠ root → AbsPath root d (inodeAt d b).parent path →
    AbsPath root d b (path ++ slash :: (inodeAt d b).name)

/-- A name on a path that fits. -/
theorem AbsPath.plain {root b : BlockNo} {d : Dev} {path : CStr} (h : AbsPath root d b path)
    (hfit : path.length < maxPath) (hne : b ≠ root) (hname : (inodeAt d b).name.Component) :
    (inodeAt d b).name.Plain := by
  cases h with
  | root => exact absurd rfl hne
  | step _ _ =>
      refine ⟨hname, ?_⟩
      rw [List.length_append, List.length_cons] at hfit
      omega

/-- `kgetcwd` returns an absolute path that `inode_get` resolves to the current directory. -/
def CwdResolves (now : BlockNo) (size : UInt32) (s : Sys Disk) : Prop :=
  ∃ fuel path n s₁ s₂, kgetcwd flatStore fuel size s = some (some path, s₁) ∧
    path.head? = some slash ∧
    s₁.get flatStore fuel now path true .dontCheckPerms = some (.ok n, s₂) ∧ n.self = s.proc.cwd

/-- The link in block `e` leads to block `b`. -/
def LinkLeadsTo (dev : DevNo) (p : Cred) (now : BlockNo) (s : Names Disk) (e b : BlockNo) : Prop :=
  ∃ root, rootBlock dev s.fs = some root ∧ ∃ fuel s', kreadlink flatStore dev root fuel
    (fun cwd path => inodeGet flatStore dev p now fuel cwd path true .dontCheckPerms) e s =
    some (.ok b, s')

/-- The path for the current directory. -/
def namePath (c : CStr) : CStr := if c = [slash] then [slash] else slash :: c

theorem namePath_head (c : CStr) : (namePath c).head? = some slash := by
  rw [namePath]
  split
  · rfl
  · rfl

namespace Stored
variable {g : Shape} {dev : DevNo} {row : Fin inodeNrDev} {T : Tree} {s s' : Names Disk} {p : Cred}
  {now cwd : BlockNo} {fuel : ℕ} {n : Inode} {rl : BlockNo → NameM Disk BlockNo}

/-- What `kget_current_dir_name` computes. -/
theorem currentDirName_eq (h : Stored g dev row T s.fs)
    (hname : cwd ≠ g.regionStart .imap → (inodeAt (s.fs.store dev) cwd).name.Plain) :
    currentDirName flatStore dev (fuel + 1) cwd s =
      some (.ok (namePath (inodeAt (s.fs.store dev) cwd).name), s) := by
  have hroot : (ofOption (some (g.regionStart .imap)) : NameM Disk BlockNo) s =
      some (.ok (g.regionStart .imap), s) := rfl
  rw [currentDirName, Call.bind_of_ok (readInode_flat ..), Call.get_bind_apply,
    h.inUse.ok.rootBlock_eq, Call.bind_of_ok hroot]
  by_cases hcwd : cwd = g.regionStart .imap
  · have hnorm : normalize [slash] = [slash] := by decide +kernel
    rw [hcwd, h.shaped.rootName, krealpath_absolute rfl (by decide), hnorm]
    rfl
  · have hplain := hname hcwd
    generalize (inodeAt (s.fs.store dev) cwd).name = c at hplain ⊢
    have hne : c ≠ [slash] := fun h0 => hplain.noSlash (h0 ▸ List.mem_singleton_self _)
    have hhead : ¬ c.head? = some slash := fun h0 => hplain.noSlash (List.mem_of_head? h0)
    have hlen := hplain.length
    have hpath : cwdPath flatStore dev (g.regionStart .imap) (fuel + 1) (g.regionStart .imap) [] s =
        some (.ok [], s) := by
      rw [cwdPath, if_pos rfl]
      rfl
    have hfront : (ofOption (pushFront [] ([] ++ [slash])) : NameM Disk CStr) s =
        some (.ok [slash], s) := rfl
    have hfit : [slash].length + c.length ≤ maxPath := by
      rw [List.length_singleton]
      omega
    rw [krealpath, if_neg hhead, Call.bind_of_ok hpath,
      Call.bind_of_ok (Call.require_of_pos (by decide)), Call.bind_of_ok hfront, namePath, if_neg hne]
    refine (Call.bind_of_ok (Call.require_of_pos hfit)).trans ?_
    rw [List.singleton_append, hplain.normalize]
    rfl

/-- A component that is found in the root. -/
theorem stepDir_root_ok (h : Stored g dev row T s.fs) {name : CStr} {a : BlockNo × Inode}
    (hrun : stepDir flatStore dev p rl fuel name (g.regionStart .imap) s = some (.ok a, s')) :
    inodeCheckPermissions (inodeAt (s.fs.store dev) (g.regionStart .imap)) p .rx ∧
      namedEntry (s.fs.store dev) (T.chain (g.regionStart .imap)) name = some a.1 ∧
      a.2 = inodeAt (s.fs.store dev) a.1 ∧ s' = s := by
  have hdir := h.shaped.rootDir
  have hok := h.shaped.node _ h.shaped.rootMem
  obtain ⟨k, hk⟩ := hok.kind
  have hsym : ¬ (inodeAt (s.fs.store dev) (g.regionStart .imap)).isSymlink ≠ 0 :=
    fun hs => (hk.not_link_of_dir hdir).1 (Or.inl hs)
  have henter : enterDir flatStore dev rl (g.regionStart .imap) s =
      some (.ok (g.regionStart .imap, inodeAt (s.fs.store dev) (g.regionStart .imap)), s) := by
    rw [enterDir, Call.bind_of_ok (readInode_flat ..), if_pos (Or.inl hdir), if_neg hsym]
    rfl
  rw [stepDir, Call.bind_of_ok henter] at hrun
  obtain ⟨hrx, hrun⟩ := Call.require_bind_eq_ok.mp hrun
  obtain ⟨hnext, hrun⟩ := Call.require_bind_eq_ok.mp hrun
  obtain ⟨o, s₁, hscan, hrun⟩ := Call.bind_eq_ok.mp hrun
  have hlinked := hok.linked_dir hdir
  have hchain : T.chain (g.regionStart .imap) ≠ [] := fun h0 => hnext (hlinked.nil_iff.mpr h0)
  rcases scanChain_flat name fuel hlinked hchain with ⟨heq, -⟩ | heq
  · rw [heq] at hscan
    cases hscan
  · rw [heq] at hscan
    cases hscan
    cases hent : namedEntry (s.fs.store dev) (T.chain (g.regionStart .imap)) name with
    | none =>
        rw [hent] at hrun
        cases hrun
    | some e =>
        rw [hent] at hrun
        cases hrun
        exact ⟨hrx, rfl, rfl, rfl⟩

/-- What a link leads to is a node. -/
theorem kreadlink_ok (h : Stored g dev row T s.fs) {e b : BlockNo}
    (hrun : kreadlink flatStore dev (g.regionStart .imap) fuel (fun cwd path =>
      inodeGet flatStore dev p now fuel cwd path true .dontCheckPerms) e s = some (.ok b, s'))
    (hb : b ≠ inodeNull) : b ∈ T.nodes ∧ s'.fs = s.fs := by
  rw [kreadlink, Call.modify_bind_apply, Call.get_bind_apply] at hrun
  split at hrun
  · cases hrun
    exact absurd rfl hb
  · obtain ⟨a, ha, hrun⟩ := Call.recover_eq_some hrun
    cases ha
    obtain ⟨n, s₁, hn, hrest⟩ := Call.bind_eq_ok.mp (hrun hb)
    cases hrest
    rw [linkTarget, Call.bind_of_ok (readInode_flat ..)] at hn
    obtain ⟨-, hn⟩ := Call.require_bind_eq_ok.mp hn
    rw [Call.bind_of_ok (readLink_flat ..)] at hn
    obtain ⟨abs, s₂, habs, hn⟩ := Call.bind_eq_ok.mp hn
    have heq := krealpath_state habs
    subst heq
    have hst : Stored g dev row T (Names.mk s.fs (s.nrRecursion + 1)).fs := h
    obtain ⟨rfl, c, hc, rfl⟩ := hst.inodeGet_ok hn
    rw [(h.shaped.node c hc).self]
    exact ⟨hc, rfl⟩

/-- A lookup that does not end at the root has searched it. -/
theorem getFrom_rx (h : Stored g dev row T s.fs) {path : CStr} {doReadlink : Bool} {mode : InodeMode}
    (hrun : getFrom flatStore dev p now (g.regionStart .imap) rl fuel cwd path doReadlink mode s =
      some (.ok n, s')) (hn : n ≠ inodeAt (s.fs.store dev) (g.regionStart .imap)) :
    inodeCheckPermissions (inodeAt (s.fs.store dev) (g.regionStart .imap)) p .rx := by
  obtain ⟨-, abs, inode, s₁, -, hinode, hbelow⟩ := getFrom_eq_ok.mp hrun
  rw [rootInode_flat h.shaped.rootName] at hinode
  cases hinode
  cases hcomp : components abs with
  | nil =>
      rw [hcomp] at hbelow
      cases hbelow
  | cons c cs =>
      rw [hcomp] at hbelow
      cases cs with
      | nil =>
          rw [getBelow] at hbelow
          split at hbelow
          · cases hbelow
            exact absurd rfl hn
          · cases hbelow
      | cons name names =>
          rw [getBelow, (h.shaped.node _ h.shaped.rootMem).self] at hbelow
          cases names with
          | nil =>
              have hwalk : walk flatStore dev p rl fuel [name].dropLast (g.regionStart .imap) s =
                  some (.ok (g.regionStart .imap), s) := rfl
              rw [Call.bind_of_ok hwalk] at hbelow
              obtain ⟨a, s₂, hstep, -⟩ := Call.bind_eq_ok.mp hbelow
              exact (h.stepDir_root_ok hstep).1
          | cons name' names =>
              obtain ⟨b, s₂, hwalk, -⟩ := Call.bind_eq_ok.mp hbelow
              rw [List.dropLast_cons_cons, walk] at hwalk
              obtain ⟨a, s₃, hstep, -⟩ := Call.bind_eq_ok.mp hwalk
              exact (h.stepDir_root_ok hstep).1

/-- Looking a name up in the root. -/
theorem getFrom_name (h : Stored g dev row T s.fs) {c : CStr} (hc : c.Plain) {doReadlink : Bool}
    {mode : InodeMode}
    (hrun : getFrom flatStore dev p now (g.regionStart .imap) rl fuel cwd (slash :: c) doReadlink mode
      s = some (.ok n, s')) :
    ∃ e, namedEntry (s.fs.store dev) (T.chain (g.regionStart .imap)) c = some e ∧
      finishGet flatStore dev p rl doReadlink mode (inodeAt (s.fs.store dev) e) s =
        some (.ok n, s') := by
  obtain ⟨hlen, abs, inode, s₁, habs, hinode, hbelow⟩ := getFrom_eq_ok.mp hrun
  rw [krealpath_absolute rfl hlen, hc.normalize] at habs
  cases habs
  rw [rootInode_flat h.shaped.rootName] at hinode
  cases hinode
  have hwalk : walk flatStore dev p rl fuel [c].dropLast (g.regionStart .imap) s =
      some (.ok (g.regionStart .imap), s) := rfl
  rw [hc.components, getBelow, (h.shaped.node _ h.shaped.rootMem).self, Call.bind_of_ok hwalk] at hbelow
  obtain ⟨a, s₂, hstep, hfinish⟩ := Call.bind_eq_ok.mp hbelow
  obtain ⟨-, hent, hat, rfl⟩ := h.stepDir_root_ok hstep
  rw [hat] at hfinish
  exact ⟨a.1, hent, hfinish⟩

/-- The end of a lookup that follows links. -/
theorem finishGet_link {n m : Inode} (hrun : finishGet flatStore dev p rl true .dontCheckPerms n s =
    some (.ok m, s')) :
    ¬ n.IsLink ∧ m = n ∨ n.IsLink ∧ ∃ a s₁, rl n.self s = some (.ok a, s₁) ∧ a ≠ inodeNull ∧
      m = inodeAt (s₁.fs.store dev) a := by
  by_cases hl : n.IsLink
  · right
    have hcond : (n.isSymlink ≠ 0 ∨ n.isHardlink ≠ 0) ∧ true = true := ⟨hl, rfl⟩
    rw [finishGet, if_pos hcond] at hrun
    obtain ⟨a, s₁, ha, hrun⟩ := Call.bind_eq_ok.mp hrun
    obtain ⟨hne, hrun⟩ := Call.require_bind_eq_ok.mp hrun
    rw [Call.bind_of_ok (readInode_flat ..)] at hrun
    obtain ⟨-, hrun⟩ := Call.require_bind_eq_ok.mp hrun
    cases hrun
    exact ⟨hl, a, _, ha, hne, rfl⟩
  · left
    have hcond : ¬ ((n.isSymlink ≠ 0 ∨ n.isHardlink ≠ 0) ∧ true = true) := fun hc => hl hc.1
    rw [finishGet, if_neg hcond, Call.pure_bind_apply] at hrun
    obtain ⟨-, hrun⟩ := Call.require_bind_eq_ok.mp hrun
    cases hrun
    exact ⟨hl, rfl⟩

end Stored

section Round
variable {g : Shape} {row : Fin inodeNrDev} {T : Tree} {s s' : Sys Disk} {now : BlockNo} {fuel : ℕ}
  {size : UInt32}

/-- A lookup by the process that succeeds. -/
theorem Sys.get_ok {path : CStr} {doReadlink : Bool} {mode : InodeMode} {n : Inode} :
    s.get flatStore fuel now path doReadlink mode = some (.ok n, s') ↔
      ∃ t, inodeGet flatStore (masterGetDev s) s.proc.cred now fuel s.proc.cwd path doReadlink mode
        s.toNames = some (.ok n, t) ∧ s' = { s with toNames := t } := by
  rw [Sys.get, Sys.call, Option.map_eq_some_iff]
  constructor
  · rintro ⟨⟨r, t⟩, hrun, heq⟩
    cases heq
    exact ⟨t, hrun, rfl⟩
  · rintro ⟨t, hrun, rfl⟩
    exact ⟨_, hrun, rfl⟩

/-- **A change of the directory that succeeds** is to a directory of the tree; if it is not the
root, the process may search the root. -/
theorem kchdir_ok (h : Stored g (masterGetDev s) row T s.fs) {path : CStr}
    (hrun : kchdir flatStore fuel now path s = some (0, s')) :
    ∃ b ∈ T.nodes, s' = { s with proc := { s.proc with cwd := b } } ∧
      (inodeAt (s.fs.store (masterGetDev s)) b).isDirectory ≠ 0 ∧
      (b ≠ g.regionStart .imap → inodeCheckPermissions
        (inodeAt (s.fs.store (masterGetDev s)) (g.regionStart .imap)) s.proc.cred .rx) := by
  rw [kchdir, Option.bind_eq_bind, Option.bind_eq_some_iff] at hrun
  obtain ⟨⟨r, s₁⟩, hget, hrun⟩ := hrun
  cases r with
  | error e =>
      dsimp only at hrun
      cases hrun
  | ok n =>
      dsimp only at hrun
      obtain ⟨t, hlook, rfl⟩ := Sys.get_ok.mp hget
      obtain ⟨rfl, b, hb, rfl⟩ := h.inodeGet_ok hlook
      split at hrun
      · rename_i hdir
        cases hrun
        rw [(h.shaped.node b hb).self]
        refine ⟨b, hb, rfl, hdir, fun hne => ?_⟩
        cases fuel with
        | zero => cases hlook
        | succ fuel =>
            rw [inodeGet, Call.get_bind_apply, h.inUse.ok.rootBlock_eq] at hlook
            have hself := (h.shaped.node b hb).self
            have hrself := (h.shaped.node _ h.shaped.rootMem).self
            refine h.getFrom_rx hlook fun heq => hne ?_
            rw [heq] at hself
            exact hself.symm.trans hrself
      · cases hrun

/-- **What `kgetcwd` returns**: the name of the directory behind a slash. -/
theorem kgetcwd_eq (h : Stored g (masterGetDev s) row T s.fs)
    (hname : s.proc.cwd ≠ g.regionStart .imap →
      (inodeAt (s.fs.store (masterGetDev s)) s.proc.cwd).name.Plain) (hsize : maxPath ≤ size.toNat) :
    kgetcwd flatStore (fuel + 1) size s =
      some (some (namePath (inodeAt (s.fs.store (masterGetDev s)) s.proc.cwd).name), s) := by
  have hlen : List.length (namePath (inodeAt (s.fs.store (masterGetDev s)) s.proc.cwd).name) <
      maxPath := by
    rw [namePath]
    split
    · decide
    · rename_i hne
      by_cases hroot : s.proc.cwd = g.regionStart .imap
      · rw [hroot] at hne
        exact absurd h.shaped.rootName hne
      · exact (hname hroot).length
  have hcall : s.call (currentDirName flatStore (masterGetDev s) (fuel + 1) s.proc.cwd) =
      some (.ok (namePath (inodeAt (s.fs.store (masterGetDev s)) s.proc.cwd).name), s) := by
    rw [Sys.call, h.currentDirName_eq hname]
    rfl
  have hpos : size ≠ 0 := by
    rintro rfl
    exact absurd hsize (by decide)
  rw [kgetcwd, hcall]
  show (if size = 0 then pure (none, s) else if size.toNat ≤ _ then pure (none, s)
    else pure (some _, s) : Option (Option CStr × Sys Disk)) = _
  rw [if_neg hpos, if_neg (by omega)]
  rfl

/-- More rounds do not change where a link leads. -/
theorem kreadlink_more {dev : DevNo} {p : Cred} {root e : BlockNo} {fuel fuel' : ℕ} {t t' : Names Disk}
    {r : Except InodeRtvl BlockNo} (hf : fuel ≤ fuel')
    (h : kreadlink flatStore dev root fuel (fun cwd path =>
      inodeGet flatStore dev p now fuel cwd path true .dontCheckPerms) e t = some (r, t')) :
    kreadlink flatStore dev root fuel' (fun cwd path =>
      inodeGet flatStore dev p now fuel' cwd path true .dontCheckPerms) e t = some (r, t') :=
  (within_kreadlink (fun _ => within_anyStates _) hf (fun _ _ => trivial)
    (fun b path => within_inodeGet hf b path true .dontCheckPerms) e _ _ _ h).1

/-- The lookup of the path for the current directory ends there. -/
def NameResolves (dev : DevNo) (p : Cred) (now : BlockNo) (s : Names Disk) (cwd : BlockNo) : Prop :=
  ∃ fuel n t, inodeGet flatStore dev p now (fuel + 1) cwd (namePath (inodeAt (s.fs.store dev) cwd).name)
    true .dontCheckPerms s = some (.ok n, t) ∧ n.self = cwd

theorem cwdResolves_iff (h : Stored g (masterGetDev s) row T s.fs)
    (hname : s.proc.cwd ≠ g.regionStart .imap →
      (inodeAt (s.fs.store (masterGetDev s)) s.proc.cwd).name.Plain) (hsize : maxPath ≤ size.toNat) :
    CwdResolves now size s ↔ NameResolves (masterGetDev s) s.proc.cred now s.toNames s.proc.cwd := by
  constructor
  · rintro ⟨fuel, path, n, s₁, s₂, hcall, -, hget, hself⟩
    cases fuel with
    | zero =>
        obtain ⟨t, hlook, -⟩ := Sys.get_ok.mp hget
        cases hlook
    | succ fuel =>
        rw [kgetcwd_eq h hname hsize] at hcall
        cases hcall
        obtain ⟨t, hlook, -⟩ := Sys.get_ok.mp hget
        exact ⟨fuel, n, t, hlook, hself⟩
  · rintro ⟨fuel, n, t, hlook, hself⟩
    exact ⟨fuel + 1, _, n, s, _, kgetcwd_eq h hname hsize, namePath_head _,
      Sys.get_ok.mpr ⟨t, hlook, rfl⟩, hself⟩

end Round

/-- The root has a link with the name of the directory which leads to it. -/
def LinkedFromRoot (dev : DevNo) (root : BlockNo) (T : Tree) (p : Cred)
    (now : BlockNo) (s : Names Disk) (b : BlockNo) : Prop :=
  ∃ e, namedEntry (s.fs.store dev) (T.chain root) (inodeAt (s.fs.store dev) b).name = some e ∧
    (inodeAt (s.fs.store dev) e).IsLink ∧ LinkLeadsTo dev p now s e b

namespace Stored
variable {g : Shape} {dev : DevNo} {row : Fin inodeNrDev} {T : Tree} {s : Names Disk} {p : Cred}
  {now cwd : BlockNo}

theorem nameResolves_root (h : Stored g dev row T s.fs) :
    NameResolves dev p now s (g.regionStart .imap) := by
  have hname : namePath (inodeAt (s.fs.store dev) (g.regionStart .imap)).name = [slash] := by
    rw [h.shaped.rootName]
    rfl
  refine ⟨0, _, s, ?_, (h.shaped.node _ h.shaped.rootMem).self⟩
  rw [hname]
  exact inodeGet_root h.inUse.ok.rootBlock_eq h.shaped.rootName true .dontCheckPerms

/-- Where the lookup of a name in the root ends. -/
theorem nameResolves_only (h : Stored g dev row T s.fs) (hne : cwd ≠ g.regionStart .imap)
    (hplain : (inodeAt (s.fs.store dev) cwd).name.Plain) (hres : NameResolves dev p now s cwd) :
    (inodeAt (s.fs.store dev) cwd).parent = g.regionStart .imap ∨
      LinkedFromRoot dev (g.regionStart .imap) T p now s cwd := by
  obtain ⟨fuel, n, t, hlook, hself⟩ := hres
  have hslash : (inodeAt (s.fs.store dev) cwd).name ≠ [slash] := fun h0 =>
    hplain.noSlash (h0 ▸ List.mem_singleton_self _)
  have hmount : (ofOption (some (g.regionStart .imap)) : NameM Disk BlockNo) s =
      some (.ok (g.regionStart .imap), s) := rfl
  rw [namePath, if_neg hslash, inodeGet, Call.get_bind_apply, h.inUse.ok.rootBlock_eq,
    Call.bind_of_ok hmount] at hlook
  obtain ⟨e, hent, hfinish⟩ := h.getFrom_name hplain hlook
  have hchild := (h.shaped.node _ h.shaped.rootMem).entries h.shaped.rootDir e (namedEntry_some hent).1
  have heself := (h.shaped.node e hchild.1).self
  rcases finishGet_link hfinish with ⟨-, rfl⟩ | ⟨hl, a, s₁, ha, ha0, rfl⟩
  · left
    rw [← hself, heself]
    exact hchild.2.1
  · right
    rw [heself] at ha
    obtain ⟨hanode, hfs⟩ := h.kreadlink_ok ha ha0
    rw [hfs, (h.shaped.node a hanode).self] at hself
    subst hself
    exact ⟨e, hent, hl, _, h.inUse.ok.rootBlock_eq, fuel, s₁, ha⟩

/-- A name in the root is found. -/
theorem nameResolves_of (h : Stored g dev row T s.fs) (hcwd : cwd ∈ T.nodes)
    (hne : cwd ≠ g.regionStart .imap) (hplain : (inodeAt (s.fs.store dev) cwd).name.Plain)
    (hdir : (inodeAt (s.fs.store dev) cwd).isDirectory ≠ 0)
    (hrx : inodeCheckPermissions (inodeAt (s.fs.store dev) (g.regionStart .imap)) p .rx)
    (hat : (inodeAt (s.fs.store dev) cwd).parent = g.regionStart .imap ∨
      LinkedFromRoot dev (g.regionStart .imap) T p now s cwd) : NameResolves dev p now s cwd := by
  have hslash : (inodeAt (s.fs.store dev) cwd).name ≠ [slash] := fun h0 =>
    hplain.noSlash (h0 ▸ List.mem_singleton_self _)
  have hmount : (ofOption (some (g.regionStart .imap)) : NameM Disk BlockNo) s =
      some (.ok (g.regionStart .imap), s) := rfl
  have hok := h.shaped.node cwd hcwd
  have hlen : (slash :: (inodeAt (s.fs.store dev) cwd).name).length ≤ maxPath := Nat.le_of_lt hplain.length
  have hcomp : Fs.components (Fs.normalize (slash :: (inodeAt (s.fs.store dev) cwd).name)) =
      [[], (inodeAt (s.fs.store dev) cwd).name] := by
    rw [hplain.normalize, hplain.components]
  have hgrant : inodeCheckPermissions (inodeAt (s.fs.store dev) cwd) p .dontCheckPerms := Or.inl rfl
  rcases hat with hparent | ⟨e, hent, hl, root, hroot, fuel, t, hlead⟩
  · have hlisted := hok.listed hne
    rw [hparent] at hlisted
    have hent := ((h.shaped.node _ h.shaped.rootMem).distinct h.shaped.rootDir).namedEntry_eq hlisted
    obtain ⟨k, hk⟩ := hok.kind
    have hnl : ¬ (((inodeAt (s.fs.store dev) cwd).isSymlink ≠ 0 ∨
        (inodeAt (s.fs.store dev) cwd).isHardlink ≠ 0) ∧ true = true) :=
      fun hc => (hk.not_link_of_dir hdir).1 hc.1
    refine ⟨(T.chain (g.regionStart .imap)).length, _, s, ?_, hok.self⟩
    rw [namePath, if_neg hslash, inodeGet, Call.get_bind_apply, h.inUse.ok.rootBlock_eq,
      Call.bind_of_ok hmount, h.getFrom_child rfl hlen hcomp hrx hent (le_refl _), finishGet,
      if_neg hnl, Call.pure_bind_apply]
    exact Call.bind_of_ok (Call.require_of_pos hgrant)
  · rw [h.inUse.ok.rootBlock_eq] at hroot
    cases hroot
    have hcwd0 : cwd ≠ inodeNull := h.clear.ne_null .imap cwd (h.covers_node hcwd)
    have hchild := (h.shaped.node _ h.shaped.rootMem).entries h.shaped.rootDir e
      (namedEntry_some hent).1
    have heself := (h.shaped.node e hchild.1).self
    obtain ⟨-, hfs⟩ := h.kreadlink_ok hlead hcwd0
    have hcond : ((inodeAt (s.fs.store dev) e).isSymlink ≠ 0 ∨
        (inodeAt (s.fs.store dev) e).isHardlink ≠ 0) ∧ true = true := ⟨hl, rfl⟩
    have hmore := kreadlink_more (Nat.le_max_left fuel (T.chain (g.regionStart .imap)).length) hlead
    refine ⟨max fuel (T.chain (g.regionStart .imap)).length, inodeAt (t.fs.store dev) cwd, t, ?_, ?_⟩
    · rw [← hfs] at hgrant
      rw [namePath, if_neg hslash, inodeGet, Call.get_bind_apply, h.inUse.ok.rootBlock_eq,
        Call.bind_of_ok hmount, h.getFrom_child rfl hlen hcomp hrx hent (Nat.le_max_right ..),
        finishGet, if_pos hcond, heself, Call.bind_of_ok hmore,
        Call.bind_of_ok (Call.require_of_pos hcwd0), Call.bind_of_ok (readInode_flat ..)]
      exact Call.bind_of_ok (Call.require_of_pos hgrant)
    · rw [hfs]
      exact hok.self

end Stored

/-- **The working directory round trip.** After a change of the directory that succeeds,
`kgetcwd` returns a path that leads to the new directory if and only if the directory is the
root or an entry of the root, or the root has a link with its name which leads to it. -/
theorem kchdir_kgetcwd {g : Shape} {row : Fin inodeNrDev} {T : Tree} {s s' : Sys Disk} {fuel : ℕ}
    {now : BlockNo} {path abs : CStr} {size : UInt32} (h : Stored g (masterGetDev s) row T s.fs)
    (hnames : PlainNames (g.regionStart .imap) T (s.fs.store (masterGetDev s)))
    (hrun : kchdir flatStore fuel now path s = some (0, s'))
    (habs : AbsPath (g.regionStart .imap) (s.fs.store (masterGetDev s)) s'.proc.cwd abs)
    (hfit : abs.length < maxPath) (hsize : maxPath ≤ size.toNat) :
    CwdResolves now size s' ↔
      (inodeAt (s'.fs.store (masterGetDev s')) s'.proc.cwd).parent = g.regionStart .imap ∨
        LinkedFromRoot (masterGetDev s') (g.regionStart .imap) T s'.proc.cred now s'.toNames
          s'.proc.cwd := by
  obtain ⟨b, hb, rfl, hdir, hrx⟩ := kchdir_ok h hrun
  have hname : b ≠ g.regionStart .imap →
      (inodeAt (s.fs.store (masterGetDev s)) b).name.Plain := fun hne =>
    habs.plain hfit hne (hnames b hb hne)
  rw [cwdResolves_iff (s := { s with proc := { s.proc with cwd := b } }) h hname hsize]
  by_cases hroot : b = g.regionStart .imap
  · subst hroot
    exact ⟨fun _ => Or.inl h.shaped.rootParent, fun _ => h.nameResolves_root⟩
  · exact ⟨h.nameResolves_only hroot (hname hroot),
      h.nameResolves_of hb hroot (hname hroot) hdir (hrx hroot)⟩

/-! ## A directory in a directory -/

/-- A directory. -/
def dirNode (name : CStr) (block parent next : BlockNo) : Inode :=
  { newInode 0 name 511 0 0 0 block parent with isDirectory := 1, next := next }

/-- The blocks of the directory `/a` and in it an empty directory `b`. -/
def nestedBlocks : List (BlockNo × Sector) :=
  [(4100, Inode.layout { Inode.zero.asRoot 0 0 4100 with next := 6148 }),
    (6148, BlockMap.layout (listMap [4101])), (4101, Inode.layout (dirNode [97] 4101 4100 6149)),
    (6149, BlockMap.layout (listMap [4102])),
    (4102, Inode.layout (dirNode [98] 4102 4101 inodeNull))]

/-- A volume with a directory in a directory. -/
def nestedVolume : FsState Disk := startVolume.writes 0 nestedBlocks

/-- The tree on it. -/
def nestedTree : Tree :=
  ⟨{4100, 4101, 4102}, fun b => if b = 4100 then [6148] else if b = 4101 then [6149] else []⟩

theorem nestedTree_cases {b : BlockNo} (h : b ∈ nestedTree.nodes) :
    b = 4100 ∨ b = 4101 ∨ b = 4102 := by
  have hb : b ∈ ({4100, 4101, 4102} : Finset BlockNo) := h
  simpa only [Finset.mem_insert, Finset.mem_singleton] using hb

theorem nestedVolume_store {b : BlockNo} {x : Sector} (h : (b, x) ∈ nestedBlocks) :
    nestedVolume.store 0 b = x := by
  have hnd : (nestedBlocks.map Prod.fst).Nodup := by
    show ([4100, 6148, 4101, 6149, 4102] : List BlockNo).Nodup
    decide
  exact FsState.writes_store hnd h

theorem nestedVolume_nodes :
    inodeAt (nestedVolume.store 0) 4100 = { Inode.zero.asRoot 0 0 4100 with next := 6148 } ∧
      inodeAt (nestedVolume.store 0) 4101 = dirNode [97] 4101 4100 6149 ∧
      inodeAt (nestedVolume.store 0) 4102 = dirNode [98] 4102 4101 inodeNull := by
  have hnode : ∀ {b : BlockNo} {n : Inode}, (b, Inode.layout n) ∈ nestedBlocks →
      inodeAt (nestedVolume.store 0) b = n := by
    intro b n hmem
    rw [inodeAt, nestedVolume_store hmem, Equiv.symm_apply_apply]
  refine ⟨hnode ?_, hnode ?_, hnode ?_⟩
  · exact List.mem_cons_self
  · exact List.mem_of_mem_drop (i := 2) List.mem_cons_self
  · exact List.mem_of_mem_drop (i := 4) List.mem_cons_self

theorem nestedVolume_maps :
    mapAt (nestedVolume.store 0) 6148 = listMap [4101] ∧
      mapAt (nestedVolume.store 0) 6149 = listMap [4102] := by
  have hmap : ∀ {b : BlockNo} {m : BlockMap}, (b, BlockMap.layout m) ∈ nestedBlocks →
      mapAt (nestedVolume.store 0) b = m := by
    intro b m hmem
    rw [mapAt, nestedVolume_store hmem, Equiv.symm_apply_apply]
  refine ⟨hmap ?_, hmap ?_⟩
  · exact List.mem_of_mem_drop (i := 1) List.mem_cons_self
  · exact List.mem_of_mem_drop (i := 3) List.mem_cons_self

/-- The names are `a` and `b`. -/
theorem dirNode_name {c : UInt8} {block parent next : BlockNo} (h : c ≠ 0) :
    (dirNode [c] block parent next).name = [c] :=
  cstr_strcpy ⟨by show 1 < maxPath; decide, fun x hx => List.mem_singleton.mp hx ▸ h⟩

theorem dirNode_kind {c : CStr} {block parent next : BlockNo} :
    (dirNode c block parent next).HasKind .dir := by
  have hdir : (dirNode c block parent next).isDirectory ≠ 0 := by
    show (1 : UInt8) ≠ 0
    decide
  have hzero : (0 : UInt8) ≠ 0 ↔ False := by simp
  exact ⟨hzero.trans (by decide), ⟨fun _ => rfl, fun _ => hdir⟩, hzero.trans (by decide),
    hzero.trans (by decide)⟩

theorem nestedVolume_kind {b : BlockNo} (hb : b ∈ nestedTree.nodes) :
    (inodeAt (nestedVolume.store 0) b).HasKind .dir := by
  have hb : b ∈ ({4100, 4101, 4102} : Finset BlockNo) := hb
  simp only [Finset.mem_insert, Finset.mem_singleton] at hb
  rcases hb with rfl | rfl | rfl
  · rw [nestedVolume_nodes.1]
    exact ⟨by decide, by decide, by decide, by decide⟩
  · rw [nestedVolume_nodes.2.1]
    exact dirNode_kind
  · rw [nestedVolume_nodes.2.2]
    exact dirNode_kind

/-- What a directory of this tree needs. -/
theorem nestedVolume_node {b parent : BlockNo} {ms l : List BlockNo} (hb : b ∈ nestedTree.nodes)
    (hself : (inodeAt (nestedVolume.store 0) b).self = b)
    (hparent : (inodeAt (nestedVolume.store 0) b).parent = parent) (hmem : parent ∈ nestedTree.nodes)
    (hlisted : b ≠ 4100 → HasEntry (nestedVolume.store 0) (nestedTree.chain parent) b)
    (hchain : nestedTree.chain b = ms)
    (hlinked : Linked (nestedVolume.store 0) (inodeAt (nestedVolume.store 0) b).next ms)
    (hentries : ∀ e, HasEntry (nestedVolume.store 0) ms e ↔ e ∈ l) (hl : ∀ e ∈ l,
      e ∈ nestedTree.nodes ∧ (inodeAt (nestedVolume.store 0) e).parent = b ∧ e ≠ 4100)
    (hdist : EntriesOk (nestedVolume.store 0) ms) :
    NodeOk 4100 nestedTree (nestedVolume.store 0) b := by
  have hkind := nestedVolume_kind hb
  have hnl := (hkind.not_link_of_dir (hkind.dir.mpr rfl)).1
  subst hparent hchain
  exact ⟨hself, ⟨_, hkind⟩, fun _ => hlinked, fun hl => absurd hl hnl, hmem,
    (nestedVolume_kind hmem).dir.mpr rfl, hlisted, fun _ => hdist,
    fun _ e he => hl e ((hentries e).mp he)⟩

theorem nestedVolume_entries :
    (∀ e, HasEntry (nestedVolume.store 0) [6148] e ↔ e ∈ [(4101 : BlockNo)]) ∧
      ∀ e, HasEntry (nestedVolume.store 0) [6149] e ↔ e ∈ [(4102 : BlockNo)] :=
  ⟨fun _ => hasEntry_listMap nestedVolume_maps.1 (by decide) (by decide),
    fun _ => hasEntry_listMap nestedVolume_maps.2 (by decide) (by decide)⟩

theorem nestedVolume_shaped : Shaped 4100 nestedTree (nestedVolume.store 0) := by
  obtain ⟨hr, ha, hb⟩ := nestedVolume_nodes
  obtain ⟨hm, hm'⟩ := nestedVolume_maps
  have hown : ∀ c ∈ nestedTree.nodes, nestedTree.owned (nestedVolume.store 0) c =
      nestedTree.chain c := fun c hc =>
    Tree.owned_dir ⟨_, nestedVolume_kind hc⟩ ((nestedVolume_kind hc).dir.mpr rfl)
  refine ⟨⟨?_, ?_, ?_⟩, by decide, ?_, ?_, ?_, ?_⟩
  · intro a ha b hb
    rw [hown a ha]
    rcases nestedTree_cases ha with rfl | rfl | rfl <;>
      rcases nestedTree_cases hb with rfl | rfl | rfl <;> decide
  · intro a ha b hb hab
    rw [hown a ha, hown b hb]
    have hdisj : ((nestedTree.chain a).all fun x => !(nestedTree.chain b).contains x) = true := by
      rcases nestedTree_cases ha with rfl | rfl | rfl <;>
        rcases nestedTree_cases hb with rfl | rfl | rfl <;>
        first | exact absurd rfl hab | decide
    intro x hxa hxb
    have hx := List.all_eq_true.mp hdisj x hxa
    simp [hxb] at hx
  · intro a ha
    rw [hown a ha]
    rcases nestedTree_cases ha with rfl | rfl | rfl <;> decide
  · rw [hr]
    exact cstr_strcpy (.of_all (by decide) (by decide))
  · exact (nestedVolume_kind (by decide)).dir.mpr rfl
  · rw [hr]
    rfl
  · intro c hc
    have hc : c ∈ ({4100, 4101, 4102} : Finset BlockNo) := hc
    simp only [Finset.mem_insert, Finset.mem_singleton] at hc
    rcases hc with rfl | rfl | rfl
    · refine nestedVolume_node (by decide) (by rw [hr]; rfl) (by rw [hr]; rfl)
        (show (4100 : BlockNo) ∈ nestedTree.nodes by decide) (fun h => absurd rfl h) rfl ?_
        nestedVolume_entries.1 ?_ (entriesOk_single hm (by decide))
      · rw [hr]
        refine ⟨rfl, by decide, ?_⟩
        rw [hm]
        rfl
      · intro e he
        rw [List.mem_singleton.mp he, ha]
        exact ⟨by decide, rfl, by decide⟩
    · refine nestedVolume_node (by decide) (by rw [ha]; rfl) (by rw [ha]; rfl)
        (show (4100 : BlockNo) ∈ nestedTree.nodes by decide) (fun _ => ?_) rfl ?_
        nestedVolume_entries.2 ?_ (entriesOk_single hm' (by decide))
      · exact (nestedVolume_entries.1 _).mpr (List.mem_singleton_self _)
      · rw [ha]
        refine ⟨rfl, by decide, ?_⟩
        rw [hm']
        rfl
      · intro e he
        rw [List.mem_singleton.mp he, hb]
        exact ⟨by decide, rfl, by decide⟩
    · refine nestedVolume_node (l := []) (by decide) (by rw [hb]; rfl) (by rw [hb]; rfl)
        (show (4101 : BlockNo) ∈ nestedTree.nodes by decide) (fun _ => ?_) rfl ?_
        (fun e => ⟨?_, ?_⟩) (fun e he => by cases he) ⟨?_, ?_⟩
      · exact (nestedVolume_entries.2 _).mpr (List.mem_singleton_self _)
      · rw [hb]
        rfl
      · rintro ⟨-, m, hmem, -⟩
        cases hmem
      · intro h
        cases h
      · intro m hmem
        cases hmem
      · rintro e e' ⟨-, m, hmem, -⟩
        cases hmem

theorem nestedVolume_stored :
    Stored (volumeShape (5242880 / 512)) 0 0 nestedTree nestedVolume := by
  refine ⟨volumeShape_clear (by decide), ?_, ?_⟩
  · rw [shape_10240.1]
    exact nestedVolume_shaped
  · refine InUse.writes (startVolume_inUse (fun b hb => ?_) fun b hb => ?_) fun w hw k => ?_
    · rcases nestedTree_cases hb with rfl | rfl | rfl <;> decide
    · obtain ⟨c, hc, hbc⟩ := Tree.mem_held_bmap.mp hb
      rw [Tree.owned_dir ⟨_, nestedVolume_kind hc⟩ ((nestedVolume_kind hc).dir.mpr rfl)] at hbc
      have hmap : b = 6148 ∨ b = 6149 := by
        rcases nestedTree_cases hc with rfl | rfl | rfl
        · exact .inl (List.mem_singleton.mp hbc)
        · exact .inr (List.mem_singleton.mp hbc)
        · exact absurd hbc List.not_mem_nil
      rcases hmap with rfl | rfl <;> decide
    · refine not_inMap_10240 ?_ k
      have hmem : w.1 ∈ nestedBlocks.map Prod.fst := List.mem_map_of_mem hw
      have hmem : w.1 ∈ ([4100, 6148, 4101, 6149, 4102] : List BlockNo) := hmem
      simp only [List.mem_cons, List.not_mem_nil, or_false] at hmem
      rcases hmem with h | h | h | h | h <;> rw [h] <;> decide

/-- A process in the root directory of this volume. -/
def nestedSys : Sys Disk := { Sys.start nestedVolume with proc := { Proc.zero with cwd := 4100 } }

/-- The process in the inner directory. -/
def nestedInner : Sys Disk := { nestedSys with proc := { nestedSys.proc with cwd := 4102 } }

theorem nestedSys_stored :
    Stored (volumeShape (5242880 / 512)) (masterGetDev nestedSys) 0 nestedTree nestedSys.fs :=
  nestedVolume_stored

theorem nestedVolume_plain : PlainNames 4100 nestedTree (nestedVolume.store 0) := by
  intro b hb hne
  have hb : b ∈ ({4100, 4101, 4102} : Finset BlockNo) := hb
  simp only [Finset.mem_insert, Finset.mem_singleton] at hb
  rcases hb with rfl | rfl | rfl
  · exact absurd rfl hne
  · rw [nestedVolume_nodes.2.1, dirNode_name (by decide)]
    exact ⟨by decide, List.forall_mem_singleton.mpr (by decide), by decide, by decide, by decide⟩
  · rw [nestedVolume_nodes.2.2, dirNode_name (by decide)]
    exact ⟨by decide, List.forall_mem_singleton.mpr (by decide), by decide, by decide, by decide⟩

/-- The path `/a/b`. -/
theorem nestedVolume_path : AbsPath 4100 (nestedVolume.store 0) 4102 [slash, 97, slash, 98] := by
  obtain ⟨-, ha, hb⟩ := nestedVolume_nodes
  have houter : AbsPath 4100 (nestedVolume.store 0) 4101
      ([] ++ slash :: (inodeAt (nestedVolume.store 0) 4101).name) := by
    apply AbsPath.step (by decide)
    rw [ha]
    exact AbsPath.root
  rw [ha, dirNode_name (by decide)] at houter
  have hinner : AbsPath 4100 (nestedVolume.store 0) 4102
      ([slash, 97] ++ slash :: (inodeAt (nestedVolume.store 0) 4102).name) := by
    apply AbsPath.step (by decide)
    rw [hb]
    exact houter
  rw [hb, dirNode_name (by decide)] at hinner
  exact hinner

/-- The lookup of `/a/b`. -/
theorem inodeGet_nested :
    inodeGet flatStore 0 ⟨0, 0⟩ 0 3 4100 [slash, 97, slash, 98] true .dontCheckPerms
      ⟨nestedVolume, 0⟩ = some (.ok (dirNode [98] 4102 4101 inodeNull), ⟨nestedVolume, 0⟩) := by
  have hst : Stored (volumeShape (5242880 / 512)) 0 0 nestedTree
      (⟨nestedVolume, 0⟩ : Names Disk).fs := nestedVolume_stored
  obtain ⟨hr, ha, hb⟩ := nestedVolume_nodes
  have hcomp : components (normalize [slash, 97, slash, 98]) = [[], [97], [98]] := by
    decide +kernel
  have henta : namedEntry (nestedVolume.store 0) [6148] [97] = some 4101 := by
    have h := (entriesOk_single nestedVolume_maps.1 (by decide)).namedEntry_eq
      ((nestedVolume_entries.1 4101).mpr (List.mem_singleton_self _))
    rw [ha, dirNode_name (by decide)] at h
    exact h
  have hentb : namedEntry (nestedVolume.store 0) [6149] [98] = some 4102 := by
    have h := (entriesOk_single nestedVolume_maps.2 (by decide)).namedEntry_eq
      ((nestedVolume_entries.2 4102).mpr (List.mem_singleton_self _))
    rw [hb, dirNode_name (by decide)] at h
    exact h
  have hkinda := nestedVolume_kind (show (4101 : BlockNo) ∈ nestedTree.nodes by decide)
  have hkindb := nestedVolume_kind (show (4102 : BlockNo) ∈ nestedTree.nodes by decide)
  have hchain : nestedTree.chain ((volumeShape (5242880 / 512)).regionStart .imap) = [6148] := by
    rw [shape_10240.1]
    rfl
  have hrx : inodeCheckPermissions (inodeAt (nestedVolume.store 0)
      ((volumeShape (5242880 / 512)).regionStart .imap)) ⟨0, 0⟩ .rx := by
    rw [shape_10240.1, hr]
    decide
  have hrxa : inodeCheckPermissions (inodeAt (nestedVolume.store 0) 4101) ⟨0, 0⟩ .rx := by
    rw [ha]
    decide
  have hget := @Stored.inodeGet_grandchild _ _ _ _ _ hst ⟨0, 0⟩ 0 4100 4101 4102 2
    [slash, 97, slash, 98] [97] [98] true .dontCheckPerms rfl (by decide) hcomp hrx
    (hchain ▸ henta) (by rw [hchain]; decide) (hkinda.dir.mpr rfl) hrxa hentb (by decide)
    (hkindb.not_link_of_dir (hkindb.dir.mpr rfl)).1 (Or.inl rfl)
  rw [hb] at hget
  exact hget

/-- `kchdir("/a/b")`. -/
theorem kchdir_nested :
    kchdir flatStore 3 0 [slash, 97, slash, 98] nestedSys = some (0, nestedInner) := by
  have hget : nestedSys.get flatStore 3 0 [slash, 97, slash, 98] true .dontCheckPerms =
      some (.ok (dirNode [98] 4102 4101 inodeNull), nestedSys) :=
    Sys.get_ok.mpr ⟨_, inodeGet_nested, rfl⟩
  have hdir : (dirNode [98] 4102 4101 inodeNull).isDirectory ≠ 0 := dirNode_kind.dir.mpr rfl
  rw [kchdir, hget]
  show (if (dirNode [98] 4102 4101 inodeNull).isDirectory ≠ 0 then some (0, nestedInner)
    else some ((-1 : Int32), nestedSys)) = _
  exact if_pos hdir

/-- The directory `/a/b`, whose name in the root directory would be `/b`. -/
theorem kgetcwd_nested_fails : ¬ ∀ (g : Shape) (row : Fin inodeNrDev) (T : Tree) (s s' : Sys Disk)
    (fuel : ℕ) (now : BlockNo) (path abs : CStr) (size : UInt32),
    Stored g (masterGetDev s) row T s.fs →
    PlainNames (g.regionStart .imap) T (s.fs.store (masterGetDev s)) →
    kchdir flatStore fuel now path s = some (0, s') →
    AbsPath (g.regionStart .imap) (s.fs.store (masterGetDev s)) s'.proc.cwd abs →
    abs.length < maxPath → maxPath ≤ size.toNat → CwdResolves now size s' := by
  intro h
  have hres := h _ _ _ _ _ _ _ _ _ 256 nestedSys_stored
    (by rw [shape_10240.1]; exact nestedVolume_plain) kchdir_nested
    (by rw [shape_10240.1]; exact nestedVolume_path) (by decide) (by decide)
  obtain ⟨hr, ha, hb⟩ := nestedVolume_nodes
  have hst : Stored (volumeShape (5242880 / 512)) 0 0 nestedTree nestedInner.toNames.fs :=
    nestedVolume_stored
  have hplain : (inodeAt (nestedVolume.store 0) 4102).name.Plain :=
    nestedVolume_path.plain (by decide) (by decide)
      (nestedVolume_plain 4102 (by decide) (by decide))
  have hres := (cwdResolves_iff (s := nestedInner) hst (fun _ => hplain) (by decide)).mp hres
  rcases hst.nameResolves_only (by rw [shape_10240.1]; decide) hplain hres with hp | ⟨e, he, -⟩
  · rw [shape_10240.1] at hp
    have hp : (inodeAt (nestedVolume.store 0) 4102).parent = 4100 := hp
    rw [hb] at hp
    exact absurd hp (by decide)
  · rw [shape_10240.1] at he
    obtain ⟨hent, hname⟩ := namedEntry_some he
    have hent : HasEntry (nestedVolume.store 0) [6148] e := hent
    rw [List.mem_singleton.mp ((nestedVolume_entries.1 e).mp hent)] at hname
    have hname : (inodeAt (nestedVolume.store 0) 4101).name =
      (inodeAt (nestedVolume.store 0) 4102).name := hname
    rw [ha, hb, dirNode_name (by decide), dirNode_name (by decide)] at hname
    exact absurd hname (by decide)

theorem kchdir_kgetcwd_nested : CwdResolves 0 256 nestedInner ↔
    (inodeAt (nestedVolume.store 0) 4102).parent = 4100 ∨
      LinkedFromRoot 0 4100 nestedTree ⟨0, 0⟩ 0 nestedInner.toNames 4102 := by
  have hsize : maxPath ≤ (256 : UInt32).toNat := by decide
  have h := kchdir_kgetcwd nestedSys_stored
    (by rw [shape_10240.1]; exact nestedVolume_plain) kchdir_nested
    (by rw [shape_10240.1]; exact nestedVolume_path) (by decide) hsize
  rw [shape_10240.1] at h
  exact h

end OxKernel.Fs
