import OxKernel.Fs.LookupRules
import OxKernel.Fs.Termination
import OxKernel.Fs.Leaves

/-!
# Cycles of links

A lookup ends with one result, which does not depend on the number of rounds once there are
enough, and a link on a cycle never resolves.

That a lookup needs a link means that it does not succeed when this link leads nowhere. A
link is on a cycle if it needs itself, through other links or directly. By induction on the
rounds no link on a cycle resolves: the lookup of its path follows the one in which the next
link on the cycle leads nowhere.

## Main definitions

* `inodeGetAvoid` — `inode_get` in which one link leads nowhere.
* `NeedsLink`, `PathNeedsLink` — a link, or a path, that does not resolve without a link.
* `OnCycle` — a link that needs itself.
* `rootedFs` — the file system in which a lookup takes place.
-/
namespace OxKernel.Fs

open Lib (Call)

/-! ## More rounds -/

section Rounds
variable {σ : Type} {L : BlockLayer σ} {dev : DevNo} {p : Cred} {now : BlockNo}

/-- No condition on the states. -/
def AnyStates (_ _ : Names σ) : Prop := True

instance : Std.Refl (@AnyStates σ) := ⟨fun _ => trivial⟩

instance : IsTrans (Names σ) AnyStates := ⟨fun _ _ _ _ _ => trivial⟩

theorem within_anyStates {α : Type} (x : NameM σ α) : Call.Within AnyStates x x :=
  fun _ _ _ h => ⟨h, trivial⟩

/-- **More rounds** do not change how a lookup ends. -/
theorem within_inodeGet {fuel fuel' : ℕ} (hf : fuel ≤ fuel') (cwd : BlockNo) (path : CStr)
    (doReadlink : Bool) (mode : InodeMode) :
    Call.Within AnyStates (inodeGet L dev p now fuel cwd path doReadlink mode)
      (inodeGet L dev p now fuel' cwd path doReadlink mode) := by
  induction fuel generalizing fuel' cwd path doReadlink mode with
  | zero => exact Call.Within.loop
  | succ fuel ih =>
      obtain ⟨fuel', rfl⟩ : ∃ f, fuel' = f + 1 := ⟨fuel' - 1, by omega⟩
      have hle : fuel ≤ fuel' := Nat.le_of_succ_le_succ hf
      have hread : ∀ b, Call.Within AnyStates (readSector L dev b) (readSector L dev b) :=
        fun b => within_anyStates _
      rw [inodeGet, inodeGet]
      refine Call.Within.bind Call.Within.get fun s => ?_
      refine Call.Within.bind (within_ofOption _) fun root => ?_
      refine within_getFrom hread hle ?_ (within_anyStates _) cwd path doReadlink mode
      refine within_kreadlink hread hle (fun _ _ => trivial) fun b path => ?_
      exact ih hle b path true .dontCheckPerms

end Rounds

/-! ## Links that a lookup needs -/

/-- `kreadlink`, but for one link that leads nowhere. -/
def avoidLink {σ : Type} (avoid : BlockNo) (readlink : BlockNo → NameM σ BlockNo) (b : BlockNo) :
    NameM σ BlockNo :=
  if b = avoid then pure inodeNull else readlink b

/-- `inode_get` where the link `avoid` leads nowhere. -/
def inodeGetAvoid {σ : Type} (L : BlockLayer σ) (dev : DevNo) (avoid : BlockNo) (p : Cred)
    (now : BlockNo) : ℕ → BlockNo → CStr → Bool → InodeMode → NameM σ Inode
  | 0, _, _, _, _ => Call.loop
  | fuel + 1, currentDir, path, doReadlink, mode => do
    let s ← Call.get
    let root ← ofOption (rootBlock dev s.fs)
    let readlink := kreadlink L dev root fuel fun currentDir path =>
      inodeGetAvoid L dev avoid p now fuel currentDir path true .dontCheckPerms
    getFrom L dev p now root (avoidLink avoid readlink) fuel currentDir path doReadlink mode

section Needs
variable (dev : DevNo) (p : Cred) (now : BlockNo)

/-- The link `b` leads nowhere if the link `c` does. -/
def NeedsLink (fs : FsState Disk) (b c : BlockNo) : Prop :=
  ∀ root, rootBlock dev fs = some root → ∀ fuel (s s' : Names Disk) a, s.fs = fs →
    kreadlink flatStore dev root fuel (fun cwd path =>
      inodeGetAvoid flatStore dev c p now fuel cwd path true .dontCheckPerms) b s =
      some (.ok a, s') → a = inodeNull

/-- The link `b` needs itself, through any number of other links. -/
def OnCycle (fs : FsState Disk) (b : BlockNo) : Prop :=
  Relation.TransGen (NeedsLink dev p now fs) b b

/-- A lookup does not succeed if the link `c` leads nowhere. -/
def PathNeedsLink (s : Names Disk) (cwd : BlockNo) (path : CStr) (doReadlink : Bool)
    (mode : InodeMode) (c : BlockNo) : Prop :=
  ∀ fuel n s', inodeGetAvoid flatStore dev c p now fuel cwd path doReadlink mode s ≠
    some (.ok n, s')

/-- The file system after the root inode has been read or made, where the components of a
path are looked up. -/
def rootedFs (s : Names Disk) : FsState Disk :=
  match rootBlock dev s.fs with
  | none => s.fs
  | some root =>
    match rootInode flatStore dev now root s with
    | some (.ok _, s') => s'.fs
    | _ => s.fs

end Needs

section Cycles
variable {dev : DevNo} {root now : BlockNo} {fs : FsState Disk} {p : Cred} {fuel : ℕ}

/-! ## Lookups without a link -/

/-- The same state, with the file system `fs`. -/
def SameFs (fs : FsState Disk) (s t : Names Disk) : Prop := s = t ∧ s.fs = fs

/-- What a computation that keeps the file system returns, it returns. -/
theorem follows_self {α : Type} {x : NameM Disk α} (h : Call.Within (Carries (· = fs)) x x) :
    Call.Follows (SameFs fs) x x := by
  rintro s _ ⟨rfl, hs⟩ a s' hx
  exact ⟨s', hx, rfl, (h _ _ _ hx).2 hs⟩

theorem follows_readInode (b : BlockNo) :
    Call.Follows (SameFs fs) (readInode flatStore dev b) (readInode flatStore dev b) :=
  follows_self (within_readInode carries_readSector b)

/-- A block that the one link leads to, the other link leads to. -/
def LinkFollows (fs : FsState Disk) (readlink readlink' : BlockNo → NameM Disk BlockNo) : Prop :=
  ∀ b a s s', s.fs = fs → readlink b s = some (.ok a, s') → a ≠ inodeNull →
    readlink' b s = some (.ok a, s') ∧ s'.fs = fs

section Links
variable {readlink readlink' : BlockNo → NameM Disk BlockNo} (hl : LinkFollows fs readlink readlink')
include hl

/-- Going on from where a link leads to. -/
theorem LinkFollows.bind {α : Type} {f : BlockNo → NameM Disk α} (b : BlockNo)
    {g : BlockNo → NameM Disk α} (hf : ∀ a, Call.Follows (SameFs fs) (f a) (g a)) :
    Call.Follows (SameFs fs)
      (readlink b >>= fun a => Call.require (a ≠ inodeNull) .fail >>= fun _ => f a)
      (readlink' b >>= fun a => Call.require (a ≠ inodeNull) .fail >>= fun _ => g a) := by
  rintro s _ ⟨rfl, hs⟩ r s₂ h
  obtain ⟨a, s₁, hlink, hrest⟩ := Call.bind_eq_ok.mp h
  obtain ⟨hne, hrest⟩ := Call.require_bind_eq_ok.mp hrest
  obtain ⟨hlink', hs₁⟩ := hl b a s s₁ hs hlink hne
  obtain ⟨t, ht, heq⟩ := hf a s₁ s₁ ⟨rfl, hs₁⟩ r s₂ hrest
  refine ⟨t, ?_, heq⟩
  rw [Call.bind_of_ok hlink', Call.bind_of_ok (Call.require_of_pos hne), ht]

theorem follows_enterDir (b : BlockNo) :
    Call.Follows (SameFs fs) (enterDir flatStore dev readlink b)
      (enterDir flatStore dev readlink' b) := by
  rw [enterDir, enterDir]
  refine Call.Follows.bind (follows_readInode b) fun n => ?_
  split
  · split
    · refine hl.bind _ fun a => ?_
      refine Call.Follows.bind (follows_readInode a) fun m => ?_
      exact Call.Follows.bind Call.Follows.require fun _ => Call.Follows.pure _
    · exact Call.Follows.pure _
  · exact Call.Follows.fail _

theorem follows_stepDir (name : CStr) (b : BlockNo) :
    Call.Follows (SameFs fs) (stepDir flatStore dev p readlink fuel name b)
      (stepDir flatStore dev p readlink' fuel name b) := by
  rw [stepDir, stepDir]
  refine Call.Follows.bind (follows_enterDir hl b) fun a => ?_
  refine Call.Follows.bind Call.Follows.require fun _ => ?_
  refine Call.Follows.bind Call.Follows.require fun _ => ?_
  refine Call.Follows.bind (follows_self (within_scanChain carries_readSector (le_refl _) name _)) fun o => ?_
  split
  · exact Call.Follows.pure _
  · exact Call.Follows.fail _

theorem follows_walk (names : List CStr) (b : BlockNo) :
    Call.Follows (SameFs fs) (walk flatStore dev p readlink fuel names b)
      (walk flatStore dev p readlink' fuel names b) := by
  induction names generalizing b with
  | nil => exact Call.Follows.pure b
  | cons name names ih =>
      rw [walk, walk]
      exact Call.Follows.bind (follows_stepDir hl name b) fun a => ih a.1

theorem follows_finishGet (doReadlink : Bool) (mode : InodeMode) (n : Inode) :
    Call.Follows (SameFs fs) (finishGet flatStore dev p readlink doReadlink mode n)
      (finishGet flatStore dev p readlink' doReadlink mode n) := by
  have hend : ∀ n : Inode, Call.Follows (SameFs fs)
      (do
        Call.require (inodeCheckPermissions n p mode) .fail
        pure n : NameM Disk Inode)
      (do
        Call.require (inodeCheckPermissions n p mode) .fail
        pure n : NameM Disk Inode) :=
    fun n => Call.Follows.bind Call.Follows.require fun _ => Call.Follows.pure _
  rw [finishGet, finishGet]
  split
  · exact hl.bind n.self fun a => Call.Follows.bind (follows_readInode a) hend
  · exact hend n

/-- The components below the root. -/
theorem follows_getBelow (doReadlink : Bool) (mode : InodeMode) (names : List CStr) (n : Inode) :
    Call.Follows (SameFs fs) (getBelow flatStore dev p readlink fuel doReadlink mode names n)
      (getBelow flatStore dev p readlink' fuel doReadlink mode names n) := by
  rw [getBelow.eq_def, getBelow.eq_def]
  split
  · exact Call.Follows.fail _
  · split
    · exact Call.Follows.pure _
    · exact Call.Follows.fail _
  · refine Call.Follows.bind (follows_walk hl _ _) fun b => ?_
    refine Call.Follows.bind (follows_stepDir hl _ b) fun a => ?_
    exact follows_finishGet hl doReadlink mode a.2

end Links

/-- Making a path absolute does not change anything. -/
theorem krealpath_state {s s' : Names Disk} {cwd : BlockNo} {path : CStr}
    {r : Except InodeRtvl CStr} (h : krealpath flatStore dev root fuel cwd path s = some (r, s')) :
    s' = s := by
  have hread : ∀ b, Call.Within Eq (readSector flatStore dev b : NameM Disk Sector)
      (readSector flatStore dev b) := by
    intro b s r s' h
    cases h
    exact ⟨rfl, rfl⟩
  exact (within_krealpath hread (le_refl _) cwd path _ _ _ h).2.symm

/-- A link needs what the path that is stored in it needs. -/
theorem NeedsLink.of_target {b c : BlockNo}
    (h : ∀ s : Names Disk, s.fs = fs → PathNeedsLink dev p now s b
      (linkAt (fs.store dev) (inodeAt (fs.store dev) b).next) true .dontCheckPerms c) :
    NeedsLink dev p now fs b c := by
  rintro root - fuel s s' a rfl hrun
  by_contra hne
  rw [kreadlink, Call.modify_bind_apply, Call.get_bind_apply] at hrun
  split at hrun
  · cases hrun
    exact hne rfl
  · obtain ⟨a', ha, hok⟩ := Call.recover_eq_some hrun
    cases ha
    obtain ⟨n, s₁, hn, -⟩ := Call.bind_eq_ok.mp (hok hne)
    obtain ⟨inode, t, hread, hn⟩ := Call.bind_eq_ok.mp hn
    cases hread
    obtain ⟨-, hn⟩ := Call.require_bind_eq_ok.mp hn
    obtain ⟨link, t, hread, hn⟩ := Call.bind_eq_ok.mp hn
    cases hread
    obtain ⟨abs, t, hreal, hn⟩ := Call.bind_eq_ok.mp hn
    rw [krealpath_state hreal] at hn
    exact h ⟨s.fs, s.nrRecursion + 1⟩ rfl fuel n s₁ hn

/-- A lookup below a root that succeeds, taken apart. -/
theorem getFrom_eq_ok {readlink : BlockNo → NameM Disk BlockNo} {cwd : BlockNo} {path : CStr}
    {doReadlink : Bool} {mode : InodeMode} {n : Inode} {s s' : Names Disk} :
    getFrom flatStore dev p now root readlink fuel cwd path doReadlink mode s =
        some (.ok n, s') ↔
      path.length ≤ maxPath ∧ ∃ abs inode s₁,
        krealpath flatStore dev root fuel cwd path s = some (.ok abs, s) ∧
        rootInode flatStore dev now root s = some (.ok inode, s₁) ∧
        getBelow flatStore dev p readlink fuel doReadlink mode (components abs) inode s₁ =
          some (.ok n, s') := by
  rw [getFrom_eq]
  constructor
  · intro h
    obtain ⟨hlen, hreal⟩ := Call.require_bind_eq_ok.mp h
    obtain ⟨abs, s₁, habs, hrest⟩ := Call.bind_eq_ok.mp hreal
    obtain ⟨inode, s₂, hinode, hbelow⟩ := Call.bind_eq_ok.mp hrest
    have heq := krealpath_state habs
    subst heq
    exact ⟨hlen, abs, inode, s₂, habs, hinode, hbelow⟩
  · rintro ⟨hlen, abs, inode, s₁, habs, hinode, h⟩
    rw [Call.bind_of_ok (Call.require_of_pos hlen), Call.bind_of_ok habs, Call.bind_of_ok hinode, h]

/-- **Following a link** with the one lookup or the other. -/
theorem follows_kreadlink {get get' : BlockNo → CStr → NameM Disk Inode}
    (hget : ∀ b path, Call.Follows (SameFs fs) (get b path) (get' b path)) :
    LinkFollows fs (kreadlink flatStore dev root fuel get) (kreadlink flatStore dev root fuel get') := by
  intro b a s s' hs h hne
  rw [kreadlink, Call.modify_bind_apply, Call.get_bind_apply] at h ⊢
  split at h
  · cases h
    exact absurd rfl hne
  · rename_i hlimit
    rw [if_neg hlimit]
    have htarget : Call.Follows (SameFs fs) (linkTarget flatStore dev root fuel get b)
        (linkTarget flatStore dev root fuel get' b) := by
      rw [linkTarget, linkTarget]
      refine Call.Follows.bind (follows_readInode b) fun n => ?_
      refine Call.Follows.bind Call.Follows.require fun _ => ?_
      refine Call.Follows.bind (follows_self (within_readLink carries_readSector _)) fun l => ?_
      refine Call.Follows.bind (follows_self
        (within_krealpath carries_readSector (le_refl _) b _)) fun _ => ?_
      exact hget b _
    obtain ⟨a', ha, hrun⟩ := Call.recover_eq_some h
    cases ha
    obtain ⟨n, s₁, hn, hrest⟩ := Call.bind_eq_ok.mp (hrun hne)
    obtain ⟨_, hn', rfl, hs₁⟩ := htarget { s with nrRecursion := s.nrRecursion + 1 } _ ⟨rfl, hs⟩ n s₁ hn
    cases hrest
    exact ⟨Call.recover_of_ok (Call.bind_eq_ok.mpr ⟨n, s₁, hn', rfl⟩), hs₁⟩

/-- No lookup with `fuel` rounds gets through the link `b`. -/
def Unresolved (dev : DevNo) (p : Cred) (now root : BlockNo) (fs : FsState Disk) (fuel : ℕ)
    (b : BlockNo) : Prop :=
  ∀ s s' a, s.fs = fs → kreadlink flatStore dev root fuel (fun cwd path =>
    inodeGet flatStore dev p now fuel cwd path true .dontCheckPerms) b s = some (.ok a, s') →
    a = inodeNull

/-- Links can be followed without a link that no lookup gets through. -/
theorem follows_avoidLink {c : BlockNo} (hc : Unresolved dev p now root fs fuel c)
    (hget : ∀ b path, Call.Follows (SameFs fs)
      (inodeGet flatStore dev p now fuel b path true .dontCheckPerms)
      (inodeGetAvoid flatStore dev c p now fuel b path true .dontCheckPerms)) :
    LinkFollows fs
      (kreadlink flatStore dev root fuel fun cwd path =>
        inodeGet flatStore dev p now fuel cwd path true .dontCheckPerms)
      (avoidLink c (kreadlink flatStore dev root fuel fun cwd path =>
        inodeGetAvoid flatStore dev c p now fuel cwd path true .dontCheckPerms)) := by
  intro b a s s' hs h hne
  rw [avoidLink]
  split
  · rename_i hbc
    subst hbc
    exact absurd (hc s s' a hs h) hne
  · exact follows_kreadlink hget b a s s' hs h hne

section Rooted
variable (hmount : rootBlock dev fs = some root)
include hmount

/-- **A lookup can do without a link** that no lookup with fewer rounds gets through. -/
theorem follows_inodeGet (hroot : (inodeAt (fs.store dev) root).name = [slash]) {c : BlockNo}
    (hc : ∀ f < fuel, Unresolved dev p now root fs f c) (cwd : BlockNo) (path : CStr)
    (doReadlink : Bool) (mode : InodeMode) :
    Call.Follows (SameFs fs) (inodeGet flatStore dev p now fuel cwd path doReadlink mode)
      (inodeGetAvoid flatStore dev c p now fuel cwd path doReadlink mode) := by
  induction fuel generalizing cwd path doReadlink mode with
  | zero => exact Call.Follows.loop
  | succ fuel ih =>
      have hget := ih fun f hf => hc f (Nat.lt_succ_of_lt hf)
      have hlinks := follows_avoidLink (hc fuel (Nat.lt_succ_self _)) fun b path =>
        hget b path true .dontCheckPerms
      rintro s _ ⟨rfl, hs⟩ n s' h
      have hmounted : (ofOption (some root) : NameM Disk BlockNo) s = some (.ok root, s) := rfl
      rw [inodeGet, Call.get_bind_apply, hs, hmount, Call.bind_of_ok hmounted, getFrom_eq] at h
      rw [inodeGetAvoid, Call.get_bind_apply, hs, hmount, Call.bind_of_ok hmounted, getFrom_eq]
      refine Call.Follows.bind Call.Follows.require (fun _ => ?_) s s ⟨rfl, hs⟩ n s' h
      refine Call.Follows.bind (follows_self (within_krealpath carries_readSector (le_refl _) cwd
        path)) fun abs => ?_
      refine Call.Follows.bind (follows_self (within_carries_iff.mpr (keepsFs_rootInode hroot)))
        fun root => ?_
      exact follows_getBelow hlinks doReadlink mode (components abs) root

/-- **No link on a cycle resolves**, with any number of rounds. -/
theorem OnCycle.unresolved (hroot : (inodeAt (fs.store dev) root).name = [slash]) {b : BlockNo}
    (h : OnCycle dev p now fs b) (fuel : ℕ) : Unresolved dev p now root fs fuel b := by
  induction fuel using Nat.strong_induction_on generalizing b with
  | _ fuel ih =>
      intro s s' a hs hrun
      by_contra hne
      -- The next link on the cycle, which leads back to this one.
      obtain ⟨c, hbc, hcb⟩ := Relation.TransGen.head'_iff.mp h
      have hc : OnCycle dev p now fs c := Relation.TransGen.tail' hcb hbc
      have hget := fun cwd path => follows_inodeGet hmount hroot (fun f hf => ih f hf hc) cwd path
        true .dontCheckPerms
      obtain ⟨hrun', _⟩ := follows_kreadlink hget b a s s' hs hrun hne
      exact hne (hbc root hmount fuel s s' a hs hrun')

end Rooted

/-- **A lookup that needs a link on a cycle does not succeed.** -/
theorem OnCycle.not_ok {s s' : Names Disk} {b cwd : BlockNo} {path : CStr} {doReadlink : Bool}
    {mode : InodeMode} {n : Inode} (h : OnCycle dev p now (rootedFs dev now s) b)
    (hneeds : PathNeedsLink dev p now s cwd path doReadlink mode b) :
    inodeGet flatStore dev p now fuel cwd path doReadlink mode s ≠ some (.ok n, s') := by
  intro hrun
  cases fuel with
  | zero => cases hrun
  | succ fuel =>
      refine hneeds (fuel + 1) n s' ?_
      rw [inodeGet, Call.get_bind_apply] at hrun
      rw [inodeGetAvoid, Call.get_bind_apply]
      rcases hmount : rootBlock dev s.fs with _ | root
      · rw [hmount] at hrun
        cases hrun
      have hmounted : (ofOption (some root) : NameM Disk BlockNo) s = some (.ok root, s) := rfl
      rw [hmount, Call.bind_of_ok hmounted] at hrun
      rw [Call.bind_of_ok hmounted]
      obtain ⟨hlen, abs, inode, s₁, habs, hinode, hrun⟩ := getFrom_eq_ok.mp hrun
      obtain ⟨r, t, hrooted, hmade⟩ := @rootInode_ends dev root now s
      rw [hinode] at hrooted
      cases hrooted
      obtain ⟨_, hmount₁, hn, hname, _⟩ := hmade inode rfl
      rw [hmount] at hmount₁
      rw [hn] at hname
      have hfs : rootedFs dev now s = s₁.fs := by
        rw [rootedFs, hmount]
        dsimp only
        rw [hinode]
      rw [hfs] at h
      have hnone := h.unresolved hmount₁ hname
      have hlinks := follows_avoidLink (hnone fuel) fun b path =>
        follows_inodeGet hmount₁ hname (fun f (_ : f < fuel) => hnone f) b path true .dontCheckPerms
      obtain ⟨_, hrun', rfl, _⟩ := follows_getBelow hlinks doReadlink mode (components abs) inode
        s₁ s₁ ⟨rfl, rfl⟩ n s' hrun
      exact getFrom_eq_ok.mpr ⟨hlen, abs, inode, s₁, habs, hinode, hrun'⟩

/-- **Lookups end, and cycles are noticed.** From a counter of 0 on a file system with finite
directories, whatever its links say, a lookup ends, in the same way with any number of rounds
from `lookupRounds` on; and it does not succeed if it needs a link that is on a cycle. -/
theorem inodeGet_cycles (dev : DevNo) (p : Cred) (now : BlockNo) {s : Names Disk}
    (hcount : s.nrRecursion = 0)
    (hfin : ∀ root, rootBlock dev s.fs = some root →
      (inodeAt (s.fs.store dev) root).name = [slash] → ∃ N, FiniteDirs (s.fs.store dev) root N)
    (cwd : BlockNo) (path : CStr) (doReadlink : Bool) (mode : InodeMode) :
    ∃ r s', (∀ fuel ≥ lookupRounds,
        inodeGet flatStore dev p now fuel cwd path doReadlink mode s = some (r, s')) ∧
      ((∃ b, OnCycle dev p now (rootedFs dev now s) b ∧
        PathNeedsLink dev p now s cwd path doReadlink mode b) → ∀ n, r ≠ .ok n) := by
  have hends : inodeGet flatStore dev p now lookupRounds cwd path doReadlink mode s ≠ none :=
    inodeGet_ends hcount hfin (le_refl _) cwd path doReadlink mode
  obtain ⟨⟨r, s'⟩, hrun⟩ := Option.ne_none_iff_exists'.mp hends
  refine ⟨r, s', fun fuel hfuel => (within_inodeGet hfuel cwd path doReadlink mode _ _ _ hrun).1, ?_⟩
  rintro ⟨b, hcycle, hneeds⟩ n rfl
  exact hcycle.not_ok hneeds hrun

end Cycles

/-- A tree has finite directories. -/
theorem Shaped.finiteDirs {root : BlockNo} {T : Tree} {d : Dev} (h : Shaped root T d) :
    FiniteDirs d root T.nodes := by
  constructor
  · exact h.rootMem
  · intro b hb
    rw [(h.node b hb).self]
    exact hb
  · intro b hb hdir
    refine ⟨T.chain b, (h.node b hb).linked_dir hdir, fun e he hne => ?_⟩
    exact ((h.node b hb).entries hdir e ⟨hne, mem_dirSlots.mp he⟩).1

/-! ## A link to itself -/

section Flat
variable {p : Cred} {now cwd : BlockNo} {fuel : ℕ} {nr : Int32} {target : CStr} {s' : Names Disk}

/-- The path of the link needs it. -/
theorem inodeGetAvoid_symVolume {mode : InodeMode} {n : Inode} :
    inodeGetAvoid flatStore 0 4101 p now fuel cwd [slash, 115] true mode ⟨symVolume target, nr⟩ ≠
      some (.ok n, s') := by
  intro h
  cases fuel with
  | zero => cases h
  | succ fuel =>
      have hmounted : (ofOption (some 4100) : NameM Disk BlockNo) ⟨symVolume target, nr⟩ =
          some (.ok 4100, ⟨symVolume target, nr⟩) := rfl
      rw [inodeGetAvoid, Call.get_bind_apply, symVolume_rootBlock, Call.bind_of_ok hmounted] at h
      -- One more round, so that the search of the root ends.
      obtain ⟨hmore, -⟩ := within_getFrom (fun b => within_anyStates _) (Nat.le_succ fuel)
        (fun b => within_anyStates _) (within_anyStates _) _ _ _ _ _ _ _ h
      rw [getFrom_symVolume (Nat.le_add_left ..), finishGet_symS, avoidLink, if_pos rfl,
        Call.pure_bind_apply, Call.bind_of_error (Call.require_of_neg (by decide))] at hmore
      cases hmore

theorem onCycle_symVolume : OnCycle 0 p now (symVolume [slash, 115]) 4101 := by
  refine Relation.TransGen.single (NeedsLink.of_target ?_)
  rintro ⟨fs, nr⟩ hfs fuel n s' h
  have hself : symS.self = 4101 := rfl
  have hnext : symS.next = 6149 := rfl
  have hnode : inodeAt ((symVolume [slash, 115]).store 0) 4101 = symS := by
    rw [← hself]
    exact (symVolume_ok [slash, 115]).node List.mem_cons_self
  have hlink : linkAt ((symVolume [slash, 115]).store 0) 6149 = [slash, 115] :=
    (symVolume_ok [slash, 115]).linkAt_eq List.mem_cons_self (.of_all (by decide) (by decide))
  rw [hnode, hnext, hlink] at h
  have hfs : fs = symVolume [slash, 115] := hfs
  subst hfs
  exact inodeGetAvoid_symVolume h

/-- The link to itself is not found. -/
theorem inodeGet_cycles_self :
    ∃ r s', (∀ fuel ≥ lookupRounds, inodeGet flatStore 0 ⟨0, 0⟩ 0 fuel 4100 [slash, 115] true
        .dontCheckPerms ⟨symVolume [slash, 115], 0⟩ = some (r, s')) ∧ ∀ n, r ≠ .ok n := by
  have hfin : ∀ root, rootBlock 0 (symVolume [slash, 115]) = some root →
      (inodeAt ((symVolume [slash, 115]).store 0) root).name = [slash] →
      ∃ N, FiniteDirs ((symVolume [slash, 115]).store 0) root N := by
    intro root hmount _
    rw [symVolume_rootBlock] at hmount
    cases hmount
    exact ⟨_, (symVolume_ok [slash, 115]).shaped.finiteDirs⟩
  have hrooted : rootedFs 0 0 ⟨symVolume [slash, 115], 0⟩ = symVolume [slash, 115] := by
    have hmount := symVolume_rootBlock [slash, 115]
    have hname := symVolume_rootName [slash, 115]
    generalize symVolume [slash, 115] = fs at *
    rw [rootedFs, hmount]
    dsimp only
    rw [rootInode_flat (s := ⟨fs, 0⟩) hname]
  have hcycle : OnCycle 0 ⟨0, 0⟩ 0 (rootedFs 0 0 ⟨symVolume [slash, 115], 0⟩) 4101 := by
    rw [hrooted]
    exact onCycle_symVolume
  obtain ⟨r, s', hend, hnot⟩ := inodeGet_cycles 0 ⟨0, 0⟩ 0 (s := ⟨symVolume [slash, 115], 0⟩) rfl hfin
    4100 [slash, 115] true .dontCheckPerms
  exact ⟨r, s', hend, hnot ⟨4101, hcycle, fun _ _ _ => inodeGetAvoid_symVolume⟩⟩

end Flat

end OxKernel.Fs
