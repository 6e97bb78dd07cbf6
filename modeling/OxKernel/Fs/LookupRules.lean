import OxKernel.Fs.Lookup

/-!
# Rules for lookups

What a lookup does to the state comes from what its reads do, from the making of the root
and from the links it follows. `R` relates the state after a step to the one before; if the
steps keep to it, a lookup does. The lookups on both sides may follow links in different
ways, as long as one way ends where the other one does, and one may have more rounds.

## Main definitions

* `within_getFrom` — the rule for a lookup below a root.
* `within_kreadlink` — the rule for a link, if `R` does not look at the counter.
-/
namespace OxKernel.Fs

open Lib (Call)

section Rules
variable {σ : Type} {L : BlockLayer σ} {dev : DevNo} {root now : BlockNo} {p : Cred}
  {R : Names σ → Names σ → Prop} [Std.Refl R] [IsTrans (Names σ) R]

omit [IsTrans (Names σ) R] in
theorem within_ofOption {α : Type} (o : Option α) :
    Call.Within R (ofOption o : NameM σ α) (ofOption o) := by
  cases o with
  | none => exact Call.Within.fail _
  | some a => exact Call.Within.pure a

section Reads
variable (hread : ∀ b, Call.Within R (readSector L dev b) (readSector L dev b))
include hread

theorem within_readInode (b : BlockNo) : Call.Within R (readInode L dev b) (readInode L dev b) :=
  Call.Within.bind (hread b) fun _ => Call.Within.pure _

theorem within_readBmap (b : BlockNo) : Call.Within R (readBmap L dev b) (readBmap L dev b) :=
  Call.Within.bind (hread b) fun _ => Call.Within.pure _

theorem within_readLink (b : BlockNo) : Call.Within R (readLink L dev b) (readLink L dev b) :=
  Call.Within.bind (hread b) fun _ => Call.Within.pure _

theorem within_cwdPath {fuel fuel' : ℕ} (hf : fuel ≤ fuel') (dir : BlockNo) (tmp : CStr) :
    Call.Within R (cwdPath L dev root fuel dir tmp) (cwdPath L dev root fuel' dir tmp) := by
  induction fuel generalizing fuel' dir tmp with
  | zero => exact Call.Within.loop
  | succ fuel ih =>
      obtain ⟨fuel', rfl⟩ := Nat.exists_eq_add_of_lt hf
      rw [cwdPath, cwdPath]
      split
      · exact Call.Within.pure tmp
      · refine Call.Within.bind (within_readInode hread dir) fun n => ?_
        refine Call.Within.bind (within_ofOption _) fun _ => ?_
        exact Call.Within.bind (within_ofOption _) fun _ => ih (Nat.le_add_right ..) _ _

theorem within_krealpath {fuel fuel' : ℕ} (hf : fuel ≤ fuel') (dir : BlockNo) (path : CStr) :
    Call.Within R (krealpath L dev root fuel dir path) (krealpath L dev root fuel' dir path) := by
  have hend : ∀ front : CStr, Call.Within R
      (do
        Call.require (front.length + path.length ≤ maxPath) .fail
        pure (normalize (front ++ path)) : NameM σ CStr)
      (do
        Call.require (front.length + path.length ≤ maxPath) .fail
        pure (normalize (front ++ path)) : NameM σ CStr) :=
    fun front => Call.Within.bind Call.Within.require fun _ => Call.Within.pure _
  rw [krealpath, krealpath]
  split
  · exact hend []
  · refine Call.Within.bind (within_cwdPath hread hf dir []) fun _ => ?_
    refine Call.Within.bind Call.Within.require fun _ => ?_
    exact Call.Within.bind (within_ofOption _) hend

theorem within_scanEntries (name : CStr) (bmap : BlockMap) (js : List (Fin bmapBlocks)) :
    Call.Within R (scanEntries L dev name bmap js) (scanEntries L dev name bmap js) := by
  induction js with
  | nil => exact Call.Within.pure none
  | cons j js ih =>
      rw [scanEntries]
      split
      · exact ih
      · refine Call.Within.bind (within_readInode hread _) fun n => ?_
        split
        · exact Call.Within.pure _
        · exact ih

theorem within_scanChain {fuel fuel' : ℕ} (hf : fuel ≤ fuel') (name : CStr) (next : BlockNo) :
    Call.Within R (scanChain L dev name fuel next) (scanChain L dev name fuel' next) := by
  induction fuel generalizing fuel' next with
  | zero => exact Call.Within.loop
  | succ fuel ih =>
      obtain ⟨fuel', rfl⟩ := Nat.exists_eq_add_of_lt hf
      rw [scanChain, scanChain]
      refine Call.Within.bind (within_readBmap hread next) fun bmap => ?_
      refine Call.Within.bind (within_scanEntries hread _ _ _) fun o => ?_
      split
      · exact Call.Within.pure _
      · split
        · exact Call.Within.pure _
        · exact ih (Nat.le_add_right ..) _

section Links
variable {readlink readlink' : BlockNo → NameM σ BlockNo} {fuel fuel' : ℕ} (hf : fuel ≤ fuel')
  (hl : ∀ b, Call.Within R (readlink' b) (readlink b))

include hf in
theorem within_linkTarget {get get' : BlockNo → CStr → NameM σ Inode}
    (hget : ∀ b path, Call.Within R (get' b path) (get b path)) (b : BlockNo) :
    Call.Within R (linkTarget L dev root fuel get' b) (linkTarget L dev root fuel' get b) := by
  rw [linkTarget, linkTarget]
  refine Call.Within.bind (within_readInode hread b) fun n => ?_
  refine Call.Within.bind Call.Within.require fun _ => ?_
  refine Call.Within.bind (within_readLink hread _) fun l => ?_
  exact Call.Within.bind (within_krealpath hread hf b _) fun _ => hget b _

include hf in
/-- **Following a link**, for a relation that does not look at the counter. -/
theorem within_kreadlink (hcount : ∀ s k, R s { s with nrRecursion := k })
    {get get' : BlockNo → CStr → NameM σ Inode}
    (hget : ∀ b path, Call.Within R (get' b path) (get b path)) (b : BlockNo) :
    Call.Within R (kreadlink L dev root fuel get' b) (kreadlink L dev root fuel' get b) := by
  have hmod : ∀ f : Int32 → Int32, Call.Within R
      (Call.modify fun s : Names σ => { s with nrRecursion := f s.nrRecursion } : NameM σ Unit)
      (Call.modify fun s => { s with nrRecursion := f s.nrRecursion }) :=
    fun f => Call.Within.modify fun s => hcount s _
  rw [kreadlink, kreadlink]
  refine Call.Within.bind (hmod (· + 1)) fun _ => ?_
  refine Call.Within.bind Call.Within.get fun s => ?_
  split
  · exact Call.Within.bind (hmod (· - 1)) fun _ => Call.Within.pure _
  · refine Call.Within.recover ?_ _
    refine Call.Within.bind (within_linkTarget hread hf hget b) fun n => ?_
    exact Call.Within.bind (hmod (· - 1)) fun _ => Call.Within.pure _

include hl

theorem within_enterDir (b : BlockNo) :
    Call.Within R (enterDir L dev readlink' b) (enterDir L dev readlink b) := by
  rw [enterDir, enterDir]
  refine Call.Within.bind (within_readInode hread b) fun n => ?_
  split
  · split
    · refine Call.Within.bind (hl _) fun a => ?_
      refine Call.Within.bind Call.Within.require fun _ => ?_
      refine Call.Within.bind (within_readInode hread a) fun m => ?_
      exact Call.Within.bind Call.Within.require fun _ => Call.Within.pure _
    · exact Call.Within.pure _
  · exact Call.Within.fail _

include hf in
theorem within_stepDir (name : CStr) (b : BlockNo) :
    Call.Within R (stepDir L dev p readlink' fuel name b) (stepDir L dev p readlink fuel' name b) := by
  rw [stepDir, stepDir]
  refine Call.Within.bind (within_enterDir hread hl b) fun a => ?_
  refine Call.Within.bind Call.Within.require fun _ => ?_
  refine Call.Within.bind Call.Within.require fun _ => ?_
  refine Call.Within.bind (within_scanChain hread hf name _) fun o => ?_
  split
  · exact Call.Within.pure _
  · exact Call.Within.fail _

include hf in
theorem within_walk (names : List CStr) (b : BlockNo) :
    Call.Within R (walk L dev p readlink' fuel names b) (walk L dev p readlink fuel' names b) := by
  induction names generalizing b with
  | nil => exact Call.Within.pure b
  | cons name names ih =>
      rw [walk, walk]
      exact Call.Within.bind (within_stepDir hread hf hl name b) fun a => ih a.1

theorem within_finishGet (doReadlink : Bool) (mode : InodeMode) (n : Inode) :
    Call.Within R (finishGet L dev p readlink' doReadlink mode n)
      (finishGet L dev p readlink doReadlink mode n) := by
  have hend : ∀ n : Inode, Call.Within R
      (do
        Call.require (inodeCheckPermissions n p mode) .fail
        pure n : NameM σ Inode)
      (do
        Call.require (inodeCheckPermissions n p mode) .fail
        pure n : NameM σ Inode) :=
    fun n => Call.Within.bind Call.Within.require fun _ => Call.Within.pure _
  rw [finishGet, finishGet]
  split
  · refine Call.Within.bind (hl _) fun a => ?_
    refine Call.Within.bind Call.Within.require fun _ => ?_
    exact Call.Within.bind (within_readInode hread a) hend
  · exact hend n

include hf in
theorem within_getFrom (hroot : Call.Within R (rootInode L dev now root) (rootInode L dev now root))
    (cwd : BlockNo) (path : CStr) (doReadlink : Bool) (mode : InodeMode) :
    Call.Within R (getFrom L dev p now root readlink' fuel cwd path doReadlink mode)
      (getFrom L dev p now root readlink fuel' cwd path doReadlink mode) := by
  rw [getFrom, getFrom]
  refine Call.Within.bind Call.Within.require fun _ => ?_
  refine Call.Within.bind (within_krealpath hread hf cwd path) fun path => ?_
  refine Call.Within.bind hroot fun n => ?_
  split
  · exact Call.Within.fail _
  · split
    · exact Call.Within.pure _
    · exact Call.Within.fail _
  -- The last component is looked up apart from the others.
  · refine Call.Within.bind (within_walk hread hf hl _ _) fun b => ?_
    refine Call.Within.bind (within_stepDir hread hf hl _ b) fun a => ?_
    exact within_finishGet hread hl doReadlink mode a.2

end Links

end Reads

end Rules

end OxKernel.Fs
