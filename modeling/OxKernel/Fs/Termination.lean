import OxKernel.Fs.Resolve

/-!
# Lookups end

`inode_get` and `kreadlink` call each other, once for every link on a path, and only the
counter of `kreadlink` limits this. A lookup ends on every file system whose directories
are finite, whatever the links say: the counter is at most `MAX_RECURSION`, it only grows
over a call, and each nested call starts with a higher one. The way up from a directory
ends by itself, since the path it makes has to fit into a buffer.

## Main definitions

* `FiniteDirs` — the directories of a device end.
* `Counting` — the counter is at least a number, and the file system is as it was.
* `lookupRounds` — a number of rounds that is enough for a lookup.
-/
namespace OxKernel.Fs

open Lib (Call)

/-- Blocks that a lookup comes to, closed under the entries of directories, with chains that
end. -/
structure FiniteDirs (d : Dev) (root : BlockNo) (N : Set BlockNo) : Prop where
  root_mem : root ∈ N
  self : ∀ b ∈ N, (inodeAt d b).self ∈ N
  chain : ∀ b ∈ N, (inodeAt d b).isDirectory ≠ 0 → ∃ ms, Linked d (inodeAt d b).next ms ∧
    ∀ e ∈ dirSlots d ms, e ≠ inodeNull → e ∈ N

/-- A chain is no longer than there are block numbers. -/
theorem Linked.length_le {d : Dev} {next : BlockNo} {ms : List BlockNo} (h : Linked d next ms) :
    ms.length ≤ 2 ^ 32 := by
  have hnodup : (ms.map UInt32.toNat).Nodup := h.nodup.map fun _ _ he => UInt32.toNat_inj.mp he
  have hsub : (ms.map UInt32.toNat).toFinset ⊆ Finset.range (2 ^ 32) := by
    intro n hn
    obtain ⟨b, _, rfl⟩ := List.mem_map.mp (List.mem_toFinset.mp hn)
    exact Finset.mem_range.mpr b.toNat_lt
  have hcard := Finset.card_le_card hsub
  rwa [List.toFinset_card_of_nodup hnodup, List.length_map, Finset.card_range] at hcard

/-- `inode_get` from the root inode on. -/
def getBelow {σ : Type} (L : BlockLayer σ) (dev : DevNo) (p : Cred)
    (readlink : BlockNo → NameM σ BlockNo) (fuel : ℕ) (doReadlink : Bool) (mode : InodeMode)
    (path : List CStr) (inode : Inode) : NameM σ Inode :=
  match path with
  | [] => Call.fail .fail
  | [c] => if c = [] then pure inode else Call.fail .fail
  | _ :: name :: names => do
    let parent ← walk L dev p readlink fuel (name :: names).dropLast inode.self
    let a ← stepDir L dev p readlink fuel ((name :: names).getLast (List.cons_ne_nil _ _)) parent
    finishGet L dev p readlink doReadlink mode a.2

theorem getFrom_eq {σ : Type} (L : BlockLayer σ) (dev : DevNo) (p : Cred) (now root : BlockNo)
    (readlink : BlockNo → NameM σ BlockNo) (fuel : ℕ) (cwd : BlockNo) (path : CStr)
    (doReadlink : Bool) (mode : InodeMode) :
    getFrom L dev p now root readlink fuel cwd path doReadlink mode = (do
      Call.require (path.length ≤ maxPath) .fail
      let path ← krealpath L dev root fuel cwd path
      let inode ← rootInode L dev now root
      getBelow L dev p readlink fuel doReadlink mode (components path) inode) := rfl

section Ends
variable {dev : DevNo} {root now : BlockNo} {N : Set BlockNo} {fs : FsState Disk} {p : Cred}
  {P : Names Disk → Prop} {fuel : ℕ}

/-! ## Absolute paths -/

theorem ends_readInode (b : BlockNo) (hP : ∀ s, P s → s.fs = fs) :
    Call.Ends P (readInode flatStore dev b) fun n => n = inodeAt (fs.store dev) b := by
  intro s hs
  refine ⟨_, s, readInode_flat .., hs, ?_⟩
  intro n hn
  cases hn
  rw [hP s hs]

theorem ends_readLink (b : BlockNo) :
    Call.Ends P (readLink flatStore dev b : NameM Disk Link) fun _ => True :=
  fun s hs => ⟨_, s, readLink_flat .., hs, fun _ _ => trivial⟩

theorem ends_ofOption {α : Type} (o : Option α) :
    Call.Ends P (ofOption o : NameM Disk α) fun a => o = some a := by
  cases o with
  | none => exact Call.Ends.fail _
  | some a => exact Call.Ends.pure rfl

theorem pushFront_length {dst src s : CStr} (h : pushFront dst src = some s) :
    s.length = src.length + dst.length ∧ s.length ≤ maxPath := by
  rw [pushFront] at h
  split at h
  · cases h
  · rename_i hle
    cases h
    rw [List.length_append]
    exact ⟨rfl, by omega⟩

/-- **The way up ends**: every round makes the path longer, and it has to fit. -/
theorem ends_cwdPath (dir : BlockNo) (tmp : CStr) (htmp : tmp.length ≤ maxPath)
    (hfuel : maxPath < fuel + tmp.length) (hP : ∀ s, P s → s.fs = fs) :
    Call.Ends P (cwdPath flatStore dev root fuel dir tmp) fun _ => True := by
  induction fuel generalizing dir tmp with
  | zero => omega
  | succ fuel ih =>
      rw [cwdPath]
      split
      · exact Call.Ends.pure trivial
      · refine Call.Ends.bind (ends_readInode dir hP) fun n _ => ?_
        refine Call.Ends.bind (ends_ofOption _) fun tmp₁ h₁ => ?_
        refine Call.Ends.bind (ends_ofOption _) fun tmp₂ h₂ => ?_
        obtain ⟨hlen₁, _⟩ := pushFront_length h₁
        obtain ⟨hlen₂, hle₂⟩ := pushFront_length h₂
        rw [List.length_singleton] at hlen₂
        exact ih _ _ hle₂ (by omega)

theorem ends_krealpath (dir : BlockNo) (path : CStr) (hfuel : maxPath < fuel)
    (hP : ∀ s, P s → s.fs = fs) :
    Call.Ends P (krealpath flatStore dev root fuel dir path) fun _ => True := by
  have hend : ∀ front : CStr, Call.Ends P
      (do
        Call.require (front.length + path.length ≤ maxPath) .fail
        pure (normalize (front ++ path)) : NameM Disk CStr) fun _ => True :=
    fun front => Call.Ends.bind Call.Ends.require fun _ _ => Call.Ends.pure trivial
  rw [krealpath]
  split
  · exact hend []
  · refine Call.Ends.bind (ends_cwdPath dir [] (Nat.zero_le _) (by simpa using hfuel) hP) fun _ _ => ?_
    refine Call.Ends.bind Call.Ends.require fun _ _ => ?_
    exact Call.Ends.bind (ends_ofOption _) fun front _ => hend front

/-! ## Directories -/

/-- An inode of one of the blocks. -/
def NodeOf (d : Dev) (N : Set BlockNo) (n : Inode) : Prop := ∃ b ∈ N, n = inodeAt d b

/-- **A search ends.** -/
theorem ends_scanChain (hN : FiniteDirs (fs.store dev) root N) {b : BlockNo} (hb : b ∈ N)
    (hdir : (inodeAt (fs.store dev) b).isDirectory ≠ 0)
    (hnext : (inodeAt (fs.store dev) b).next ≠ inodeNull) (name : CStr) (hfuel : 2 ^ 32 ≤ fuel)
    (hP : ∀ s, P s → s.fs = fs) :
    Call.Ends P (scanChain flatStore dev name fuel (inodeAt (fs.store dev) b).next) fun o =>
      ∀ a, o = some a → a.1 ∈ N ∧ a.2 = inodeAt (fs.store dev) a.1 := by
  intro s hs
  have hfs := hP s hs
  obtain ⟨ms, hlinked, hent⟩ := hN.chain b hb hdir
  have hms : ms ≠ [] := fun h0 => hnext (hlinked.nil_iff.mpr h0)
  rw [← hfs] at hlinked hent ⊢
  have hscan := (scanChain_flat name fuel hlinked hms).resolve_left
    fun hc => absurd hc.2 (Nat.not_lt.mpr (hlinked.length_le.trans hfuel))
  refine ⟨_, s, hscan, hs, ?_⟩
  intro o ho a ha
  cases ho
  obtain ⟨e, he, rfl⟩ := Option.map_eq_some_iff.mp ha
  have hprop := List.find?_some he
  rw [decide_eq_true_eq] at hprop
  exact ⟨hent e (List.mem_of_find?_eq_some he) hprop.1, rfl⟩

section Links
variable {readlink : BlockNo → NameM Disk BlockNo}
  (hl : ∀ b ∈ N, Call.Ends P (readlink b) fun a => a ≠ inodeNull → a ∈ N)
  (hN : FiniteDirs (fs.store dev) root N) (hP : ∀ s, P s → s.fs = fs)
include hl hN hP

theorem ends_enterDir {b : BlockNo} (hb : b ∈ N) :
    Call.Ends P (enterDir flatStore dev readlink b) fun a =>
      ∃ b ∈ N, a.2 = inodeAt (fs.store dev) b ∧ a.2.isDirectory ≠ 0 := by
  rw [enterDir]
  refine Call.Ends.bind (ends_readInode b hP) fun n hn => ?_
  subst hn
  split
  · rename_i hdir
    split
    · refine Call.Ends.bind (hl _ (hN.self b hb)) fun a ha => ?_
      refine Call.Ends.bind Call.Ends.require fun _ hne => ?_
      refine Call.Ends.bind (ends_readInode a hP) fun m hm => ?_
      refine Call.Ends.bind Call.Ends.require fun _ hmdir => ?_
      exact Call.Ends.pure ⟨a, ha hne, hm, hmdir⟩
    · rename_i hsym
      exact Call.Ends.pure ⟨b, hb, rfl, hdir.resolve_right hsym⟩
  · exact Call.Ends.fail _

theorem ends_stepDir (name : CStr) {b : BlockNo} (hb : b ∈ N) (hfuel : 2 ^ 32 ≤ fuel) :
    Call.Ends P (stepDir flatStore dev p readlink fuel name b) fun a =>
      a.1 ∈ N ∧ a.2 = inodeAt (fs.store dev) a.1 := by
  rw [stepDir]
  refine Call.Ends.bind (ends_enterDir hl hN hP hb) fun a ha => ?_
  obtain ⟨c, hc, hac, hdir⟩ := ha
  rw [hac] at hdir ⊢
  refine Call.Ends.bind Call.Ends.require fun _ _ => ?_
  refine Call.Ends.bind Call.Ends.require fun _ hnext => ?_
  refine Call.Ends.bind (ends_scanChain hN hc hdir hnext name hfuel hP) fun o ho => ?_
  split
  · rename_i r
    exact Call.Ends.pure (ho r rfl)
  · exact Call.Ends.fail _

theorem ends_walk (names : List CStr) {b : BlockNo} (hb : b ∈ N) (hfuel : 2 ^ 32 ≤ fuel) :
    Call.Ends P (walk flatStore dev p readlink fuel names b) fun a => a ∈ N := by
  induction names generalizing b with
  | nil => exact Call.Ends.pure hb
  | cons name names ih =>
      rw [walk]
      exact Call.Ends.bind (ends_stepDir hl hN hP name hb hfuel) fun a ha => ih ha.1

theorem ends_finishGet (doReadlink : Bool) (mode : InodeMode) {b : BlockNo} (hb : b ∈ N) :
    Call.Ends P (finishGet flatStore dev p readlink doReadlink mode (inodeAt (fs.store dev) b))
      (NodeOf (fs.store dev) N) := by
  have hend : ∀ c ∈ N, Call.Ends P
      (do
        Call.require (inodeCheckPermissions (inodeAt (fs.store dev) c) p mode) .fail
        pure (inodeAt (fs.store dev) c) : NameM Disk Inode) (NodeOf (fs.store dev) N) :=
    fun c hc => Call.Ends.bind Call.Ends.require fun _ _ => Call.Ends.pure ⟨c, hc, rfl⟩
  rw [finishGet]
  split
  · refine Call.Ends.bind (hl _ (hN.self b hb)) fun a ha => ?_
    refine Call.Ends.bind Call.Ends.require fun _ hne => ?_
    refine Call.Ends.bind (ends_readInode a hP) fun m hm => ?_
    subst hm
    exact hend a (ha hne)
  · exact hend b hb

/-- The components below the root. -/
theorem ends_getBelow (doReadlink : Bool) (mode : InodeMode) (names : List CStr)
    (hfuel : 2 ^ 32 ≤ fuel) :
    Call.Ends P (getBelow flatStore dev p readlink fuel doReadlink mode names
      (inodeAt (fs.store dev) root)) (NodeOf (fs.store dev) N) := by
  have hroot := hN.root_mem
  rw [getBelow.eq_def]
  split
  · exact Call.Ends.fail _
  · split
    · exact Call.Ends.pure ⟨root, hroot, rfl⟩
    · exact Call.Ends.fail _
  · refine Call.Ends.bind (ends_walk hl hN hP _ (hN.self root hroot) hfuel) fun b hb => ?_
    refine Call.Ends.bind (ends_stepDir hl hN hP _ hb hfuel) fun a ha => ?_
    rw [ha.2]
    exact ends_finishGet hl hN hP doReadlink mode ha.1

end Links

/-! ## Links -/

/-- The file system is `fs`, and the counter is between `k` and the limit. -/
structure Counting (fs : FsState Disk) (k : ℤ) (s : Names Disk) : Prop where
  fs_eq : s.fs = fs
  le : k ≤ s.nrRecursion.toInt
  limit : s.nrRecursion.toInt ≤ 1024

theorem Int32.toInt_add_one {x : Int32} (h0 : 0 ≤ x.toInt) (h1 : x.toInt ≤ 1024) :
    (x + 1).toInt = x.toInt + 1 := by
  rw [Int32.toInt_add, show (1 : Int32).toInt = 1 from rfl, Int.bmod_eq_of_le]
  all_goals omega

theorem Int32.toInt_sub_one {x : Int32} (h0 : 0 < x.toInt) (h1 : x.toInt ≤ 1024) :
    (x - 1).toInt = x.toInt - 1 := by
  rw [Int32.toInt_sub, show (1 : Int32).toInt = 1 from rfl, Int.bmod_eq_of_le]
  all_goals omega

/-- **Following a link ends**, if the lookup of its path does with a higher counter. -/
theorem ends_kreadlink {get : BlockNo → CStr → NameM Disk Inode} {k : ℤ} (hk : 0 ≤ k)
    (hN : FiniteDirs (fs.store dev) root N) (hfuel : maxPath < fuel)
    (hget : k < 1024 → ∀ b path, Call.Ends (Counting fs (k + 1)) (get b path)
      (NodeOf (fs.store dev) N)) (b : BlockNo) :
    Call.Ends (Counting fs k) (kreadlink flatStore dev root fuel get b) fun a =>
      a ≠ inodeNull → a ∈ N := by
  intro s hs
  have hnr := hs.le
  have hlimit := hs.limit
  have hone := Int32.toInt_add_one (by omega) hlimit
  rw [kreadlink, Call.modify_bind_apply, Call.get_bind_apply]
  split
  · rename_i hover
    refine ⟨.ok inodeNull, s, ?_, hs, ?_⟩
    · show some (Except.ok inodeNull, { s with nrRecursion := s.nrRecursion + 1 - 1 }) = _
      rw [Int32.add_sub_cancel]
    · intro a ha hne
      cases ha
      exact absurd rfl hne
  · rename_i hover
    have hle : s.nrRecursion.toInt + 1 ≤ 1024 := by
      rw [Int32.lt_iff_toInt_lt, not_lt] at hover
      rw [← hone]
      exact hover
    have htarget : Call.Ends (Counting fs (k + 1)) (linkTarget flatStore dev root fuel get b)
        (NodeOf (fs.store dev) N) := by
      rw [linkTarget]
      refine Call.Ends.bind (ends_readInode b fun _ h => h.fs_eq) fun n _ => ?_
      refine Call.Ends.bind Call.Ends.require fun _ _ => ?_
      refine Call.Ends.bind (ends_readLink _) fun l _ => ?_
      refine Call.Ends.bind (ends_krealpath b _ hfuel fun _ h => h.fs_eq) fun _ _ => ?_
      exact hget (by omega) b _
    obtain ⟨r, s₁, hrun, hs₁, hnode⟩ := htarget { s with nrRecursion := s.nrRecursion + 1 }
      ⟨hs.fs_eq, by rw [hone]; omega, by rw [hone]; exact hle⟩
    have hle₁ := hs₁.le
    have hlimit₁ := hs₁.limit
    cases r with
    | error e =>
        refine ⟨_, s₁, Call.recover_of_error (Call.bind_of_error hrun), ⟨hs₁.fs_eq, by omega, hlimit₁⟩, ?_⟩
        intro a ha hne
        cases ha
        exact absurd rfl hne
    | ok n =>
        have hsub := Int32.toInt_sub_one (x := s₁.nrRecursion) (by omega) hlimit₁
        refine ⟨_, _, Call.recover_of_ok (Call.bind_eq_ok.mpr ⟨n, s₁, hrun, rfl⟩),
          ⟨hs₁.fs_eq, ?_, ?_⟩, ?_⟩
        · show k ≤ (s₁.nrRecursion - 1).toInt
          omega
        · show (s₁.nrRecursion - 1).toInt ≤ 1024
          omega
        · intro a ha _
          cases ha
          obtain ⟨c, hc, rfl⟩ := hnode n rfl
          exact hN.self c hc

/-! ## Lookups -/

theorem ends_rootInode (hroot : (inodeAt (fs.store dev) root).name = [slash])
    (hP : ∀ s, P s → s.fs = fs) :
    Call.Ends P (rootInode flatStore dev now root) fun n => n = inodeAt (fs.store dev) root := by
  rw [rootInode]
  refine Call.Ends.bind (ends_readInode root hP) fun n hn => ?_
  subst hn
  rw [if_pos hroot]
  exact Call.Ends.pure rfl

section Rooted
variable (hN : FiniteDirs (fs.store dev) root N) (hmount : rootBlock dev fs = some root)
  (hroot : (inodeAt (fs.store dev) root).name = [slash])
include hN hmount hroot

omit hmount hroot in
/-- The part of a lookup below the root ends if the lookups for the links on its way do. -/
theorem ends_getBelow_links {k : ℤ} (hk : 0 ≤ k) (hfuel : 2 ^ 32 ≤ fuel)
    (hget : k < 1024 → ∀ b path, Call.Ends (Counting fs (k + 1))
      (inodeGet flatStore dev p now fuel b path true .dontCheckPerms) (NodeOf (fs.store dev) N))
    (doReadlink : Bool) (mode : InodeMode) (names : List CStr) :
    Call.Ends (Counting fs k) (getBelow flatStore dev p (kreadlink flatStore dev root fuel
      fun cwd path => inodeGet flatStore dev p now fuel cwd path true .dontCheckPerms) fuel
      doReadlink mode names (inodeAt (fs.store dev) root)) (NodeOf (fs.store dev) N) := by
  have hmax : maxPath < fuel := by
    have hpath : maxPath < 2 ^ 32 := by decide
    omega
  exact ends_getBelow (fun b _ => ends_kreadlink hk hN hmax hget b) hN (fun _ h => h.fs_eq)
    doReadlink mode names hfuel

/-- A lookup ends if the lookups for the links on its way do. -/
theorem ends_inodeGet_succ {k : ℤ} (hk : 0 ≤ k) (hfuel : 2 ^ 32 ≤ fuel)
    (hget : k < 1024 → ∀ b path, Call.Ends (Counting fs (k + 1))
      (inodeGet flatStore dev p now fuel b path true .dontCheckPerms) (NodeOf (fs.store dev) N))
    (cwd : BlockNo) (path : CStr) (doReadlink : Bool) (mode : InodeMode) :
    Call.Ends (Counting fs k) (inodeGet flatStore dev p now (fuel + 1) cwd path doReadlink mode)
      (NodeOf (fs.store dev) N) := by
  have hP : ∀ s, Counting fs k s → s.fs = fs := fun _ h => h.fs_eq
  have hmax : maxPath < fuel := by
    have hpath : maxPath < 2 ^ 32 := by decide
    omega
  intro s hs
  have hmounted : (ofOption (some root) : NameM Disk BlockNo) s = some (.ok root, s) := rfl
  rw [inodeGet, Call.get_bind_apply, hs.fs_eq, hmount, Call.bind_of_ok hmounted, getFrom_eq]
  refine Call.Ends.bind Call.Ends.require (fun _ _ => ?_) s hs
  refine Call.Ends.bind (ends_krealpath cwd path hmax hP) fun abs _ => ?_
  refine Call.Ends.bind (ends_rootInode hroot hP) fun n hn => ?_
  subst hn
  exact ends_getBelow_links hN hk hfuel hget doReadlink mode (components abs)

/-- **A lookup ends** when there is a root. With the counter at `k` it needs a round for each
link until the limit. -/
theorem ends_inodeGet (m : ℕ) {k : ℤ} (hk : 0 ≤ k) (hm : 1024 ≤ k + m) (hfuel : 2 ^ 32 + m < fuel)
    (cwd : BlockNo) (path : CStr) (doReadlink : Bool) (mode : InodeMode) :
    Call.Ends (Counting fs k) (inodeGet flatStore dev p now fuel cwd path doReadlink mode)
      (NodeOf (fs.store dev) N) := by
  induction m generalizing k fuel cwd path doReadlink mode with
  | zero =>
      obtain ⟨fuel, rfl⟩ := Nat.exists_eq_add_of_lt hfuel
      refine ends_inodeGet_succ hN hmount hroot hk (Nat.le_add_right ..) ?_ cwd path doReadlink mode
      intro hlt
      omega
  | succ m ih =>
      obtain ⟨fuel, rfl⟩ : ∃ f, fuel = f + 1 := ⟨fuel - 1, by omega⟩
      refine ends_inodeGet_succ hN hmount hroot hk (by omega) ?_ cwd path doReadlink mode
      intro _ b path
      exact ih (by omega) (by omega) (by omega) b path true .dontCheckPerms

end Rooted

/-! ## Making the root -/

section Mounts
variable {σ : Type} {L : BlockLayer σ} {k : MapKind} {row : Fin inodeNrDev} {s s' s'' : FsState σ}

/-- The devices of the mount table and their roots are the same. -/
def SameMounts (s s' : FsState σ) : Prop :=
  ∀ i, (s'.masterTab i).dev = (s.masterTab i).dev ∧
    (s'.masterTab i).inodeStart = (s.masterTab i).inodeStart

theorem SameMounts.trans (h : SameMounts s s') (h' : SameMounts s' s'') : SameMounts s s'' :=
  fun i => ⟨(h' i).1.trans (h i).1, (h' i).2.trans (h i).2⟩

theorem SameMounts.rootBlock (h : SameMounts s s') (dev : DevNo) :
    Fs.rootBlock dev s' = Fs.rootBlock dev s := by
  have hget : masterGet dev s' = masterGet dev s := by
    rw [masterGet, masterGet]
    congr 1
    funext i
    rw [(h i).1]
  rw [Fs.rootBlock, Fs.rootBlock, hget]
  exact congrArg (fun f => Option.map f (masterGet dev s)) (funext fun i => (h i).2)

theorem sameMounts_setMaster {m : Master} (hdev : m.dev = (s.masterTab row).dev)
    (hstart : m.inodeStart = (s.masterTab row).inodeStart) : SameMounts s (s.setMaster row m) := by
  intro i
  by_cases hi : i = row
  · rw [hi, FsState.setMaster_masterTab]
    exact ⟨hdev, hstart⟩
  · have hrow : (s.setMaster row m).masterTab i = s.masterTab i := Function.update_of_ne hi ..
    rw [hrow]
    exact ⟨rfl, rfl⟩

theorem sameMounts_setPtr (p : BlockNo) : SameMounts s (s.setMaster row ((s.masterTab row).setPtr p k)) := by
  cases k
  · exact sameMounts_setMaster rfl rfl
  · exact sameMounts_setMaster rfl rfl

theorem sameMounts_setBit (b : BlockNo) : SameMounts s (s.setMaster row ((s.masterTab row).setBit b k)) := by
  cases k
  · exact sameMounts_setMaster rfl rfl
  · exact sameMounts_setMaster rfl rfl

theorem sameMounts_loadWindow (p : BlockNo) : SameMounts s (loadWindow L k dev row p s).2 :=
  sameMounts_setPtr p

theorem sameMounts_takeBit (a : MapScan σ) : SameMounts a.fs (takeBit L k dev row a).2.2 := by
  rw [takeBit]
  split
  · split
    · exact sameMounts_setBit a.bit
    · exact sameMounts_setBit a.bit
  · exact sameMounts_setBit a.bit

/-- What a round of the scan leaves, in both cases. -/
def MapScan.left (x : MapScan σ ⊕ GetResult σ) : FsState σ := x.elim MapScan.fs fun r => r.2.2

theorem left_next (a : MapScan σ) : MapScan.left a.next = a.fs := by
  rw [MapScan.next]
  split
  · rfl
  · rfl

theorem sameMounts_scanBlock (p : BlockNo) (pass : ℕ) :
    SameMounts s (MapScan.left (scanBlock L k dev row p pass s)) := by
  have hload : SameMounts s (loadWindow L k dev row p s).2 := sameMounts_loadWindow p
  rw [scanBlock]
  split
  · rename_i fs heq
    rw [left_next]
    rw [heq] at hload
    exact hload
  · rename_i r fs heq
    rw [heq] at hload
    exact hload

theorem sameMounts_scanBody (a : MapScan σ) :
    SameMounts a.fs (MapScan.left (scanBody L k dev row a)) := by
  have hbit : SameMounts a.fs (a.fs.setMaster row
      ((a.fs.masterTab row).setBit ((a.bit + 1) % 512) k)) := sameMounts_setBit _
  rw [scanBody]
  split
  · exact sameMounts_takeBit a
  · dsimp only
    split
    · split
      · exact hbit.trans (sameMounts_scanBlock _ _)
      · exact hbit.trans (sameMounts_scanBlock _ _)
    · rw [left_next]
      exact hbit

theorem sameMounts_initMap (checked : Bool) : SameMounts s (initMap L k checked dev row s).2 := by
  have hptr : SameMounts s (s.setMaster row
      ((s.masterTab row).setPtr ((s.masterTab row).mapStart k) k)) := sameMounts_setPtr _
  rw [initMap]
  split
  · split
    · exact fun i => ⟨rfl, rfl⟩
    · dsimp only
      split
      · exact hptr
      · rename_i i _
        have hwin : SameMounts s (s.setMaster row (((s.masterTab row).setPtr
            ((s.masterTab row).mapStart k) k).setWindow (s.windowAddr k i) k)) := by
          cases k
          · exact sameMounts_setMaster rfl rfl
          · exact sameMounts_setMaster rfl rfl
        have hload : SameMounts s (loadWindow L k dev row
            (((s.masterTab row).setPtr ((s.masterTab row).mapStart k) k).ptr k) _).2 :=
          hwin.trans (sameMounts_loadWindow _)
        split
        · rename_i heq
          rw [heq] at hload
          exact hload
        · rename_i heq
          rw [heq] at hload
          exact hload
  · exact fun i => ⟨rfl, rfl⟩

/-- **Taking a block does not move the root.** -/
theorem sameMounts_getBlock (block : BlockNo) : SameMounts s (getBlock L k dev block s).2.2 := by
  rw [getBlock]
  split
  · exact fun i => ⟨rfl, rfl⟩
  · rename_i row _
    have hinit : SameMounts s (initMap L k true dev row s).2 := sameMounts_initMap true
    dsimp only
    split
    · rename_i heq
      rw [heq] at hinit
      exact hinit
    · rename_i fs heq
      rw [heq] at hinit
      refine (scanLoop L k dev row).run_rule (P := fun a => SameMounts s a.fs)
        (Q := fun r => SameMounts s r.2.2) ?_ ?_ _ hinit
      · intro a a' ha hbody
        have hstep : SameMounts s (MapScan.left (scanBody L k dev row a)) :=
          ha.trans (sameMounts_scanBody a)
        rw [show scanBody L k dev row a = .inl a' from hbody] at hstep
        exact hstep
      · intro a r ha hbody
        have hstep : SameMounts s (MapScan.left (scanBody L k dev row a)) :=
          ha.trans (sameMounts_scanBody a)
        rw [show scanBody L k dev row a = .inr r from hbody] at hstep
        exact hstep

end Mounts

/-- A file system that has just got its root is finite. -/
theorem finiteDirs_asRoot (n : Inode) (fs : FsState Disk)
    (h : inodeAt (fs.store dev) root = n.asRoot now dev root) :
    FiniteDirs (fs.store dev) root {root} := by
  constructor
  · exact Set.mem_singleton root
  · intro b hb
    rw [Set.mem_singleton_iff.mp hb, h]
    exact Set.mem_singleton root
  · intro b hb _
    refine ⟨[], ?_, ?_⟩
    · rw [Set.mem_singleton_iff.mp hb, h]
      rfl
    · intro e he
      cases he

/-- **The root inode**: reading it, or making it, ends. If it succeeds there is a root, which
is the one that was there or one that has just been made. -/
theorem rootInode_ends (now : BlockNo) (s : Names Disk) :
    ∃ r s', rootInode flatStore dev now root s = some (r, s') ∧
      ∀ n, r = .ok n → s'.nrRecursion = s.nrRecursion ∧ rootBlock dev s'.fs = rootBlock dev s.fs ∧
        n = inodeAt (s'.fs.store dev) root ∧ n.name = [slash] ∧
        ((inodeAt (s.fs.store dev) root).name = [slash] ∧ s' = s ∨
          n = (inodeAt (s.fs.store dev) root).asRoot now dev root) := by
  by_cases hroot : (inodeAt (s.fs.store dev) root).name = [slash]
  · refine ⟨_, s, rootInode_flat hroot, ?_⟩
    intro n hn
    cases hn
    exact ⟨rfl, rfl, rfl, hroot, Or.inl ⟨hroot, rfl⟩⟩
  · rw [rootInode, Call.bind_of_ok (readInode_flat ..), if_neg hroot]
    have hmounts : SameMounts s.fs (getBlock flatStore .imap dev 0 s.fs).2.2 := sameMounts_getBlock 0
    rcases htake : getBlock flatStore .imap dev 0 s.fs with ⟨r, block, fs'⟩
    rw [htake] at hmounts
    by_cases hr : r = .ok
    · subst hr
      have hblock : takeBlock flatStore dev .imap s = some (.ok block, { s with fs := fs' }) := by
        rw [takeBlock, htake]
      rw [Call.bind_of_ok hblock]
      by_cases hb : block = root
      · rw [Call.bind_of_ok (Call.require_of_pos hb), Call.bind_of_ok (writeSector_flat ..)]
        refine ⟨_, _, rfl, ?_⟩
        intro n hn
        cases hn
        refine ⟨rfl, hmounts.rootBlock dev, ?_, ?_, Or.inr rfl⟩
        · show _ = inodeAt ((fs'.write dev root _).store dev) root
          rw [FsState.write_store, inodeAt_update]
        · exact cstr_strcpy (.of_all (by decide) (by decide))
      · rw [Call.bind_of_error (Call.require_of_neg hb)]
        exact ⟨_, _, rfl, fun n hn => by cases hn⟩
    · have hblock : takeBlock flatStore dev .imap s = some (.error .fail, { s with fs := fs' }) := by
        rw [takeBlock, htake]
        cases r with
        | ok => exact absurd rfl hr
        | _ => rfl
      rw [Call.bind_of_error hblock]
      exact ⟨_, _, rfl, fun n hn => by cases hn⟩

/-- The rounds that a lookup needs at most. -/
def lookupRounds : ℕ := 2 ^ 32 + 1026

/-- **Every lookup ends**, whatever the links say, on a file system with finite directories. -/
theorem inodeGet_ends {s : Names Disk} (hcount : s.nrRecursion = 0)
    (hfin : ∀ root, rootBlock dev s.fs = some root →
      (inodeAt (s.fs.store dev) root).name = [slash] → ∃ N, FiniteDirs (s.fs.store dev) root N)
    (hfuel : lookupRounds ≤ fuel) (cwd : BlockNo) (path : CStr) (doReadlink : Bool)
    (mode : InodeMode) :
    inodeGet flatStore dev p now fuel cwd path doReadlink mode s ≠ none := by
  obtain ⟨fuel, rfl⟩ : ∃ f, fuel = f + 1 := ⟨fuel - 1, by rw [lookupRounds] at hfuel; omega⟩
  rw [lookupRounds] at hfuel
  have hmax : maxPath < fuel := by
    have hpath : maxPath < 2 ^ 32 := by decide
    omega
  rw [inodeGet, Call.get_bind_apply]
  cases hmount : rootBlock dev s.fs with
  | none => exact Option.some_ne_none _
  | some root =>
      have hmounted : (ofOption (some root) : NameM Disk BlockNo) s = some (.ok root, s) := rfl
      rw [Call.bind_of_ok hmounted, getFrom_eq]
      by_cases hlen : path.length ≤ maxPath
      · rw [Call.bind_of_ok (Call.require_of_pos hlen)]
        have hends : Call.Ends (· = s) (krealpath flatStore dev root fuel cwd path) fun _ => True :=
          ends_krealpath cwd path hmax fun _ h => congrArg _ h
        obtain ⟨r, s₁, hreal, rfl, -⟩ := hends s rfl
        cases r with
        | error e =>
            rw [Call.bind_of_error hreal]
            exact Option.some_ne_none _
        | ok abs =>
            rw [Call.bind_of_ok hreal]
            obtain ⟨r, s₂, hrun, hmade⟩ := @rootInode_ends dev root now s₁
            cases r with
            | error e =>
                rw [Call.bind_of_error hrun]
                exact Option.some_ne_none _
            | ok n =>
                rw [Call.bind_of_ok hrun]
                obtain ⟨hnr, hmount₂, hn, hname, hmade⟩ := hmade n rfl
                rw [hmount] at hmount₂
                rw [hn] at hname
                have hN : ∃ N, FiniteDirs (s₂.fs.store dev) root N := by
                  rcases hmade with ⟨hroot, rfl⟩ | hnew
                  · exact hfin root hmount hroot
                  · exact ⟨{root}, finiteDirs_asRoot _ _ (hn.symm.trans hnew)⟩
                obtain ⟨N, hN⟩ := hN
                have hs₂ : Counting s₂.fs 0 s₂ := by
                  rw [hcount] at hnr
                  exact ⟨rfl, by rw [hnr]; decide, by rw [hnr]; decide⟩
                have hget : ∀ b path, Call.Ends (Counting s₂.fs (0 + 1))
                    (inodeGet flatStore dev p now fuel b path true .dontCheckPerms)
                    (NodeOf (s₂.fs.store dev) N) := fun b path =>
                  ends_inodeGet hN hmount₂ hname 1023 (by omega) (by omega) (by omega) b path true
                    .dontCheckPerms
                have hbelow := ends_getBelow_links hN (le_refl 0) (by omega) (fun _ => hget)
                  doReadlink mode (components abs)
                obtain ⟨r, s', hend, -, -⟩ := hbelow s₂ hs₂
                rw [hn, hend]
                exact Option.some_ne_none _
      · rw [Call.bind_of_error (Call.require_of_neg hlen)]
        exact Option.some_ne_none _

end Ends

end OxKernel.Fs
