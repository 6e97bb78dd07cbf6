import OxKernel.Fs.FileOpen
import OxKernel.Fs.Node
import Mathlib.Tactic.IntervalCases

/-!
# The law of permissions

`inode_get_mode` adds the `umask` to the permissions where it should take it away, and
`inode_set_permissions` gives it the three bits of the owner each time. What is set for a
class is what was asked for, and whatever the `umask` has for the owner; the other six bits
of the `umask` play no part.

## Main results

* `permissions_inodeSetPermissions` — the bits that are set.
* `krename_permissions` — what a rename leaves under the new name has the permissions of the old
  node: it is that node.
* `permissionLaw_iff` — when they are the ones asked for without the `umask`, for a node that is
  made and one that is changed, and for the node that a rename makes first.
-/
namespace OxKernel.Fs

open Lib (Call)

/-- The permission bits of an inode, without its type. -/
def Inode.permissions (n : Inode) : UInt32 := inodeGetPermissions n &&& (0o777 : UInt32)

/-- The bits of the owner, for the owner, the group and the world. -/
def inEveryClass (perm : UInt32) : UInt32 :=
  (perm &&& (0o700 : UInt32)) ||| (perm &&& (0o700 : UInt32)) >>> 3 |||
    (perm &&& (0o700 : UInt32)) >>> 6

/-! ## Bits -/

/-- A bit of a word. -/
def bitAt (a : UInt32) (k : ℕ) : Bool := a.toBitVec.getLsbD k

theorem eq_of_bitAt {a b : UInt32} (h : ∀ k < 32, bitAt a k = bitAt b k) : a = b :=
  UInt32.eq_of_toBitVec_eq (BitVec.eq_of_getLsbD_eq h)

@[simp] theorem bitAt_or (a b : UInt32) (k : ℕ) : bitAt (a ||| b) k = (bitAt a k || bitAt b k) := by
  simp [bitAt]

@[simp] theorem bitAt_and (a b : UInt32) (k : ℕ) :
    bitAt (a &&& b) k = (bitAt a k && bitAt b k) := by
  simp [bitAt]

theorem bitAt_not (a : UInt32) {k : ℕ} (h : k < 32) : bitAt (~~~a) k = !bitAt a k := by
  simp [bitAt, h]

/-- A shift by a class. -/
theorem bitAt_shiftLeft_three (a : UInt32) {k : ℕ} (h : k + 3 < 32) :
    bitAt (a <<< 3) (k + 3) = bitAt a k := by
  have hk : k < 32 := Nat.lt_of_add_right_lt h
  simp [bitAt, h, hk]

theorem bitAt_shiftRight (a : UInt32) (k : ℕ) :
    bitAt (a >>> 3) k = bitAt a (k + 3) ∧ bitAt (a >>> 6) k = bitAt a (k + 6) := by
  simp [bitAt, Nat.add_comm]

/-- A mask of one bit is that bit. -/
theorem mask_and_ne_zero (mask : UInt32) (k : ℕ) (h : mask.toBitVec = BitVec.twoPow 32 k)
    (hmask : mask ≠ 0) (a : UInt32) : mask &&& a ≠ 0 ↔ bitAt a k = true := by
  rw [ne_eq, ← UInt32.toBitVec_inj, UInt32.toBitVec_and, h, BitVec.twoPow_and, ← h]
  by_cases hb : a.toBitVec.getLsbD k
  · simpa [bitAt, hb, ← UInt32.toBitVec_inj] using hmask
  · simp [bitAt, hb]

/-- The flags of the mode of a permission word are its three bits for the owner. -/
theorem flags_inodeGetMode (perm umask : UInt32) :
    (inodeGetMode perm umask).flags =
      (if bitAt (perm ||| umask) 8 then 1 else 0, if bitAt (perm ||| umask) 7 then 1 else 0,
        if bitAt (perm ||| umask) 6 then 1 else 0) := by
  have hr := mask_and_ne_zero sIrusr 8 (by decide) (by decide) (perm ||| umask)
  have hw := mask_and_ne_zero sIwusr 7 (by decide) (by decide) (perm ||| umask)
  have hx := mask_and_ne_zero sIxusr 6 (by decide) (by decide) (perm ||| umask)
  simp only [inodeGetMode, hr, hw, hx]
  cases bitAt (perm ||| umask) 8 <;> cases bitAt (perm ||| umask) 7 <;>
    cases bitAt (perm ||| umask) 6 <;> rfl

/-- The bits of a permission word that stand for the flags, and those of the types of nodes
behind them. -/
theorem bitAt_masks : ∀ k < 9,
    (bitAt sIrusr k = decide (k = 8) ∧ bitAt sIwusr k = decide (k = 7) ∧
      bitAt sIxusr k = decide (k = 6)) ∧
    (bitAt sIrgrp k = decide (k = 5) ∧ bitAt sIwgrp k = decide (k = 4) ∧
      bitAt sIxgrp k = decide (k = 3)) ∧
    (bitAt sIroth k = decide (k = 2) ∧ bitAt sIwoth k = decide (k = 1) ∧
      bitAt sIxoth k = decide (k = 0)) ∧
    bitAt sIfdir k = false ∧ bitAt sIflnk k = false ∧ bitAt sIfreg k = false := by
  decide

/-- The masks of a permission word. -/
theorem bitAt_mask : ∀ k < 38, bitAt 0o777 k = decide (k < 9) ∧
    bitAt 0o700 k = decide (6 ≤ k ∧ k < 9) := by
  decide

/-- A bit of the value of a flag. -/
theorem bitAt_flagBit (b : Bool) (bit : UInt32) (k : ℕ) :
    bitAt (flagBit (if b then 1 else 0) bit) k = (b && bitAt bit k) := by
  cases b <;> simp [flagBit, bitAt]

/-! ## What is set -/

/-- A condition as a bit. -/
theorem bitAt_ite (p : Prop) [Decidable p] (bit : UInt32) (k : ℕ) :
    bitAt (if p then bit else 0) k = (decide p && bitAt bit k) := by
  by_cases hp : p <;> simp [hp, bitAt]

/-- What is set for a class is what is asked for and the bits of the umask for the owner. -/
theorem bitAt_inodeSetPermissions (n : Inode) (perm umask : UInt32) {k : ℕ} (h : k < 9) :
    bitAt (inodeSetPermissions n perm umask).permissions k =
      (bitAt perm k || bitAt umask (6 + k % 3)) := by
  have hgroup := fun i (hi : i < 6) => bitAt_shiftLeft_three perm (k := i + 3) (by omega)
  have hworld := fun i (hi : i < 3) =>
    (bitAt_shiftLeft_three (perm <<< 3) (k := i + 3) (by omega)).trans
      (bitAt_shiftLeft_three perm (by omega))
  simp only [Inode.permissions, inodeGetPermissions, inodeSetPermissions, flags_inodeGetMode,
    bitAt_and, bitAt_or, bitAt_flagBit]
  simp only [flagBit, bitAt_ite, bitAt_masks k h, bitAt_mask k (by omega), Bool.and_false,
    Bool.or_false]
  interval_cases k <;> simp [hgroup, hworld]

/-- The bits for the owner, three times. -/
theorem bitAt_inEveryClass (umask : UInt32) {k : ℕ} (h : k < 32) :
    bitAt (inEveryClass umask) k = (decide (k < 9) && bitAt umask (6 + k % 3)) := by
  simp only [inEveryClass, bitAt_or, bitAt_shiftRight, bitAt_and, bitAt_mask k (by omega),
    bitAt_mask (k + 3) (by omega), bitAt_mask (k + 6) (by omega)]
  by_cases hk : k < 9
  · interval_cases k <;> simp
  · have h₃ : ¬k + 3 < 9 := by omega
    have h₆ : ¬k + 6 < 9 := by omega
    simp [hk, h₃, h₆]

/-- `inode_set_permissions`, as one formula. -/
theorem permissions_inodeSetPermissions (n : Inode) (perm umask : UInt32) :
    (inodeSetPermissions n perm umask).permissions = perm &&& 0o777 ||| inEveryClass umask := by
  apply eq_of_bitAt
  intro k hk
  rw [bitAt_or, bitAt_and, bitAt_inEveryClass umask hk, (bitAt_mask k (by omega)).1]
  by_cases h : k < 9
  · simp [bitAt_inodeSetPermissions n perm umask h, h]
  · simp [Inode.permissions, bitAt_mask k (by omega), h]

/-! ## The law -/

/-- A word has no bit of a mask. -/
theorem and_mask_eq_zero {a : UInt32} : a = 0 ↔ ∀ k < 32, bitAt a k = false := by
  constructor
  · rintro rfl k -
    simp [bitAt]
  · intro h
    apply eq_of_bitAt
    intro k hk
    simpa [bitAt] using h k hk

/-- The umask takes nothing away that is asked for, and has no bit for the owner. -/
def UmaskIdle (perm umask : UInt32) : Prop :=
  umask &&& (0o700 : UInt32) = 0 ∧ perm &&& umask &&& (0o777 : UInt32) = 0

theorem umaskIdle_iff {perm umask : UInt32} :
    UmaskIdle perm umask ↔
      ∀ k < 9, (6 ≤ k → bitAt umask k = false) ∧ (bitAt perm k && bitAt umask k) = false := by
  simp only [UmaskIdle, and_mask_eq_zero, bitAt_and]
  constructor
  · rintro ⟨hu, hp⟩ k hk
    have hmask := bitAt_mask k (by omega)
    refine ⟨fun h6 => ?_, ?_⟩
    · simpa [hmask, hk, h6] using hu k (by omega)
    · simpa [hmask, hk] using hp k (by omega)
  · intro h
    refine ⟨fun k hk => ?_, fun k hk => ?_⟩
    · have hmask := bitAt_mask k (by omega)
      by_cases h9 : 6 ≤ k ∧ k < 9
      · simp [(h k h9.2).1 h9.1]
      · simp [hmask, h9]
    · have hmask := bitAt_mask k (by omega)
      by_cases h9 : k < 9
      · simp [(h k h9).2]
      · simp [hmask, h9]

/-- What is set has every bit that is asked for, so it has none beside those the umask leaves
only when the umask is idle. -/
theorem UmaskIdle.of_granted {perm umask : UInt32}
    (h : (perm &&& (0o777 : UInt32) ||| inEveryClass umask) &&& ~~~(perm &&& ~~~umask) = 0) :
    UmaskIdle perm umask := by
  rw [umaskIdle_iff]
  intro k hk
  have hk' : k < 32 := by omega
  have hb := and_mask_eq_zero.mp h k hk'
  rw [bitAt_and, bitAt_or, bitAt_and, bitAt_inEveryClass umask hk', bitAt_not _ hk', bitAt_and,
    bitAt_not _ hk', (bitAt_mask k (by omega)).1] at hb
  simp only [hk, decide_true, Bool.and_true, Bool.true_and] at hb
  refine ⟨fun h6 => ?_, ?_⟩
  · have hclass : 6 + k % 3 = k := by omega
    rw [hclass] at hb
    cases hu : bitAt umask k <;> simp_all
  · cases hu : bitAt umask k <;> cases hp : bitAt perm k <;> simp_all

/-- An idle umask has no bit to set. -/
theorem UmaskIdle.adds_nothing {perm umask : UInt32} (h : UmaskIdle perm umask) :
    inEveryClass umask = 0 := by
  simp [inEveryClass, h.1]

/-- With an idle umask what is set is what is meant. -/
theorem UmaskIdle.meant {perm umask : UInt32} (h : UmaskIdle perm umask) :
    perm &&& (0o777 : UInt32) = perm &&& ~~~umask &&& (0o777 : UInt32) := by
  apply eq_of_bitAt
  intro k hk
  simp only [bitAt_and, bitAt_not _ hk, (bitAt_mask k (by omega)).1]
  by_cases h9 : k < 9
  · have hb := (umaskIdle_iff.mp h k h9).2
    cases hp : bitAt perm k <;> simp_all
  · simp [h9]

/-- What a word adds to another one. -/
theorem or_and_not (a b : UInt32) : (a ||| b) &&& ~~~a = b &&& ~~~a := by
  apply eq_of_bitAt
  intro k hk
  simp only [bitAt_and, bitAt_or, bitAt_not _ hk]
  cases bitAt a k <;> simp

/-- A part of a word adds nothing to it. -/
theorem and_mask_and_not (a m : UInt32) : a &&& m &&& ~~~a = 0 := by
  apply and_mask_eq_zero.mpr
  intro k hk
  rw [bitAt_and, bitAt_and, bitAt_not _ hk]
  cases bitAt a k <;> simp

/-- With an idle umask what is set has no bit beside those the umask leaves. -/
theorem UmaskIdle.granted {perm umask : UInt32} (h : UmaskIdle perm umask) :
    (perm &&& (0o777 : UInt32) ||| inEveryClass umask) &&& ~~~(perm &&& ~~~umask) = 0 := by
  rw [h.adds_nothing, UInt32.or_zero, h.meant]
  exact and_mask_and_not _ _

/-- A node of one of the four kinds. -/
def Inode.Kinded (n : Inode) : Prop :=
  n.isFile ≠ 0 ∨ n.isDirectory ≠ 0 ∨ n.isSymlink ≠ 0 ∨ n.isHardlink ≠ 0

/-- What the lookups of a rename find once it has made the new name: the new node, and then the
old one. -/
def RenameFinds (s : Sys Disk) (fuel : ℕ) (now : BlockNo) (oldpath newpath : CStr)
    (newnode old : Inode) : Prop :=
  let dev := masterGetDev s
  let p := s.proc.cred
  ∃ inode s₁ s₂ s₃ s₄,
    inodeGet flatStore dev p now fuel s.proc.cwd oldpath true .dontCheckPerms s.toNames =
      some (.ok inode, s₁) ∧
    inodeCreate flatStore dev p now fuel s.proc.cwd newpath
      ⟨.createFile, inodeGetPermissions inode, s.proc.umask, p.group, p.owner, none⟩ s₁ =
      some (.ok (), s₂) ∧
    inodeGet flatStore dev p now fuel s.proc.cwd newpath true .dontCheckPerms s₂ =
      some (.ok newnode, s₃) ∧
    inodeGet flatStore dev p now fuel s.proc.cwd oldpath false .dontCheckPerms s₃ =
      some (.ok old, s₄)

/-- What the permissions of a node should be for a permission word and a umask: those asked for
without the umask, when the word is set, when a node is made, when the mode of a file or of an
open one is changed, and none beside those of the old node for the node that a rename makes
under the new name, and for what it puts in its place. -/
structure PermissionLaw (n : Inode) (perm umask : UInt32) : Prop where
  set : (inodeSetPermissions n perm umask).permissions = perm &&& ~~~umask &&& (0o777 : UInt32)
  made : ∀ now name group owner block parent,
    (newInode now name perm umask group owner block parent).permissions &&&
      ~~~(perm &&& ~~~umask) = 0
  changed : ∀ {σ : Type} (L : BlockLayer σ) (s : Sys σ) (now : BlockNo) (fd : Int32)
    (t : Fin maxFiles), s.proc.descriptor fd = some t → s.proc.umask = umask →
      ((kfchmod L now fd perm s).2.proc.fileTab t).permissions &&& ~~~(perm &&& ~~~umask) = 0
  changedAt : ∀ {s s₁ : Sys Disk} {fuel : ℕ} {now : BlockNo} {path : CStr} {m : Inode},
    s.get flatStore fuel now path true .dontCheckPerms = some (.ok m, s₁) → s.proc.umask = umask →
      ∃ s', kchmod flatStore fuel now path perm s = some (0, s') ∧
        (inodeAt (s'.fs.store (masterGetDev s)) m.self).permissions &&& ~~~(perm &&& ~~~umask) = 0
  renamed : ∀ (old : Inode) now name group owner block parent,
    (newInode now name (inodeGetPermissions old) umask group owner block parent).permissions &&&
      ~~~old.permissions = 0
  moved : ∀ {s s' : Sys Disk} {fuel : ℕ} {now : BlockNo} {oldpath newpath : CStr},
    krename flatStore fuel now oldpath newpath s = some (0, s') → ∃ newnode old,
      RenameFinds s fuel now oldpath newpath newnode old ∧ (old.Kinded →
        (inodeAt (s'.fs.store (masterGetDev s)) newnode.self).permissions &&&
          ~~~old.permissions = 0)

/-- A changed mode is set in the inode of the descriptor, whether the write succeeds or not. -/
theorem kfchmod_permissions {σ : Type} (L : BlockLayer σ) {s : Sys σ} (now : BlockNo) {fd : Int32}
    {t : Fin maxFiles} (perm : UInt32) (h : s.proc.descriptor fd = some t) :
    ((kfchmod L now fd perm s).2.proc.fileTab t).permissions =
      perm &&& (0o777 : UInt32) ||| inEveryClass s.proc.umask := by
  rw [← permissions_inodeSetPermissions { s.proc.fileTab t with modifiedTime := now }]
  simp only [kfchmod, h]
  split <;> simp [Proc.setInode]

/-- A new node has the permissions that were set. -/
theorem permissions_newInode (now : BlockNo) (name : CStr) (perm umask group owner : UInt32)
    (block parent : BlockNo) :
    (newInode now name perm umask group owner block parent).permissions =
      perm &&& (0o777 : UInt32) ||| inEveryClass umask :=
  permissions_inodeSetPermissions _ perm umask

/-- The node of a new name has the permissions of the old one and those of the umask. -/
theorem permissions_renamed (old : Inode) (umask : UInt32) (now : BlockNo) (name : CStr)
    (group owner : UInt32) (block parent : BlockNo) :
    (newInode now name (inodeGetPermissions old) umask group owner block parent).permissions =
      old.permissions ||| inEveryClass umask :=
  permissions_newInode now name (inodeGetPermissions old) umask group owner block parent

/-- A changed mode is written to the block of the node that the path leads to. -/
theorem kchmod_permissions {s s₁ : Sys Disk} {fuel : ℕ} {now : BlockNo} {path : CStr} {m : Inode}
    (perm : UInt32)
    (h : s.get flatStore fuel now path true .dontCheckPerms = some (.ok m, s₁)) :
    ∃ s', kchmod flatStore fuel now path perm s = some (0, s') ∧
      (inodeAt (s'.fs.store (masterGetDev s)) m.self).permissions =
        perm &&& (0o777 : UInt32) ||| inEveryClass s.proc.umask := by
  obtain ⟨⟨r, t⟩, -, ht⟩ := Option.map_eq_some_iff.mp h
  cases ht
  refine ⟨_, by rw [kchmod, h]; rfl, ?_⟩
  show (Inode.layout.symm (Disk.set _ (masterGetDev s) m.self (Inode.layout { inodeSetPermissions m
    perm s.proc.umask with modifiedTime := now }) (masterGetDev s) m.self)).permissions = _
  rw [Disk.set_self, Equiv.symm_apply_apply]
  exact permissions_inodeSetPermissions m perm s.proc.umask

/-- A removal for a rename hands back the node that its lookup has found. -/
theorem inodeFree_copy {dev : DevNo} {p : Cred} {now : BlockNo} {fuel : ℕ} {cwd : BlockNo}
    {path : CStr} {n : Inode} {r : Option Inode} {s s' : Names Disk}
    (h : inodeFree flatStore dev p now fuel cwd path (some n) s = some (.ok r, s')) :
    ∃ old s₁, inodeGet flatStore dev p now fuel cwd path false .dontCheckPerms s =
      some (.ok old, s₁) ∧ r = some (copyNode old n) := by
  obtain ⟨-, h⟩ := Call.require_bind_eq_ok.mp h
  obtain ⟨old, s₁, hget, h⟩ := Call.bind_eq_ok.mp h
  refine ⟨old, s₁, hget, ?_⟩
  obtain ⟨-, h⟩ := Call.require_bind_eq_ok.mp h
  obtain ⟨-, h⟩ := Call.require_bind_eq_ok.mp h
  -- The parent, the block map with the entry, and the two writes.
  obtain ⟨parent, _, -, h⟩ := Call.bind_eq_ok.mp h
  obtain ⟨_, _, -, h⟩ := Call.bind_eq_ok.mp h
  obtain ⟨_, _, -, h⟩ := Call.bind_eq_ok.mp h
  obtain ⟨_, _, -, h⟩ := Call.bind_eq_ok.mp h
  obtain ⟨_, _, -, h⟩ := Call.bind_eq_ok.mp h
  obtain ⟨_, _, -, h⟩ := Call.bind_eq_ok.mp h
  cases h
  rfl

/-- **What a rename leaves** in the block of the new node is the old one under another name, with
its permissions. -/
theorem krename_permissions {s s' : Sys Disk} {fuel : ℕ} {now : BlockNo} {oldpath newpath : CStr}
    (h : krename flatStore fuel now oldpath newpath s = some (0, s')) :
    ∃ newnode old, RenameFinds s fuel now oldpath newpath newnode old ∧ (old.Kinded →
      (inodeAt (s'.fs.store (masterGetDev s)) newnode.self).permissions = old.permissions) := by
  obtain ⟨⟨r, t⟩, hcall, h⟩ := Option.bind_eq_some_iff.mp h
  rcases r with e | u
  · cases h
  obtain rfl : t = s' := by cases h; rfl
  obtain ⟨⟨r, s₅⟩, hrun, hs⟩ := Option.map_eq_some_iff.mp hcall
  cases hs
  obtain ⟨inode, s₁, hold, hrun⟩ := Call.bind_eq_ok.mp hrun
  obtain ⟨_, s₂, hmade, hrun⟩ := Call.bind_eq_ok.mp hrun
  obtain ⟨newnode, s₃, hnew, hrun⟩ := Call.bind_eq_ok.mp hrun
  obtain ⟨copy, s₄, hfree, hrun⟩ := Call.bind_eq_ok.mp hrun
  obtain ⟨old, s₄', hget, rfl⟩ := inodeFree_copy hfree
  refine ⟨newnode, old, ⟨inode, s₁, s₂, s₃, s₄', hold, hmade, hnew, hget⟩, fun hkind => ?_⟩
  have hcopy : copyNode old newnode = old.renamed newnode := if_pos hkind
  rw [Option.getD_some, hcopy, writeSector_flat] at hrun
  have hlast : s₄.write (masterGetDev s) (old.renamed newnode).self
      (Inode.layout (old.renamed newnode)) = s₅ := (Prod.mk.inj (Option.some.inj hrun)).2
  have hwritten : inodeAt (s₅.fs.store (masterGetDev s)) newnode.self = old.renamed newnode := by
    rw [← hlast, inodeAt]
    exact (congrArg Inode.layout.symm (FsState.write_self _ _ _ _)).trans
      (Equiv.symm_apply_apply _ _)
  show (inodeAt (s₅.fs.store (masterGetDev s)) newnode.self).permissions = _
  rw [hwritten]
  rfl

/-- The permissions of a node are those asked for without the umask exactly if the umask is
idle; and the node that a rename makes under the new name has a permission more than the old one
exactly if that lacks, in some class, a permission that the umask has for the owner. -/
theorem permissionLaw_iff (n : Inode) (perm umask : UInt32) :
    (PermissionLaw n perm umask ↔ UmaskIdle perm umask) ∧
      ∀ (old : Inode) now name group owner block parent,
        ((newInode now name (inodeGetPermissions old) umask group owner block
            parent).permissions &&& ~~~old.permissions = 0 ↔
          inEveryClass umask &&& ~~~old.permissions = 0) := by
  refine ⟨⟨fun h => ?_, fun h => ⟨?_, ?_, ?_, ?_, ?_, ?_⟩⟩, ?_⟩
  · apply UmaskIdle.of_granted
    rw [← permissions_inodeSetPermissions n, h.set]
    exact and_mask_and_not _ _
  · rw [permissions_inodeSetPermissions, h.adds_nothing, UInt32.or_zero, h.meant]
  · intro now name group owner block parent
    rw [permissions_newInode]
    exact h.granted
  · intro σ L s now fd t hfd humask
    rw [kfchmod_permissions L now perm hfd, humask]
    exact h.granted
  · intro s s₁ fuel now path m hget humask
    obtain ⟨s', hrun, hperm⟩ := kchmod_permissions perm hget
    refine ⟨s', hrun, ?_⟩
    rw [hperm, humask]
    exact h.granted
  · intro old now name group owner block parent
    rw [permissions_renamed, or_and_not, h.adds_nothing, UInt32.zero_and]
  · intro s s' fuel now oldpath newpath hrun
    obtain ⟨newnode, old, hfinds, hperm⟩ := krename_permissions hrun
    refine ⟨newnode, old, hfinds, fun hkind => ?_⟩
    rw [hperm hkind]
    exact UInt32.and_not_self
  · intro old now name group owner block parent
    rw [permissions_renamed, or_and_not]

/-- A file made with mode 666 under umask 022 may be written by everyone. -/
theorem umask_ignored : ¬PermissionLaw Inode.zero 0o666 0o022 := by
  intro h
  have hset := h.set
  rw [permissions_inodeSetPermissions] at hset
  revert hset
  decide

end OxKernel.Fs
