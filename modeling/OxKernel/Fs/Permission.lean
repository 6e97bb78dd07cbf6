import OxKernel.Fs.Inode

/-!
# Permissions

The permission functions of `inode.c`. An inode has nine flags, three for each of its
owner, its group and the world; a mode asks for some of the three, and is granted when
they are all set for one of the classes the process belongs to.

`inode_set_permissions` treats the three classes alike: it takes the mode that
`inode_get_mode` finds in the three bits of the owner, after a shift for the group and for
the world, each time with the same `umask` added.

## Main definitions

* `InodeMode` — `inode_mode_t`.
* `inodeGetMode`, `inodeSetPermissions`, `inodeGetPermissions` — permission words and flags.
* `inodeCheckPermissions` — whether a process may do what a mode asks for.
-/
namespace OxKernel.Fs

/-- `inode_mode_t`, with the value 0 that an open without an access mode leaves. -/
inductive InodeMode
  | unset
  | invalid
  | createFile
  | createDir
  | createSymlink
  | createHardlink
  | read
  | write
  | execute
  | rw
  | rx
  | wx
  | rwx
  | dontCheckPerms
  deriving DecidableEq, Repr

/-- The permission bits of `sys/stat.h`. -/
def sIrusr : UInt32 := 256
def sIwusr : UInt32 := 128
def sIxusr : UInt32 := 64
def sIrgrp : UInt32 := 32
def sIwgrp : UInt32 := 16
def sIxgrp : UInt32 := 8
def sIroth : UInt32 := 4
def sIwoth : UInt32 := 2
def sIxoth : UInt32 := 1
def sIfreg : UInt32 := 32768
def sIfdir : UInt32 := 16384
def sIflnk : UInt32 := 40960

/-- `inode_get_mode`. -/
def inodeGetMode (perm umask : UInt32) : InodeMode :=
  let perm := perm ||| umask
  let r := sIrusr &&& perm ≠ 0
  let w := sIwusr &&& perm ≠ 0
  let x := sIxusr &&& perm ≠ 0
  if r ∧ w ∧ x then .rwx
  else if w ∧ x then .wx
  else if r ∧ x then .rx
  else if r ∧ w then .rw
  else if x then .execute
  else if w then .write
  else if r then .read
  else .invalid

/-- The read, write and execute flags of a mode. -/
def InodeMode.flags : InodeMode → UInt8 × UInt8 × UInt8
  | .read => (1, 0, 0)
  | .write => (0, 1, 0)
  | .execute => (0, 0, 1)
  | .rw => (1, 1, 0)
  | .rx => (1, 0, 1)
  | .wx => (0, 1, 1)
  | .rwx => (1, 1, 1)
  | _ => (0, 0, 0)

/-- `inode_set_permissions`. -/
def inodeSetPermissions (n : Inode) (perm umask : UInt32) : Inode :=
  let user := (inodeGetMode perm umask).flags
  let group := (inodeGetMode (perm <<< 3) umask).flags
  let world := (inodeGetMode (perm <<< 3 <<< 3) umask).flags
  { n with
    userRead := user.1, userWrite := user.2.1, userExecute := user.2.2
    groupRead := group.1, groupWrite := group.2.1, groupExecute := group.2.2
    worldRead := world.1, worldWrite := world.2.1, worldExecute := world.2.2 }

/-- A bit of a permission word that stands for a flag. -/
def flagBit (flag : UInt8) (bit : UInt32) : UInt32 := if flag ≠ 0 then bit else 0

/-- `inode_get_permissions`. -/
def inodeGetPermissions (n : Inode) : UInt32 :=
  flagBit n.userRead sIrusr ||| flagBit n.userWrite sIwusr ||| flagBit n.userExecute sIxusr |||
    flagBit n.groupRead sIrgrp ||| flagBit n.groupWrite sIwgrp ||| flagBit n.groupExecute sIxgrp |||
    flagBit n.worldRead sIroth ||| flagBit n.worldWrite sIwoth ||| flagBit n.worldExecute sIxoth |||
    flagBit n.isDirectory sIfdir ||| flagBit n.isSymlink sIflnk |||
    (if n.isHardlink ≠ 0 ∨ n.isFile ≠ 0 then sIfreg else 0)

/-- The group and the owner of a process. -/
structure Cred where
  group : UInt32
  owner : UInt32

/-- The flags of one class grant a mode. -/
def InodeMode.Grants (mode : InodeMode) (r w x : UInt8) : Prop :=
  match mode with
  | .read => r ≠ 0
  | .write => w ≠ 0
  | .execute => x ≠ 0
  | .rw => r ≠ 0 ∧ w ≠ 0
  | .rx => r ≠ 0 ∧ x ≠ 0
  | .wx => w ≠ 0 ∧ x ≠ 0
  | .rwx => r ≠ 0 ∧ w ≠ 0 ∧ x ≠ 0
  | _ => False

instance (mode : InodeMode) (r w x : UInt8) : Decidable (mode.Grants r w x) :=
  match mode with
  | .read => inferInstanceAs (Decidable (r ≠ 0))
  | .write => inferInstanceAs (Decidable (w ≠ 0))
  | .execute => inferInstanceAs (Decidable (x ≠ 0))
  | .rw => inferInstanceAs (Decidable (r ≠ 0 ∧ w ≠ 0))
  | .rx => inferInstanceAs (Decidable (r ≠ 0 ∧ x ≠ 0))
  | .wx => inferInstanceAs (Decidable (w ≠ 0 ∧ x ≠ 0))
  | .rwx => inferInstanceAs (Decidable (r ≠ 0 ∧ w ≠ 0 ∧ x ≠ 0))
  | .unset | .invalid | .createFile | .createDir | .createSymlink | .createHardlink
  | .dontCheckPerms => inferInstanceAs (Decidable False)

/-- `inode_check_permissions`, without the two arguments it does not use. -/
def inodeCheckPermissions (n : Inode) (p : Cred) (mode : InodeMode) : Prop :=
  mode = .dontCheckPerms ∨
    p.owner = n.owner ∧ mode.Grants n.userRead n.userWrite n.userExecute ∨
    p.group = n.group ∧ mode.Grants n.groupRead n.groupWrite n.groupExecute ∨
    mode.Grants n.worldRead n.worldWrite n.worldExecute

instance (n : Inode) (p : Cred) (mode : InodeMode) : Decidable (inodeCheckPermissions n p mode) :=
  inferInstanceAs (Decidable (_ ∨ _))

end OxKernel.Fs
