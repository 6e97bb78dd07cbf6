import OxKernel.Fs.Create
import OxKernel.Fs.Mount

/-!
# What is on a device

The blocks of a device read as inodes, block maps and links, and the chain of block maps
that starts at a block. Over the flat store a read is a look at the device.

## Main definitions

* `inodeAt`, `mapAt`, `linkAt` — the contents of a block.
* `Linked` — a list of blocks is the chain that starts at a block.
* `dirSlots` — the slots of a chain, in order.
-/
namespace OxKernel.Fs

/-- The contents of a device. -/
abbrev Dev := BlockNo → Sector

section Contents
variable (d : Dev)

/-- The inode in a block. -/
def inodeAt (b : BlockNo) : Inode := Inode.layout.symm (d b)

/-- The block map in a block. -/
def mapAt (b : BlockNo) : BlockMap := BlockMap.layout.symm (d b)

/-- The path in a link block. -/
def linkAt (b : BlockNo) : CStr := cstr (Link.layout.symm (d b)).path

/-- The chain of block maps that starts at a block. -/
def Linked : BlockNo → List BlockNo → Prop
  | next, [] => next = inodeNull
  | next, m :: ms => next = m ∧ m ≠ inodeNull ∧ Linked (mapAt d m).next ms

/-- The slots of some block maps, in order. -/
def dirSlots (ms : List BlockNo) : List BlockNo := ms.flatMap fun m => List.ofFn (mapAt d m).blocks

end Contents

section Chains
variable {d d' : Dev} {next m : BlockNo} {ms ms' : List BlockNo}

theorem Linked.head_ne (h : Linked d next ms) (hms : ms ≠ []) : next ≠ inodeNull := by
  cases ms with
  | nil => exact absurd rfl hms
  | cons m ms =>
      rw [h.1]
      exact h.2.1

theorem Linked.nil_iff (h : Linked d next ms) : next = inodeNull ↔ ms = [] := by
  constructor
  · intro h0
    by_contra hms
    exact h.head_ne hms h0
  · rintro rfl
    exact h

theorem Linked.ne_null (h : Linked d next ms) : ∀ m ∈ ms, m ≠ inodeNull := by
  induction ms generalizing next with
  | nil =>
      intro m hm
      cases hm
  | cons a ms ih =>
      intro m hm
      rcases List.mem_cons.mp hm with rfl | hm
      · exact h.2.1
      · exact ih h.2.2 m hm

/-- A chain is determined by its first block. -/
theorem Linked.unique (h : Linked d next ms) (h' : Linked d next ms') : ms = ms' := by
  induction ms generalizing next ms' with
  | nil => exact (h'.nil_iff.mp h).symm
  | cons a ms ih =>
      cases ms' with
      | nil => exact absurd h' (h.head_ne (List.cons_ne_nil _ _))
      | cons a' ms' =>
          have ha : a = a' := h.1.symm.trans h'.1
          subst ha
          rw [ih h.2.2 h'.2.2]

/-- A chain is not affected by changes elsewhere. -/
theorem Linked.congr (h : Linked d next ms) (hd : ∀ m ∈ ms, d' m = d m) : Linked d' next ms := by
  induction ms generalizing next with
  | nil => exact h
  | cons a ms ih =>
      have ha : mapAt d' a = mapAt d a := by rw [mapAt, hd a List.mem_cons_self, mapAt]
      refine ⟨h.1, h.2.1, ?_⟩
      rw [ha]
      exact ih h.2.2 fun m hm => hd m (List.mem_cons_of_mem _ hm)

/-- A chain from one of its blocks on. -/
theorem Linked.suffix {pre post : List BlockNo} (h : Linked d next (pre ++ m :: post)) :
    Linked d m (m :: post) := by
  induction pre generalizing next with
  | nil => exact ⟨rfl, h.2⟩
  | cons a pre ih => exact ih h.2.2

@[simp] theorem dirSlots_nil : dirSlots d [] = [] := rfl

@[simp] theorem dirSlots_cons :
    dirSlots d (m :: ms) = List.ofFn (mapAt d m).blocks ++ dirSlots d ms := rfl

/-- A chain does not come back to a block. -/
theorem Linked.nodup (h : Linked d next ms) : ms.Nodup := by
  induction ms generalizing next with
  | nil => exact List.nodup_nil
  | cons a ms ih =>
      refine List.nodup_cons.mpr ⟨fun ha => ?_, ih h.2.2⟩
      -- From the second visit on the chain would be as long as from the first.
      obtain ⟨pre, post, rfl⟩ := List.append_of_mem ha
      have hpost : Linked d a (a :: post) := h.2.2.suffix
      have hall : Linked d a (a :: (pre ++ a :: post)) := ⟨rfl, h.2⟩
      have hlen := congrArg List.length (hpost.unique hall)
      simp only [List.length_cons, List.length_append] at hlen
      omega

end Chains

/-! ## Reads and writes of the flat store -/

section Flat
variable (dev : DevNo) (b : BlockNo) (s : Names Disk)

@[simp] theorem readInode_flat :
    readInode flatStore dev b s = some (.ok (inodeAt (s.fs.store dev) b), s) := rfl

@[simp] theorem readBmap_flat :
    readBmap flatStore dev b s = some (.ok (mapAt (s.fs.store dev) b), s) := rfl

@[simp] theorem readLink_flat :
    readLink flatStore dev b s = some (.ok (Link.layout.symm (s.fs.store dev b)), s) := rfl

/-- The state after a write. -/
def Names.write (data : Sector) : Names Disk := { s with fs := s.fs.write dev b data }

@[simp] theorem writeSector_flat (data : Sector) :
    writeSector flatStore dev b data s = some (.ok (), s.write dev b data) := rfl

end Flat

/-! ## Contents of a block that was written -/

section Update
variable {d : Dev} {b b' : BlockNo}

theorem Disk.set_apply (disk : Disk) (dev : DevNo) (b : BlockNo) (data : Sector) :
    disk.set dev b data dev = Function.update (disk dev) b data := by
  funext b'
  by_cases hb : b' = b
  · rw [hb, Disk.set_self, Function.update_self]
  · rw [Disk.set_of_ne fun h => hb h.2, Function.update_of_ne hb]

theorem FsState.write_store (fs : FsState Disk) (dev : DevNo) (b : BlockNo) (data : Sector) :
    (fs.write dev b data).store dev = Function.update (fs.store dev) b data :=
  Disk.set_apply ..

@[simp] theorem inodeAt_update (n : Inode) : inodeAt (Function.update d b (Inode.layout n)) b = n := by
  rw [inodeAt, Function.update_self, Equiv.symm_apply_apply]

@[simp] theorem mapAt_update (m : BlockMap) :
    mapAt (Function.update d b (BlockMap.layout m)) b = m := by
  rw [mapAt, Function.update_self, Equiv.symm_apply_apply]

theorem inodeAt_update_of_ne (h : b' ≠ b) (data : Sector) :
    inodeAt (Function.update d b data) b' = inodeAt d b' := by
  rw [inodeAt, Function.update_of_ne h, inodeAt]

theorem mapAt_update_of_ne (h : b' ≠ b) (data : Sector) :
    mapAt (Function.update d b data) b' = mapAt d b' := by
  rw [mapAt, Function.update_of_ne h, mapAt]

end Update

section Volume
variable {g : Shape} {dev : DevNo} {row : Fin inodeNrDev} {fs : FsState Disk}

/-- The root of a mounted volume is its first inode block. -/
theorem MapsOk.rootBlock_eq (h : MapsOk g dev row fs) :
    rootBlock dev fs = some (g.regionStart .imap) := by
  rw [rootBlock, h.mounted, ← h.shape]
  rfl

theorem MapsOk.write (h : MapsOk g dev row fs) (b : BlockNo) (data : Sector) :
    MapsOk g dev row (fs.write dev b data) :=
  ⟨h.sound, h.mounted, h.shape, h.ptr, h.bit⟩

end Volume

end OxKernel.Fs
