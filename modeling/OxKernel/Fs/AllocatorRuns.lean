import OxKernel.Fs.Mount
import OxKernel.Lib.Machine

/-!
# Runs of the allocators

A `Client` makes gets and frees on a mounted volume and remembers the blocks it holds
and the blocks it has given back. A get never returns a block that is held, because a block
that is held is set both on disk and in the window, and only a free of that block clears it,
in the window alone.

## Main definitions

* `Client`, `AllocOp`, `allocMachine` — runs of gets and frees.
* `Mounted` — what `inode_dev_open` leaves.
* `HeldOk` — the invariant behind the absence of double allocation.
-/
namespace OxKernel.Fs

/-! ## Clients -/

/-- A client of the allocators of one device. -/
structure Client where
  fs : FsState Disk
  /-- The blocks returned by a get and not freed since. -/
  held : MapKind → Finset BlockNo
  /-- The blocks freed and not returned by a get since. -/
  freed : MapKind → Finset BlockNo

/-- A call to an allocator. -/
inductive AllocOp
  | get (k : MapKind)
  | free (k : MapKind) (b : BlockNo)

/-- `inode_get_inode_block` or `inode_get_data_block`. -/
def inodeGetBlock : MapKind → DevNo → BlockNo → FsState Disk → GetResult Disk
  | .imap => inodeGetInodeBlock flatStore
  | .bmap => inodeGetDataBlock flatStore

/-- `inode_free_inode_block` or `inode_free_data_block`. -/
def inodeFreeBlock : MapKind → DevNo → BlockNo → FsState Disk → InodeRtvl × FsState Disk
  | .imap => inodeFreeInodeBlock flatStore
  | .bmap => inodeFreeDataBlock flatStore

theorem inodeGetBlock_eq (k : MapKind) : inodeGetBlock k = getBlock flatStore k := by
  cases k <;> rfl

theorem inodeFreeBlock_eq (k : MapKind) : inodeFreeBlock k = freeBlock flatStore k := by
  cases k <;> rfl

/-- The client receives block `b`. -/
def Client.take (c : Client) (k : MapKind) (b : BlockNo) (fs : FsState Disk) : Client where
  fs := fs
  held := Function.update c.held k (insert b (c.held k))
  freed := Function.update c.freed k ((c.freed k).erase b)

/-- The client gives block `b` back. -/
def Client.give (c : Client) (k : MapKind) (b : BlockNo) (fs : FsState Disk) : Client where
  fs := fs
  held := Function.update c.held k ((c.held k).erase b)
  freed := Function.update c.freed k (insert b (c.freed k))

section Members
variable {c : Client} {k k' : MapKind} {b b' : BlockNo} {fs : FsState Disk}

theorem Client.mem_take_held :
    b' ∈ (c.take k b fs).held k' ↔ k' = k ∧ b' = b ∨ b' ∈ c.held k' := by
  by_cases hk : k' = k
  · subst hk
    simp [Client.take]
  · simp [Client.take, hk]

theorem Client.mem_take_freed :
    b' ∈ (c.take k b fs).freed k' ↔ ¬ (k' = k ∧ b' = b) ∧ b' ∈ c.freed k' := by
  by_cases hk : k' = k
  · subst hk
    simp [Client.take]
  · simp [Client.take, hk]

theorem Client.mem_give_held :
    b' ∈ (c.give k b fs).held k' ↔ ¬ (k' = k ∧ b' = b) ∧ b' ∈ c.held k' := by
  by_cases hk : k' = k
  · subst hk
    simp [Client.give]
  · simp [Client.give, hk]

theorem Client.mem_give_freed :
    b' ∈ (c.give k b fs).freed k' ↔ k' = k ∧ b' = b ∨ b' ∈ c.freed k' := by
  by_cases hk : k' = k
  · subst hk
    simp [Client.give]
  · simp [Client.give, hk]

end Members

/-- Perform one call. -/
def AllocOp.step (dev : DevNo) : AllocOp → Client → (InodeRtvl × BlockNo) × Client
  | .get k, c =>
    match inodeGetBlock k dev 0 c.fs with
    | (.ok, b, fs) => ((.ok, b), c.take k b fs)
    | (r, b, fs) => ((r, b), { c with fs := fs })
  | .free k b, c =>
    match inodeFreeBlock k dev b c.fs with
    | (.ok, fs) => ((.ok, b), c.give k b fs)
    | (r, fs) => ((r, b), { c with fs := fs })

/-- The allocators of a device as a machine. -/
def allocMachine (dev : DevNo) : Lib.Machine Client AllocOp (InodeRtvl × BlockNo) where
  step := AllocOp.step dev

theorem step_get_reply (dev : DevNo) (k : MapKind) (c : Client) :
    (AllocOp.step dev (.get k) c).1 =
      ((getBlock flatStore k dev 0 c.fs).1, (getBlock flatStore k dev 0 c.fs).2.1) := by
  simp only [AllocOp.step, inodeGetBlock_eq]
  split <;> (rename_i h; rw [h])

theorem step_get_fs (dev : DevNo) (k : MapKind) (c : Client) :
    (AllocOp.step dev (.get k) c).2.fs = (getBlock flatStore k dev 0 c.fs).2.2 := by
  simp only [AllocOp.step, inodeGetBlock_eq]
  split <;> (rename_i h; simp only [h, Client.take])

theorem step_free_fs (dev : DevNo) (k : MapKind) (b : BlockNo) (c : Client) :
    (AllocOp.step dev (.free k b) c).2.fs = (freeBlock flatStore k dev b c.fs).2 := by
  simp only [AllocOp.step, inodeFreeBlock_eq]
  split <;> (rename_i h; simp only [h, Client.give])

theorem step_get_ok {dev : DevNo} {k : MapKind} {c : Client} {b : BlockNo} {fs : FsState Disk}
    (h : getBlock flatStore k dev 0 c.fs = (.ok, b, fs)) :
    AllocOp.step dev (.get k) c = ((.ok, b), c.take k b fs) := by
  simp only [AllocOp.step, inodeGetBlock_eq, h]

theorem step_free_ok {dev : DevNo} {k : MapKind} {c : Client} {b : BlockNo} {fs : FsState Disk}
    (h : freeBlock flatStore k dev b c.fs = (.ok, fs)) :
    AllocOp.step dev (.free k b) c = ((.ok, b), c.give k b fs) := by
  simp only [AllocOp.step, inodeFreeBlock_eq, h]

/-- A free gives back a block the client holds. -/
def AllocOp.Matching (c : Client) : AllocOp → Prop
  | .get _ => True
  | .free k b => b ∈ c.held k

/-- What `inode_dev_open` leaves: the cursors in place and the windows loaded. -/
structure Mounted (g : Shape) (dev : DevNo) (row : Fin inodeNrDev) (s : FsState Disk) : Prop
    extends MapsOk g dev row s where
  loaded : ∀ k, s.window k row = s.store dev ((s.masterTab row).ptr k)

theorem Fresh.mounted {g : Shape} {row : Fin inodeNrDev} {s : FsState Disk} (h : Fresh g row s) :
    Mounted g 0 row s where
  toMapsOk := h.ok
  loaded k := by rw [h.window, h.disk k _ (h.ok.ptr k)]

section Steps
variable {g : Shape} {dev : DevNo} {row : Fin inodeNrDev} {s : FsState Disk} {k : MapKind}

/-- The store after a get differs from the store before in the master and one map block. -/
theorem afterTake_store {p i : BlockNo} {w : Sector} {q : BlockNo} (hq : q ≠ g.blockStart) :
    (afterTake g k dev row s p i w).store dev q =
      if q = p then bitSet w i.toNat 1 else s.store dev q := by
  simp only [afterTake]
  by_cases hqp : q = p
  · rw [if_pos hqp, hqp, Disk.set_self]
  · rw [if_neg hqp, Disk.set_of_ne fun h => hqp h.2, Disk.set_of_ne fun h => hq h.2]

theorem InMap.ne_blockStart (hg : g.Sound) {q : BlockNo} (hq : g.InMap k q) : q ≠ g.blockStart :=
  fun h => hg.master k (h ▸ hq)

/-- Map blocks of different maps are different. -/
theorem InMap.ne_of_ne (hg : g.Sound) {k' : MapKind} {p q : BlockNo} (hp : g.InMap k p)
    (hq : g.InMap k' q) (hk : k' ≠ k) : q ≠ p := by
  rintro rfl
  cases k <;> cases k' <;> first | exact hk rfl | exact hg.apart _ hp hq | exact hg.apart _ hq hp

theorem MapsOk.afterTake (hs : MapsOk g dev row s) {p i : BlockNo} {w : Sector} (hp : g.InMap k p)
    (hi : i.toNat < 512) : MapsOk g dev row (afterTake g k dev row s p i w) :=
  let h := hs.scanned (k := k) (w := bitSet w i.toNat 1) hp hi
  ⟨h.sound, h.mounted, h.shape, h.ptr, h.bit⟩

/-- A get leaves both windows as they are on disk. -/
theorem Mounted.get (h : Mounted g dev row s) (k : MapKind) (block : BlockNo) :
    Mounted g dev row (getBlock flatStore k dev block s).2.2 := by
  have hg := h.sound
  rcases getBlock_flat (k := k) h.toMapsOk block with ht | ⟨-, -, hr⟩
  · obtain ⟨p, i, w, hp, hi, -, -, -, hr⟩ := ht
    rw [hr]
    refine ⟨h.toMapsOk.afterTake hp hi, fun k' => ?_⟩
    by_cases hk : k' = k
    · subst hk
      rw [afterTake_window, afterTake_ptr, afterTake_store (InMap.ne_blockStart hg hp), if_pos rfl]
    · have hin := h.ptr k'
      rw [afterTake_window_other hk, afterTake_ptr_other hk,
        afterTake_store (InMap.ne_blockStart hg hin), if_neg (InMap.ne_of_ne hg hp hin hk)]
      exact h.loaded k'
  · have hstart : g.InMap k (g.mapStart k) := ⟨le_rfl, hg.nonempty k⟩
    rw [hr]
    refine ⟨h.toMapsOk.scanned hstart (by decide), fun k' => ?_⟩
    by_cases hk : k' = k
    · subst hk
      rw [scanned_window, scanned_ptr, scanned_store]
    · rw [scanned_window_other hk, scanned_ptr_other hk, scanned_store]
      exact h.loaded k'

/-! ## No double allocation -/

/-- Every held block has a bit, which is set on disk and in a window that covers it. -/
structure HeldOk (g : Shape) (dev : DevNo) (row : Fin inodeNrDev) (c : Client) : Prop where
  ok : MapsOk g dev row c.fs
  covers : ∀ k, ∀ b ∈ c.held k, g.Covers k b
  disk : ∀ k, ∀ b ∈ c.held k, bitGet (c.fs.store dev (g.ptrOf k b)) (g.bitOf k b).toNat = 1
  window : ∀ k, ∀ b ∈ c.held k, g.ptrOf k b = (c.fs.masterTab row).ptr k →
    bitGet (c.fs.window k row) (g.bitOf k b).toNat = 1

theorem HeldOk.nothing_held {c : Client} (hs : MapsOk g dev row c.fs) (h : ∀ k, c.held k = ∅) :
    HeldOk g dev row c :=
  ⟨hs, fun k b hb => by simp [h k] at hb, fun k b hb => by simp [h k] at hb,
    fun k b hb => by simp [h k] at hb⟩

/-- Blocks with the same map block and the same bit are the same. -/
theorem Covers.ext (hg : g.Sound) {a b : BlockNo} (ha : g.Covers k a) (hb : g.Covers k b)
    (hp : g.ptrOf k a = g.ptrOf k b) (hi : (g.bitOf k a).toNat = (g.bitOf k b).toNat) : a = b := by
  rw [← Shape.blockAt_ptrOf_bitOf hg ha, ← Shape.blockAt_ptrOf_bitOf hg hb, hp,
    UInt32.toNat_inj.mp hi]

variable {c : Client}

/-- A held block is set in whatever a scan finds for its map block. -/
theorem HeldOk.seen (h : HeldOk g dev row c) {p : BlockNo} {w : Sector}
    (hw : Seen k dev row c.fs p w) {b : BlockNo} (hb : b ∈ c.held k) (hp : g.ptrOf k b = p) :
    bitGet w (g.bitOf k b).toNat = 1 := by
  rcases hw with ⟨hptr, rfl⟩ | ⟨-, rfl⟩
  · exact h.window k b hb (hp.trans hptr)
  · rw [← hp]
    exact h.disk k b hb

/-- The scan moves a window over contents in which the held blocks are set. -/
theorem HeldOk.moved (h : HeldOk g dev row c) {c' : Client} {p i : BlockNo} {w : Sector}
    (hp : g.InMap k p) (hi : i.toNat < 512) (hfs : c'.fs = scanned c.fs k row p i w)
    (hheld : ∀ k', c'.held k' ⊆ c.held k')
    (hw : ∀ b ∈ c'.held k, g.ptrOf k b = p → bitGet w (g.bitOf k b).toNat = 1) :
    HeldOk g dev row c' where
  ok := hfs ▸ h.ok.scanned hp hi
  covers k' b hb := h.covers k' b (hheld k' hb)
  disk k' b hb := by
    rw [hfs, scanned_store]
    exact h.disk k' b (hheld k' hb)
  window k' b hb hptr := by
    rw [hfs] at hptr ⊢
    by_cases hk : k' = k
    · subst hk
      rw [scanned_ptr] at hptr
      rw [scanned_window]
      exact hw b hb hptr
    · rw [scanned_ptr_other hk] at hptr
      rw [scanned_window_other hk]
      exact h.window k' b (hheld k' hb) hptr

/-- The block a get takes is not held. -/
theorem HeldOk.not_held (h : HeldOk g dev row c) {p i : BlockNo} {w : Sector} (hp : g.InMap k p)
    (hi : i.toNat < 512) (hw : Seen k dev row c.fs p w) (h0 : bitGet w i.toNat = 0) :
    g.blockAt k p i ∉ c.held k := by
  intro hb
  have h1 := h.seen hw hb (Shape.ptrOf_blockAt h.ok.sound hp hi)
  rw [Shape.bitOf_blockAt h.ok.sound hp hi, h0] at h1
  cases h1

/-- The client takes the block that a get has set. -/
theorem HeldOk.taken (h : HeldOk g dev row c) {p i : BlockNo} {w : Sector} (hp : g.InMap k p)
    (hi : i.toNat < 512) (hw : Seen k dev row c.fs p w) :
    HeldOk g dev row (c.take k (g.blockAt k p i) (afterTake g k dev row c.fs p i w)) := by
  have hg := h.ok.sound
  have hbit : i.toNat / 8 < devBlockSize := by
    simp only [devBlockSize]
    omega
  have hcov : ∀ b ∈ insert (g.blockAt k p i) (c.held k), g.Covers k b := by
    intro b hb
    rcases Finset.mem_insert.mp hb with rfl | hb
    · exact Shape.covers_blockAt hg hp hi
    · exact h.covers k b hb
  -- In the new contents of the map block every held block is set.
  have hset : ∀ b ∈ insert (g.blockAt k p i) (c.held k), g.ptrOf k b = p →
      bitGet (bitSet w i.toNat 1) (g.bitOf k b).toNat = 1 := by
    intro b hb hbp
    by_cases hbi : (g.bitOf k b).toNat = i.toNat
    · rw [hbi]
      exact bitGet_bitSet_self hbit (Or.inr rfl)
    · rw [bitGet_bitSet_of_ne hbi]
      rcases Finset.mem_insert.mp hb with rfl | hb
      · rw [Shape.bitOf_blockAt hg hp hi] at hbi
        exact absurd rfl hbi
      · exact h.seen hw hb hbp
  refine ⟨h.ok.afterTake hp hi, fun k' b hb => ?_, fun k' b hb => ?_, fun k' b hb hptr => ?_⟩
  · by_cases hk : k' = k
    · subst hk
      simp only [Client.take, Function.update_self] at hb
      exact hcov b hb
    · simp only [Client.take, Function.update_of_ne hk] at hb
      exact h.covers k' b hb
  · by_cases hk : k' = k
    · subst hk
      simp only [Client.take, Function.update_self] at hb
      have hin := Shape.inMap_ptrOf hg (hcov b hb)
      simp only [Client.take]
      rw [afterTake_store (InMap.ne_blockStart hg hin)]
      split
      · rename_i hbp
        exact hset b hb hbp
      · rename_i hbp
        rcases Finset.mem_insert.mp hb with rfl | hb
        · exact absurd (Shape.ptrOf_blockAt hg hp hi) hbp
        · exact h.disk k' b hb
    · simp only [Client.take, Function.update_of_ne hk] at hb ⊢
      have hin := Shape.inMap_ptrOf hg (h.covers k' b hb)
      rw [afterTake_store (InMap.ne_blockStart hg hin), if_neg (InMap.ne_of_ne hg hp hin hk)]
      exact h.disk k' b hb
  · by_cases hk : k' = k
    · subst hk
      simp only [Client.take, Function.update_self, afterTake_ptr, afterTake_window] at hb hptr ⊢
      exact hset b hb hptr
    · simp only [Client.take, Function.update_of_ne hk, afterTake_ptr_other hk,
        afterTake_window_other hk] at hb hptr ⊢
      exact h.window k' b hb hptr

/-- **One call keeps the invariant.** -/
theorem HeldOk.step (h : HeldOk g dev row c) {op : AllocOp} (hop : op.Matching c) :
    HeldOk g dev row (op.step dev c).2 := by
  cases op with
  | get k =>
      simp only [AllocOp.step, inodeGetBlock_eq]
      rcases getBlock_flat (k := k) h.ok 0 with ht | ⟨-, -, hr⟩
      · obtain ⟨p, i, w, hp, hi, hw, -, -, hr⟩ := ht
        rw [hr]
        exact h.taken hp hi hw
      · rw [hr]
        have hp : g.InMap k (g.mapStart k) := ⟨le_rfl, h.ok.sound.nonempty k⟩
        refine h.moved hp (by decide) rfl (fun _ => Finset.Subset.refl _) fun b hb hbp => ?_
        rw [← hbp]
        exact h.disk k b hb
  | free k b =>
      simp only [AllocOp.step, inodeFreeBlock_eq]
      have hcov := h.covers k b hop
      obtain ⟨w, hr, -, hsame⟩ := freeBlock_flat h.ok hcov
      rw [hr]
      refine h.moved (Shape.inMap_ptrOf h.ok.sound hcov) (Shape.bitOf_lt hcov) rfl
        (fun k' => ?_) fun a ha hap => ?_
      · intro a ha
        exact (Client.mem_give_held.mp ha).2
      · replace ha := Client.mem_give_held.mp ha
        have hne : (g.bitOf k a).toNat ≠ (g.bitOf k b).toNat := fun he =>
          ha.1 ⟨rfl, Covers.ext h.ok.sound (h.covers k a ha.2) hcov hap he⟩
        rw [hsame _ hne]
        split
        · rename_i hptr
          exact h.window k a ha.2 (hap.trans hptr)
        · rw [← hap]
          exact h.disk k a ha.2

/-- A get does not return a held block. -/
theorem HeldOk.get_notMem (h : HeldOk g dev row c) {b : BlockNo}
    (hget : (AllocOp.step dev (.get k) c).1 = (.ok, b)) : b ∉ c.held k := by
  simp only [AllocOp.step, inodeGetBlock_eq] at hget
  rcases getBlock_flat (k := k) h.ok 0 with ht | ⟨-, -, hr⟩
  · obtain ⟨p, i, w, hp, hi, hw, h0, -, hr⟩ := ht
    rw [hr] at hget
    simp only [Prod.mk.injEq, true_and] at hget
    rw [← hget]
    exact h.not_held hp hi hw h0
  · rw [hr] at hget
    simp at hget

end Steps

/-- A client that has not made a call yet. -/
def Client.start (fs : FsState Disk) : Client := ⟨fs, fun _ => ∅, fun _ => ∅⟩

theorem Fresh.mounted_start {g : Shape} {row : Fin inodeNrDev} {s : FsState Disk}
    (h : Fresh g row s) : Mounted g 0 row (Client.start s).fs := h.mounted

theorem Fresh.heldOk {g : Shape} {row : Fin inodeNrDev} {s : FsState Disk} (h : Fresh g row s) :
    HeldOk g 0 row (Client.start s) :=
  .nothing_held h.ok fun _ => rfl

/-- The block that the first get on a volume returns. -/
def firstBlock (fs : FsState Disk) : BlockNo := (inodeGetDataBlock flatStore 0 0 fs).2.1

theorem firstBlock_eq {g : Shape} {row : Fin inodeNrDev} {s : FsState Disk} (h : Fresh g row s) :
    getBlock flatStore .bmap 0 0 s =
      (.ok, firstBlock s, afterTake g .bmap 0 row s ((s.masterTab row).ptr .bmap)
        ((s.masterTab row).bit .bmap) (s.window .bmap row)) := by
  have heta : ∀ {r : GetResult Disk} {b : BlockNo} {fs : FsState Disk},
      r = (.ok, b, fs) → r = (.ok, r.2.1, fs) := fun h => by rw [h]
  exact heta (getBlock_cursor_clear h.ok 0 (by rw [h.window]; exact bitGet_zero _))

section GetFree
variable {g : Shape} {row : Fin inodeNrDev} {s : FsState Disk}

/-- A get and a free of the block it returned. -/
def getFree (s : FsState Disk) : List AllocOp := [.get .bmap, .free .bmap (firstBlock s)]

theorem firstBlock_held (h : Fresh g row s) :
    firstBlock s ∈ (AllocOp.step 0 (.get .bmap) (Client.start s)).2.held .bmap := by
  rw [step_get_ok (firstBlock_eq h), Client.mem_take_held]
  exact Or.inl ⟨rfl, rfl⟩

theorem Fresh.heldOk_get (h : Fresh g row s) :
    HeldOk g 0 row (AllocOp.step 0 (.get .bmap) (Client.start s)).2 :=
  @HeldOk.step _ _ _ _ h.heldOk (.get .bmap) trivial

end GetFree

end OxKernel.Fs
