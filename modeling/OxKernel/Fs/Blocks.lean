import OxKernel.Fs.Node
import OxKernel.Fs.AllocatorRecord

/-!
# Blocks taken and given back by the path functions

The allocator as the path functions see it, over the flat store: the blocks in use are set on
disk and in the window, a block that is taken was not in use, and no call of the allocator
touches a block outside the maps and the master. A free keeps the other blocks in use, whether
or not it moves the window; what it does to the rest of the record depends on that.

## Main definitions

* `InUse` — some blocks are allocated.
* `SameBlocks` — two states that differ in the maps and the master only.
* `InUse.take`, `InUse.freed`, `InUse.write` — the three things a path function does.
-/
namespace OxKernel.Fs

open Lib (Call)

/-- Replace the file system. -/
def Names.setFs (s : Names Disk) (fs : FsState Disk) : Names Disk := { s with fs := fs }

@[simp] theorem Names.setFs_fs (s : Names Disk) (fs : FsState Disk) : (s.setFs fs).fs = fs := rfl

@[simp] theorem Names.setFs_nrRecursion (s : Names Disk) (fs : FsState Disk) :
    (s.setFs fs).nrRecursion = s.nrRecursion := rfl

@[simp] theorem Names.setFs_setFs (s : Names Disk) (fs fs' : FsState Disk) :
    (s.setFs fs).setFs fs' = s.setFs fs' := rfl

theorem Names.write_eq (s : Names Disk) (dev : DevNo) (b : BlockNo) (data : Sector) :
    s.write dev b data = s.setFs (s.fs.write dev b data) := rfl

/-- Blocks of the two maps. -/
abbrev BlockSets := MapKind → Finset BlockNo

/-- One more block. -/
def BlockSets.add (H : BlockSets) (k : MapKind) (b : BlockNo) : BlockSets :=
  Function.update H k (insert b (H k))

/-- Some blocks less. -/
def BlockSets.remove (H : BlockSets) (k : MapKind) (l : List BlockNo) : BlockSets :=
  Function.update H k (H k \ l.toFinset)

theorem BlockSets.mem_remove {H : BlockSets} {k k' : MapKind} {l : List BlockNo} {b : BlockNo} :
    b ∈ H.remove k l k' ↔ ¬ (k' = k ∧ b ∈ l) ∧ b ∈ H k' := by
  by_cases hk : k' = k
  · subst hk
    simp only [remove, Function.update_self, Finset.mem_sdiff, List.mem_toFinset, true_and]
    exact and_comm
  · simp [remove, hk]

theorem BlockSets.remove_nil (H : BlockSets) (k : MapKind) : H.remove k [] = H := by
  funext k'
  ext b
  simp [mem_remove]

theorem BlockSets.remove_cons (H : BlockSets) (k : MapKind) (b : BlockNo) (l : List BlockNo) :
    (H.remove k [b]).remove k l = H.remove k (b :: l) := by
  funext k'
  ext b'
  simp only [mem_remove, List.mem_cons, List.not_mem_nil, or_false]
  tauto

/-- The blocks of a set are allocated. -/
structure InUse (g : Shape) (dev : DevNo) (row : Fin inodeNrDev) (H : BlockSets)
    (fs : FsState Disk) : Prop where
  held : HeldOk g dev row ⟨fs, H, fun _ => ∅⟩
  settled : Settled dev row fs

/-- The blocks outside the maps and the master are the same. -/
def SameBlocks (g : Shape) (dev : DevNo) (fs fs' : FsState Disk) : Prop :=
  ∀ q, q ≠ g.blockStart → (∀ k, ¬ g.InMap k q) → fs'.store dev q = fs.store dev q

theorem SameBlocks.refl {g : Shape} {dev : DevNo} (fs : FsState Disk) : SameBlocks g dev fs fs :=
  fun _ _ _ => rfl

section InUse
variable {g : Shape} {dev : DevNo} {row : Fin inodeNrDev} {H H' : BlockSets} {fs : FsState Disk}
  {k : MapKind} {b : BlockNo} {s : Names Disk}

theorem HeldOk.mono {c c' : Client} (h : HeldOk g dev row c) (hfs : c'.fs = c.fs)
    (hsub : ∀ k, c'.held k ⊆ c.held k) : HeldOk g dev row c' where
  ok := hfs ▸ h.ok
  covers k b hb := h.covers k b (hsub k hb)
  disk k b hb := hfs ▸ h.disk k b (hsub k hb)
  window k b hb := hfs ▸ h.window k b (hsub k hb)

namespace InUse

theorem ok (h : InUse g dev row H fs) : MapsOk g dev row fs := h.held.ok

theorem covers (h : InUse g dev row H fs) (hb : b ∈ H k) : g.Covers k b := h.held.covers k b hb

theorem mono (h : InUse g dev row H fs) (hsub : ∀ k, H' k ⊆ H k) : InUse g dev row H' fs :=
  ⟨h.held.mono rfl hsub, h.settled⟩

theorem recorded_eq (h : InUse g dev row H fs) (hb : b ∈ H k) : recorded g dev row fs k b = 1 := by
  rw [recorded, mapContents]
  split
  · rename_i hptr
    exact h.held.window k b hb hptr
  · exact h.held.disk k b hb

/-- A write outside the maps. -/
theorem write (h : InUse g dev row H fs) {q : BlockNo} (hq : ∀ k, ¬ g.InMap k q) (data : Sector) :
    InUse g dev row H (fs.write dev q data) := by
  have hstore : ∀ k p, g.InMap k p → (fs.write dev q data).store dev p = fs.store dev p :=
    fun k p hp => FsState.write_of_ne fun he => hq k (he ▸ hp)
  constructor
  · refine ⟨h.ok.write q data, h.held.covers, fun k b hb => ?_, h.held.window⟩
    rw [hstore k _ (Shape.inMap_ptrOf h.ok.sound (h.covers hb))]
    exact h.held.disk k b hb
  · intro k
    rcases h.settled k with hw | hc
    · left
      rw [hstore k _ ((h.ok.write q data).ptr k)]
      exact hw
    · right
      exact hc

/-- The allocator touches nothing outside the maps and the master. -/
theorem getBlock_sameBlocks (hs : MapsOk g dev row fs) (block : BlockNo) :
    SameBlocks g dev fs (getBlock flatStore k dev block fs).2.2 := by
  rcases getBlock_flat (k := k) hs block with ⟨p, i, w, hp, -, -, -, -, hr⟩ | ⟨-, -, hr⟩
  · intro q hq hmap
    have hqp : q ≠ p := fun he => hmap k (he ▸ hp)
    rw [hr, afterTake_store hq, if_neg hqp]
  · intro q _ _
    rw [hr, scanned_store]

/-- What a path function knows about a block that it has taken. -/
structure Took (g : Shape) (dev : DevNo) (row : Fin inodeNrDev) (H : BlockSets) (fs : FsState Disk)
    (k : MapKind) (b : BlockNo) (fs' : FsState Disk) : Prop where
  get : getBlock flatStore k dev 0 fs = (.ok, b, fs')
  covers : g.Covers k b
  free : recorded g dev row fs k b = 0
  inUse : InUse g dev row (H.add k b) fs'
  same : SameBlocks g dev fs fs'
  record : ∀ k' b', g.Covers k' b' →
    recorded g dev row fs' k' b' = if k' = k ∧ b' = b then 1 else recorded g dev row fs k' b'

/-- What it knows after it has not got one. -/
structure Full (g : Shape) (dev : DevNo) (row : Fin inodeNrDev) (H : BlockSets) (fs : FsState Disk)
    (k : MapKind) (fs' : FsState Disk) : Prop where
  full : ∀ b, g.Covers k b → recorded g dev row fs k b = 1
  inUse : InUse g dev row H fs'
  same : SameBlocks g dev fs fs'
  record : ∀ k' b', recorded g dev row fs' k' b' = recorded g dev row fs k' b'

theorem Took.fresh {fs' : FsState Disk} (ht : Took g dev row H fs k b fs')
    (h : InUse g dev row H fs) : b ∉ H k := by
  intro hb
  have h0 := ht.free
  rw [h.recorded_eq hb] at h0
  cases h0

/-- **A block is taken**, or the map has no free one. -/
theorem take (h : InUse g dev row H s.fs) (k : MapKind) :
    (∃ b fs, takeBlock flatStore dev k s = some (.ok b, s.setFs fs) ∧
      Took g dev row H s.fs k b fs) ∨
    (∃ fs, takeBlock flatStore dev k s = some (.error .fail, s.setFs fs) ∧
      Full g dev row H s.fs k fs) := by
  have hsame := getBlock_sameBlocks (k := k) h.ok 0
  have hany : AllocOp.Matching ⟨s.fs, H, fun _ => ∅⟩ (.get k) := trivial
  have hstep := h.held.step hany
  rw [takeBlock]
  rcases getBlock_recorded (k := k) h.ok h.settled 0 with
    ⟨b, fs, hcov, hfree, hr, -, hset, hrec⟩ | ⟨fs, hfull, hr, -, hset, hrec⟩
  · left
    rw [hr] at hsame ⊢
    rw [step_get_ok hr] at hstep
    exact ⟨b, fs, rfl, hr, hcov, hfree, ⟨hstep.mono rfl fun _ => Finset.Subset.refl _, hset⟩, hsame, hrec⟩
  · right
    rw [hr] at hsame ⊢
    have hfail : (AllocOp.step dev (.get k) ⟨s.fs, H, fun _ => ∅⟩).2 = ⟨fs, H, fun _ => ∅⟩ := by
      simp only [AllocOp.step, inodeGetBlock_eq, hr]
    rw [hfail] at hstep
    exact ⟨fs, rfl, hfull, ⟨hstep, hset⟩, hsame, hrec⟩

end InUse

/-! ## Giving blocks back -/

/-- The state after a block has been given back. -/
def freed (dev : DevNo) (k : MapKind) (b : BlockNo) (fs : FsState Disk) : FsState Disk :=
  (freeBlock flatStore k dev b fs).2

/-- The state after some blocks have been given back one after the other. -/
def freedAll (dev : DevNo) (k : MapKind) (l : List BlockNo) (fs : FsState Disk) : FsState Disk :=
  l.foldl (fun fs b => freed dev k b fs) fs

theorem freedAll_cons (dev : DevNo) (k : MapKind) (b : BlockNo) (l : List BlockNo)
    (fs : FsState Disk) : freedAll dev k (b :: l) fs = freedAll dev k l (freed dev k b fs) := rfl

theorem freedAll_singleton (dev : DevNo) (k : MapKind) (b : BlockNo) (fs : FsState Disk) :
    freedAll dev k [b] fs = freed dev k b fs := rfl

theorem freedAll_append (dev : DevNo) (k : MapKind) (l l' : List BlockNo) (fs : FsState Disk) :
    freedAll dev k (l ++ l') fs = freedAll dev k l' (freedAll dev k l fs) := List.foldl_append

theorem giveBlock_flat (hs : MapsOk g dev row s.fs) (hb : g.Covers k b) :
    giveBlock flatStore dev k b s = some (.ok (), s.setFs (freed dev k b s.fs)) := by
  obtain ⟨w, hr, -⟩ := freeBlock_flat hs hb
  rw [giveBlock, freed, hr]
  rfl

theorem freed_store (hs : MapsOk g dev row fs) (hb : g.Covers k b) :
    (freed dev k b fs).store = fs.store := by
  obtain ⟨w, hr, -⟩ := freeBlock_flat hs hb
  rw [freed, hr]
  exact scanned_store

/-- **A block in use is given back.** -/
theorem InUse.freed (h : InUse g dev row H fs) (hb : b ∈ H k) :
    InUse g dev row (H.remove k [b]) (freed dev k b fs) := by
  have hcov := h.covers hb
  have hheld : AllocOp.Matching ⟨fs, H, fun _ => ∅⟩ (.free k b) := hb
  have hstep := h.held.step hheld
  obtain ⟨w, hr, h0, -⟩ := freeBlock_flat h.ok hcov
  rw [step_free_ok hr] at hstep
  rw [Fs.freed, hr]
  constructor
  · refine hstep.mono rfl fun k' b' hb' => ?_
    obtain ⟨hne, hmem⟩ := BlockSets.mem_remove.mp hb'
    exact Client.mem_give_held.mpr ⟨fun he => hne ⟨he.1, List.mem_singleton.mpr he.2⟩, hmem⟩
  · -- The cursor is at the bit that was cleared.
    intro k'
    by_cases hk : k' = k
    · subst hk
      right
      rw [CursorSet, scanned_window, scanned_bit, h0]
      decide
    · exact h.settled.scanned_other hk

/-- **Blocks in use are given back.** -/
theorem InUse.freedAll {l : List BlockNo} (h : InUse g dev row H fs) (hl : l.Nodup)
    (hsub : ∀ b ∈ l, b ∈ H k) :
    InUse g dev row (H.remove k l) (freedAll dev k l fs) ∧
      (freedAll dev k l fs).store = fs.store := by
  induction l generalizing H fs with
  | nil =>
      rw [BlockSets.remove_nil]
      exact ⟨h, rfl⟩
  | cons b l ih =>
      have hb := hsub b List.mem_cons_self
      obtain ⟨hnot, hl⟩ := List.nodup_cons.mp hl
      have hrest : ∀ x ∈ l, x ∈ H.remove k [b] k := by
        intro x hx
        refine BlockSets.mem_remove.mpr ⟨?_, hsub x (List.mem_cons_of_mem _ hx)⟩
        rintro ⟨-, hxb⟩
        rw [List.mem_singleton.mp hxb] at hx
        exact hnot hx
      obtain ⟨huse, hstore⟩ := ih (h.freed hb) hl hrest
      rw [BlockSets.remove_cons] at huse
      exact ⟨huse, hstore.trans (freed_store h.ok (h.covers hb))⟩

/-- What the record says after a block has been given back: the window has moved to the map
block of the block, and what was only in the window before is lost if that is another one. -/
theorem recorded_freed (hs : MapsOk g dev row fs) (hb : g.Covers k b) {k' : MapKind} {b' : BlockNo}
    (hb' : g.Covers k' b') :
    recorded g dev row (freed dev k b fs) k' b' =
      if k' = k then
        if b' = b then 0
        else if g.ptrOf k b = (fs.masterTab row).ptr k then recorded g dev row fs k b'
        else bitGet (fs.store dev (g.ptrOf k b')) (g.bitOf k b').toNat
      else recorded g dev row fs k' b' := by
  obtain ⟨w, hr, h0, hsame⟩ := freeBlock_flat hs hb
  rw [Fs.freed, hr]
  by_cases hk : k' = k
  · subst hk
    rw [if_pos rfl]
    by_cases hbb : b' = b
    · rw [if_pos hbb, hbb, recorded, mapContents_scanned, if_pos rfl]
      exact h0
    · rw [if_neg hbb, recorded, mapContents_scanned]
      have hbit : g.ptrOf k' b' = g.ptrOf k' b → (g.bitOf k' b').toNat ≠ (g.bitOf k' b).toNat :=
        fun hp hi => hbb (Covers.ext hs.sound hb' hb hp hi)
      by_cases hp : g.ptrOf k' b' = g.ptrOf k' b
      · rw [if_pos hp, hsame _ (hbit hp), recorded, mapContents, hp]
        split <;> rfl
      · rw [if_neg hp, recorded, mapContents]
        by_cases hptr : g.ptrOf k' b = (fs.masterTab row).ptr k'
        · rw [if_pos hptr, if_neg fun he => hp (he.trans hptr.symm)]
        · rw [if_neg hptr]
  · rw [if_neg hk, recorded, recorded, mapContents_scanned_other hk]

theorem freed_ptr (hs : MapsOk g dev row fs) (hb : g.Covers k b) :
    ((freed dev k b fs).masterTab row).ptr k = g.ptrOf k b := by
  obtain ⟨w, hr, -⟩ := freeBlock_flat hs hb
  rw [freed, hr, scanned_ptr]

theorem freed_ptr_other (hs : MapsOk g dev row fs) (hb : g.Covers k b) {k' : MapKind}
    (hk : k' ≠ k) : ((freed dev k b fs).masterTab row).ptr k' = (fs.masterTab row).ptr k' := by
  obtain ⟨w, hr, -⟩ := freeBlock_flat hs hb
  rw [freed, hr, scanned_ptr_other hk]

theorem MapsOk.freed (hs : MapsOk g dev row fs) (hb : g.Covers k b) :
    MapsOk g dev row (freed dev k b fs) := by
  obtain ⟨w, hr, -⟩ := freeBlock_flat hs hb
  rw [Fs.freed, hr]
  exact hs.scanned (Shape.inMap_ptrOf hs.sound hb) (Shape.bitOf_lt hb)

end InUse

/-! ## The bits of a map -/

/-- The bit of a block on disk. -/
def diskBit (g : Shape) (dev : DevNo) (fs : FsState Disk) (k : MapKind) (b : BlockNo) : ℕ :=
  bitGet (fs.store dev (g.ptrOf k b)) (g.bitOf k b).toNat

/-- Two states with the same bits in a map, on disk and in the window. -/
structure SameBits (g : Shape) (dev : DevNo) (row : Fin inodeNrDev) (k : MapKind)
    (fs fs' : FsState Disk) : Prop where
  ptr : (fs'.masterTab row).ptr k = (fs.masterTab row).ptr k
  record : ∀ b, g.Covers k b → recorded g dev row fs' k b = recorded g dev row fs k b
  disk : ∀ b, g.Covers k b → diskBit g dev fs' k b = diskBit g dev fs k b

namespace SameBits
variable {g : Shape} {dev : DevNo} {row : Fin inodeNrDev} {fs fs' fs'' : FsState Disk}
  {k k' : MapKind} {b : BlockNo}

theorem refl (fs : FsState Disk) : SameBits g dev row k fs fs := ⟨rfl, fun _ _ => rfl, fun _ _ => rfl⟩

theorem trans (h : SameBits g dev row k fs fs') (h' : SameBits g dev row k fs' fs'') :
    SameBits g dev row k fs fs'' :=
  ⟨h'.ptr.trans h.ptr, fun b hb => (h'.record b hb).trans (h.record b hb),
    fun b hb => (h'.disk b hb).trans (h.disk b hb)⟩

/-- A write outside the maps. -/
theorem write (hs : MapsOk g dev row fs) {q : BlockNo} (hq : ∀ k, ¬ g.InMap k q) (data : Sector) :
    SameBits g dev row k fs (fs.write dev q data) := by
  have hstore : ∀ b, g.Covers k b →
      (fs.write dev q data).store dev (g.ptrOf k b) = fs.store dev (g.ptrOf k b) := fun b hb =>
    FsState.write_of_ne fun he => hq k (he ▸ Shape.inMap_ptrOf hs.sound hb)
  refine ⟨rfl, fun b hb => ?_, fun b hb => ?_⟩
  · rw [recorded, mapContents, recorded, mapContents, hstore b hb]
    rfl
  · rw [diskBit, hstore b hb, diskBit]

/-- A block of this map is given back in both states. -/
theorem freed (h : SameBits g dev row k fs fs') (hs : MapsOk g dev row fs)
    (hs' : MapsOk g dev row fs') (hb : g.Covers k b) :
    SameBits g dev row k (freed dev k b fs) (freed dev k b fs') := by
  refine ⟨?_, fun b' hb' => ?_, fun b' hb' => ?_⟩
  · rw [freed_ptr hs' hb, freed_ptr hs hb]
  · have hdisk := h.disk b' hb'
    rw [diskBit, diskBit] at hdisk
    rw [recorded_freed hs' hb hb', recorded_freed hs hb hb', h.ptr, h.record b' hb', hdisk]
  · have hdisk := h.disk b' hb'
    rw [diskBit, diskBit] at hdisk ⊢
    rw [freed_store hs' hb, freed_store hs hb]
    exact hdisk

/-- A block of the other map is given back. -/
theorem freed_other (hs : MapsOk g dev row fs) (hb : g.Covers k' b) (hk : k ≠ k') :
    SameBits g dev row k fs (Fs.freed dev k' b fs) := by
  refine ⟨freed_ptr_other hs hb hk, fun b' hb' => ?_, fun b' hb' => ?_⟩
  · rw [recorded_freed hs hb hb', if_neg hk]
  · rw [diskBit, freed_store hs hb, diskBit]

end SameBits

end OxKernel.Fs
