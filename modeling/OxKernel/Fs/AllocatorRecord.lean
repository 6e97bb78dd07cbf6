import OxKernel.Fs.AllocatorRuns
import Mathlib.Data.Finset.Card

/-!
# What a volume records

What a volume records about a block is its bit in the window if the window covers the
block, and its bit on disk otherwise. As long as no free moves the window away from bits
it has not written, a get sets one recorded bit that was clear, a free clears one, and
nothing else changes: the allocator is the abstract set of its recorded blocks. A free
that does move the window away loses the free before it.

## Main definitions

* `recorded`, `Settled` — the abstraction, and what keeps it true.
* `KeepsWindow` — the condition on a free.
* `RecordsHeld` — the record is the set of the held blocks.
* `Client.HoldsRecorded` — the client holds what the disk records.
* `FreedOk` — the freed blocks are recorded as free.
-/
namespace OxKernel.Fs

/-! ## The recorded blocks -/

section Recorded
variable (g : Shape) (dev : DevNo) (row : Fin inodeNrDev) (s : FsState Disk)

/-- The contents of a map block: the window if it covers the block, else the disk. -/
def mapContents (k : MapKind) (p : BlockNo) : Sector :=
  if p = (s.masterTab row).ptr k then s.window k row else s.store dev p

/-- What the volume records about a block: 1 for allocated, 0 for free. -/
def recorded (k : MapKind) (b : BlockNo) : ℕ :=
  bitGet (mapContents dev row s k (g.ptrOf k b)) (g.bitOf k b).toNat

/-- A window that differs from its block on disk has its cursor at a clear bit, so that
the next get does not move it. -/
def Settled : Prop :=
  ∀ k, s.window k row = s.store dev ((s.masterTab row).ptr k) ∨ ¬ CursorSet k row s

variable {g dev row s} {k : MapKind}

/-- Under a set cursor bit the window is a copy of the disk. -/
theorem mapContents_of_cursorSet (hset : Settled dev row s) (hc : CursorSet k row s) (p : BlockNo) :
    mapContents dev row s k p = s.store dev p := by
  rw [mapContents]
  split
  · rename_i hp
    rw [hp]
    exact (hset k).resolve_right (not_not.mpr hc)
  · rfl

/-- A scan sees the recorded contents. -/
theorem Seen.eq_mapContents (hset : Settled dev row s) {p : BlockNo} {w : Sector}
    (h : Seen k dev row s p w) : w = mapContents dev row s k p := by
  rcases h with ⟨hp, rfl⟩ | ⟨hc, rfl⟩
  · rw [mapContents, if_pos hp]
  · rw [mapContents_of_cursorSet hset hc]

/-- The other map does not notice a move of the window. -/
theorem mapContents_scanned_other {k' : MapKind} (hk : k' ≠ k) (p i : BlockNo) (w : Sector)
    (q : BlockNo) :
    mapContents dev row (scanned s k row p i w) k' q = mapContents dev row s k' q := by
  simp only [mapContents, scanned_ptr_other hk, scanned_window_other hk, scanned_store]

theorem mapContents_scanned (p i : BlockNo) (w : Sector) (q : BlockNo) :
    mapContents dev row (scanned s k row p i w) k q = if q = p then w else s.store dev q := by
  simp only [mapContents, scanned_ptr, scanned_window, scanned_store]

theorem Settled.scanned_other (hset : Settled dev row s) {p i : BlockNo} {w : Sector} {k' : MapKind}
    (hk : k' ≠ k) :
    (scanned s k row p i w).window k' row =
        s.store dev (((scanned s k row p i w).masterTab row).ptr k') ∨
      ¬ CursorSet k' row (scanned s k row p i w) := by
  simp only [CursorSet, scanned_window_other hk, scanned_ptr_other hk, scanned_bit_other hk]
  exact hset k'

theorem mapContents_afterTake {p i : BlockNo} {w : Sector} {q : BlockNo} (hq : q ≠ g.blockStart) :
    mapContents dev row (afterTake g k dev row s p i w) k q =
      if q = p then bitSet w i.toNat 1 else s.store dev q := by
  rw [mapContents, afterTake_ptr, afterTake_window, afterTake_store hq]
  split <;> rfl

theorem mapContents_afterTake_other {p i : BlockNo} {w : Sector} {q : BlockNo}
    (hq : q ≠ g.blockStart) {k' : MapKind} (hk : k' ≠ k) (hqp : q ≠ p) :
    mapContents dev row (afterTake g k dev row s p i w) k' q = mapContents dev row s k' q := by
  rw [mapContents, afterTake_ptr_other hk, afterTake_window_other hk, afterTake_store hq,
    if_neg hqp, mapContents]

theorem Settled.afterTake (hs : MapsOk g dev row s) (hset : Settled dev row s) {p i : BlockNo}
    {w : Sector} (hp : g.InMap k p) : Settled dev row (afterTake g k dev row s p i w) := by
  intro k'
  by_cases hk : k' = k
  · subst hk
    left
    rw [afterTake_window, afterTake_ptr, afterTake_store (InMap.ne_blockStart hs.sound hp),
      if_pos rfl]
  · have hq := hs.ptr k'
    rw [CursorSet, afterTake_window_other hk, afterTake_ptr_other hk, afterTake_bit_other hk,
      afterTake_store (InMap.ne_blockStart hs.sound hq), if_neg (InMap.ne_of_ne hs.sound hp hq hk)]
    exact hset k'

/-- **A get sets one recorded bit** that was clear, or finds them all set and changes
nothing. -/
theorem getBlock_contents (hs : MapsOk g dev row s) (hset : Settled dev row s) (block : BlockNo) :
    (∃ p i s', g.InMap k p ∧ i.toNat < 512 ∧ bitGet (mapContents dev row s k p) i.toNat = 0 ∧
      getBlock flatStore k dev block s = (.ok, g.blockAt k p i, s') ∧
      MapsOk g dev row s' ∧ Settled dev row s' ∧
      (∀ q, g.InMap k q → mapContents dev row s' k q =
        if q = p then bitSet (mapContents dev row s k p) i.toNat 1 else mapContents dev row s k q) ∧
      ∀ k' q, k' ≠ k → g.InMap k' q → mapContents dev row s' k' q = mapContents dev row s k' q) ∨
    (∃ s', (∀ p i, g.InMap k p → i < 512 → bitGet (mapContents dev row s k p) i = 1) ∧
      getBlock flatStore k dev block s = (.fail, inodeNull, s') ∧
      MapsOk g dev row s' ∧ Settled dev row s' ∧
      ∀ k' q, mapContents dev row s' k' q = mapContents dev row s k' q) := by
  have hg := hs.sound
  rcases getBlock_flat (k := k) hs block with ht | ⟨hc, hall, hr⟩
  · left
    obtain ⟨p, i, w, hp, hi, hw, h0, -, hr⟩ := ht
    have hweq := hw.eq_mapContents hset
    subst hweq
    refine ⟨p, i, _, hp, hi, h0, hr, hs.afterTake hp hi, hset.afterTake hs hp, ?_, ?_⟩
    · intro q hq
      rw [mapContents_afterTake (InMap.ne_blockStart hg hq)]
      by_cases hqp : q = p
      · rw [if_pos hqp, if_pos hqp]
      · rw [if_neg hqp, if_neg hqp, mapContents]
        split
        · -- The scan has left the old window, so that window is on disk.
          rename_i hqptr
          rcases hw with ⟨hpp, -⟩ | ⟨hc, -⟩
          · exact absurd (hqptr.trans hpp.symm) hqp
          · rw [hqptr]
            exact ((hset k).resolve_right (not_not.mpr hc)).symm
        · rfl
    · intro k' q hk hq
      exact mapContents_afterTake_other (InMap.ne_blockStart hg hq) hk (InMap.ne_of_ne hg hp hq hk)
  · right
    refine ⟨_, ?_, hr, ?_, ?_, ?_⟩
    · intro p i hp hi
      rw [mapContents_of_cursorSet hset hc]
      exact hall p i hp hi
    · exact hs.scanned ⟨le_rfl, hg.nonempty k⟩ (by decide)
    · intro k'
      by_cases hk : k' = k
      · subst hk
        left
        rw [scanned_window, scanned_ptr, scanned_store]
      · exact hset.scanned_other hk
    · intro k' q
      by_cases hk : k' = k
      · subst hk
        rw [mapContents_scanned, mapContents_of_cursorSet hset hc]
        split
        · rename_i hq
          rw [hq]
        · rfl
      · exact mapContents_scanned_other hk _ _ _ q

/-- A free of block `b` does not move the window away from bits that are not on disk. -/
def KeepsWindow (g : Shape) (dev : DevNo) (row : Fin inodeNrDev) (s : FsState Disk) (k : MapKind)
    (b : BlockNo) : Prop :=
  g.ptrOf k b = (s.masterTab row).ptr k ∨ s.window k row = s.store dev ((s.masterTab row).ptr k)

/-- **A free clears one recorded bit**, if it does not lose the window. -/
theorem freeBlock_contents (hs : MapsOk g dev row s) (hset : Settled dev row s) {b : BlockNo}
    (hb : g.Covers k b) (hkeep : KeepsWindow g dev row s k b) :
    ∃ s', freeBlock flatStore k dev b s = (.ok, s') ∧ MapsOk g dev row s' ∧ Settled dev row s' ∧
      (bitGet (mapContents dev row s' k (g.ptrOf k b)) (g.bitOf k b).toNat = 0) ∧
      (∀ q i, q ≠ g.ptrOf k b ∨ i ≠ (g.bitOf k b).toNat →
        bitGet (mapContents dev row s' k q) i = bitGet (mapContents dev row s k q) i) ∧
      ∀ k' q, k' ≠ k → mapContents dev row s' k' q = mapContents dev row s k' q := by
  obtain ⟨w, hr, h0, hsame⟩ := freeBlock_flat hs hb
  refine ⟨_, hr, hs.scanned (Shape.inMap_ptrOf hs.sound hb) (Shape.bitOf_lt hb), ?_, ?_, ?_, ?_⟩
  · intro k'
    by_cases hk : k' = k
    · subst hk
      right
      rw [CursorSet, scanned_window, scanned_bit, h0]
      decide
    · exact hset.scanned_other hk
  · rw [mapContents_scanned, if_pos rfl]
    exact h0
  · intro q i hqi
    rw [mapContents_scanned]
    by_cases hq : q = g.ptrOf k b
    · rw [if_pos hq, hsame i (hqi.resolve_left (not_not.mpr hq)), mapContents, hq]
    · rw [if_neg hq, mapContents]
      split
      · rename_i hqptr
        rw [hqptr, hkeep.resolve_left fun he => hq (hqptr.trans he.symm)]
      · rfl
  · intro k' q hk
    exact mapContents_scanned_other hk _ _ _ q

/-- **The allocator is the set of its recorded blocks**: a get records a block that was
not recorded, or finds every block recorded and changes no record. -/
theorem getBlock_recorded (hs : MapsOk g dev row s) (hset : Settled dev row s) (block : BlockNo) :
    (∃ b s', g.Covers k b ∧ recorded g dev row s k b = 0 ∧
      getBlock flatStore k dev block s = (.ok, b, s') ∧ MapsOk g dev row s' ∧ Settled dev row s' ∧
      ∀ k' b', g.Covers k' b' →
        recorded g dev row s' k' b' = if k' = k ∧ b' = b then 1 else recorded g dev row s k' b') ∨
    (∃ s', (∀ b, g.Covers k b → recorded g dev row s k b = 1) ∧
      getBlock flatStore k dev block s = (.fail, inodeNull, s') ∧ MapsOk g dev row s' ∧
      Settled dev row s' ∧ ∀ k' b', recorded g dev row s' k' b' = recorded g dev row s k' b') := by
  have hg := hs.sound
  rcases getBlock_contents (k := k) hs hset block with
    ⟨p, i, s', hp, hi, h0, hr, hs', hset', hk, hother⟩ | ⟨s', hall, hr, hs', hset', hsame⟩
  · left
    have hpb := Shape.ptrOf_blockAt hg hp hi
    have hib := Shape.bitOf_blockAt hg hp hi
    have hlt : i.toNat / 8 < devBlockSize := by
      simp only [devBlockSize]
      omega
    refine ⟨g.blockAt k p i, s', Shape.covers_blockAt hg hp hi, ?_, hr, hs', hset', ?_⟩
    · rw [recorded, hpb, hib]
      exact h0
    · intro k' b' hb'
      have hin := Shape.inMap_ptrOf hg hb'
      by_cases hkk : k' = k
      · subst hkk
        by_cases hbb : b' = g.blockAt k' p i
        · have hnew : recorded g dev row s' k' b' = 1 := by
            rw [recorded, hk _ hin, hbb, hpb, if_pos rfl, hib]
            exact bitGet_bitSet_self hlt (Or.inr rfl)
          rw [hnew, if_pos ⟨rfl, hbb⟩]
        · have hold : recorded g dev row s' k' b' = recorded g dev row s k' b' := by
            rw [recorded, recorded, hk _ hin]
            by_cases hpp : g.ptrOf k' b' = p
            · rw [if_pos hpp, hpp]
              refine bitGet_bitSet_of_ne fun he => hbb ?_
              refine Covers.ext hg hb' (Shape.covers_blockAt hg hp hi) (hpp.trans hpb.symm) ?_
              rw [hib, he]
            · rw [if_neg hpp]
          rw [hold, if_neg fun h => hbb h.2]
      · rw [if_neg fun h => hkk h.1, recorded, recorded, hother k' _ hkk hin]
  · right
    refine ⟨s', fun b hb => ?_, hr, hs', hset', fun k' b' => ?_⟩
    · exact hall _ _ (Shape.inMap_ptrOf hg hb) (Shape.bitOf_lt hb)
    · rw [recorded, recorded, hsame]

/-- A free that does not lose the window removes one block from the record. -/
theorem freeBlock_recorded (hs : MapsOk g dev row s) (hset : Settled dev row s) {b : BlockNo}
    (hb : g.Covers k b) (hkeep : KeepsWindow g dev row s k b) :
    ∃ s', freeBlock flatStore k dev b s = (.ok, s') ∧ MapsOk g dev row s' ∧ Settled dev row s' ∧
      ∀ k' b', g.Covers k' b' →
        recorded g dev row s' k' b' = if k' = k ∧ b' = b then 0 else recorded g dev row s k' b' := by
  obtain ⟨s', hr, hs', hset', h0, hk, hother⟩ := freeBlock_contents hs hset hb hkeep
  refine ⟨s', hr, hs', hset', ?_⟩
  intro k' b' hb'
  by_cases hkk : k' = k
  · subst hkk
    by_cases hbb : b' = b
    · rw [if_pos ⟨rfl, hbb⟩, hbb]
      exact h0
    · rw [if_neg fun h => hbb h.2]
      refine hk _ _ ?_
      by_contra hcon
      push Not at hcon
      exact hbb (Covers.ext hs.sound hb' hb hcon.1 hcon.2)
  · rw [if_neg fun h => hkk h.1, recorded, recorded, hother k' _ hkk]

end Recorded

/-! ## The record and the held blocks -/

section Range

/-- The `n` blocks from `lo` on. -/
def blockRange (lo : BlockNo) (n : ℕ) : Finset BlockNo :=
  (Finset.range n).image fun i => UInt32.ofNat (lo.toNat + i)

variable {lo : BlockNo} {n : ℕ}

theorem mem_blockRange (hn : lo.toNat + n ≤ 2 ^ 32) {b : BlockNo} :
    b ∈ blockRange lo n ↔ lo.toNat ≤ b.toNat ∧ b.toNat < lo.toNat + n := by
  rw [blockRange, Finset.mem_image]
  constructor
  · intro h
    obtain ⟨i, hi, rfl⟩ := h
    have hi' := Finset.mem_range.mp hi
    rw [UInt32.toNat_ofNat_of_lt' (by simp only [UInt32.size]; omega)]
    omega
  · intro h
    refine ⟨b.toNat - lo.toNat, Finset.mem_range.mpr (by omega), ?_⟩
    apply UInt32.toNat_inj.mp
    rw [Nat.add_sub_cancel' h.1, UInt32.ofNat_toNat]

theorem card_blockRange (hn : lo.toNat + n ≤ 2 ^ 32) : (blockRange lo n).card = n := by
  rw [blockRange, Finset.card_image_of_injOn, Finset.card_range]
  intro i hi j hj hij
  have hi' := Finset.mem_range.mp hi
  have hj' := Finset.mem_range.mp hj
  have hnat := congrArg UInt32.toNat hij
  simp only at hnat
  rw [UInt32.toNat_ofNat_of_lt' (by simp only [UInt32.size]; omega),
    UInt32.toNat_ofNat_of_lt' (by simp only [UInt32.size]; omega)] at hnat
  omega

end Range

section Held
variable {g : Shape} {dev : DevNo} {row : Fin inodeNrDev} {c : Client} {k : MapKind}

/-- The recorded blocks are the held blocks. -/
structure RecordsHeld (g : Shape) (dev : DevNo) (row : Fin inodeNrDev) (c : Client) : Prop where
  ok : MapsOk g dev row c.fs
  settled : Settled dev row c.fs
  covers : ∀ k, ∀ b ∈ c.held k, g.Covers k b
  record : ∀ k b, g.Covers k b → (recorded g dev row c.fs k b = 1 ↔ b ∈ c.held k)

/-- Nothing is recorded on a fresh volume. -/
theorem Fresh.recordsHeld {s : FsState Disk} (h : Fresh g row s) :
    RecordsHeld g 0 row (Client.start s) where
  ok := h.ok
  settled k := Or.inl (h.mounted.loaded k)
  covers k b hb := absurd hb (Finset.notMem_empty b)
  record k b hb := by
    have hzero : mapContents 0 row s k (g.ptrOf k b) = Sector.zero := by
      rw [mapContents, h.window, h.disk k _ (Shape.inMap_ptrOf h.ok.sound hb), ite_self]
    have h0 : recorded g 0 row s k b = 0 := by
      rw [recorded, hzero]
      exact bitGet_zero _
    simp [Client.start, h0]

/-- **A get on a volume that records the held blocks**: it returns a block that is not
held, or every covered block is held. -/
theorem RecordsHeld.get (h : RecordsHeld g dev row c) (k : MapKind) :
    (∃ b fs, g.Covers k b ∧ b ∉ c.held k ∧
      AllocOp.step dev (.get k) c = ((.ok, b), c.take k b fs) ∧
      RecordsHeld g dev row (c.take k b fs)) ∨
    (∃ fs, (∀ b, g.Covers k b → b ∈ c.held k) ∧
      AllocOp.step dev (.get k) c = ((.fail, inodeNull), { c with fs := fs }) ∧
      RecordsHeld g dev row { c with fs := fs }) := by
  simp only [AllocOp.step, inodeGetBlock_eq]
  rcases getBlock_recorded (k := k) h.ok h.settled 0 with
    ⟨b, s', hb, h0, hr, hs', hset', hrec⟩ | ⟨s', hall, hr, hs', hset', hrec⟩
  · left
    refine ⟨b, s', hb, fun hmem => ?_, by rw [hr], hs', hset', fun k' b' hb' => ?_, ?_⟩
    · rw [(h.record k b hb).mpr hmem] at h0
      cases h0
    · rcases Client.mem_take_held.mp hb' with ⟨rfl, rfl⟩ | hb'
      · exact hb
      · exact h.covers k' b' hb'
    · intro k' b' hb'
      rw [Client.mem_take_held, ← h.record k' b' hb']
      simp only [Client.take]
      rw [hrec k' b' hb']
      split
      · rename_i he
        simp [he]
      · rename_i hne
        simp [hne]
  · right
    refine ⟨s', fun b hb => (h.record k b hb).mp (hall b hb), by rw [hr], hs', hset', h.covers, ?_⟩
    intro k' b' hb'
    rw [← h.record k' b' hb', ← hrec k' b']

/-- A free of a held block that keeps the window. -/
theorem RecordsHeld.free (h : RecordsHeld g dev row c) {b : BlockNo} (hb : b ∈ c.held k)
    (hkeep : KeepsWindow g dev row c.fs k b) :
    RecordsHeld g dev row (AllocOp.step dev (.free k b) c).2 := by
  simp only [AllocOp.step, inodeFreeBlock_eq]
  obtain ⟨s', hr, hs', hset', hrec⟩ := freeBlock_recorded h.ok h.settled (h.covers k b hb) hkeep
  rw [hr]
  refine ⟨hs', hset', fun k' b' hb' => h.covers k' b' (Client.mem_give_held.mp hb').2, ?_⟩
  intro k' b' hb'
  rw [Client.mem_give_held, ← h.record k' b' hb']
  simp only [Client.give]
  rw [hrec k' b' hb']
  split
  · rename_i he
    simp [he]
  · rename_i hne
    simp [hne]

/-- The covered blocks of a map. -/
def Shape.covered (g : Shape) (k : MapKind) : Finset BlockNo :=
  blockRange (g.regionStart k) (512 * g.mapLen k)

theorem Shape.mem_covered (hg : g.Sound) {b : BlockNo} : b ∈ g.covered k ↔ g.Covers k b :=
  mem_blockRange (hg.fits k)

theorem Shape.card_covered (hg : g.Sound) : (g.covered k).card = 512 * g.mapLen k :=
  card_blockRange (hg.fits k)

theorem RecordsHeld.held_subset (h : RecordsHeld g dev row c) : c.held k ⊆ g.covered k :=
  fun b hb => (Shape.mem_covered h.ok.sound).mpr (h.covers k b hb)

/-- **Filling a map**: as long as there are bits left, every get succeeds. -/
theorem RecordsHeld.fill (h : RecordsHeld g dev row c) {n : ℕ}
    (hn : (c.held k).card + n ≤ 512 * g.mapLen k) :
    RecordsHeld g dev row ((allocMachine dev).exec (List.replicate n (.get k)) c) ∧
      (((allocMachine dev).exec (List.replicate n (.get k)) c).held k).card =
        (c.held k).card + n := by
  induction n generalizing c with
  | zero => exact ⟨h, rfl⟩
  | succ n ih =>
      rw [List.replicate_succ, Lib.Machine.exec_cons]
      rcases h.get k with ⟨b, fs, -, hnew, hstep, h'⟩ | ⟨fs, hall, -, -⟩
      · have hcard : ((c.take k b fs).held k).card = (c.held k).card + 1 := by
          simp only [Client.take, Function.update_self]
          exact Finset.card_insert_of_notMem hnew
        have hstep' : ((allocMachine dev).step (.get k) c).2 = c.take k b fs :=
          congrArg Prod.snd hstep
        rw [hstep']
        obtain ⟨h1, h2⟩ := ih h' (by omega)
        exact ⟨h1, by omega⟩
      · -- The map cannot be full before its last bit is taken.
        have hsub : g.covered k ⊆ c.held k := fun b hb =>
          hall b ((Shape.mem_covered h.ok.sound).mp hb)
        have hle := Finset.card_le_card hsub
        rw [Shape.card_covered h.ok.sound] at hle
        omega

/-- A map all of whose bits have been taken. -/
theorem RecordsHeld.full (h : RecordsHeld g dev row c)
    (hcard : (c.held k).card = 512 * g.mapLen k) {b : BlockNo} (hb : g.Covers k b) :
    b ∈ c.held k := by
  have heq : c.held k = g.covered k :=
    Finset.eq_of_subset_of_card_le h.held_subset (by rw [Shape.card_covered h.ok.sound, hcard])
  rw [heq]
  exact (Shape.mem_covered h.ok.sound).mpr hb

end Held

/-! ## No double allocation -/

section Mounted
variable {g : Shape} {dev : DevNo} {row : Fin inodeNrDev} {c : Client}

/-- The client holds the blocks whose bits are set on the disk. -/
def Client.HoldsRecorded (g : Shape) (dev : DevNo) (c : Client) : Prop :=
  ∀ k b, b ∈ c.held k ↔
    g.Covers k b ∧ bitGet (c.fs.store dev (g.ptrOf k b)) (g.bitOf k b).toNat = 1

/-- On a mounted device the record is the disk. -/
theorem Mounted.recorded (h : Mounted g dev row c.fs) (k : MapKind) (b : BlockNo) :
    recorded g dev row c.fs k b =
      bitGet (c.fs.store dev (g.ptrOf k b)) (g.bitOf k b).toNat := by
  rw [OxKernel.Fs.recorded, mapContents]
  split
  · rename_i hp
    rw [h.loaded k, hp]
  · rfl

theorem Mounted.heldOk (h : Mounted g dev row c.fs) (hheld : c.HoldsRecorded g dev) :
    HeldOk g dev row c where
  ok := h.toMapsOk
  covers k b hb := ((hheld k b).mp hb).1
  disk k b hb := ((hheld k b).mp hb).2
  window k b hb hptr := by
    rw [h.loaded k, ← hptr]
    exact ((hheld k b).mp hb).2

theorem RecordsHeld.holdsRecorded (h : RecordsHeld g dev row c) (hm : Mounted g dev row c.fs) :
    c.HoldsRecorded g dev := by
  intro k b
  rw [← hm.recorded k b]
  refine ⟨fun hb => ?_, fun hb => (h.record k b hb.1).mp hb.2⟩
  have hcov := h.covers k b hb
  exact ⟨hcov, (h.record k b hcov).mpr hb⟩

/-- **No double allocation.** After every run of gets and matching frees on a mounted device
whose maps record any blocks as used, a get does not return a block that is held. The blocks
that are held at the mount are those that the maps record. -/
theorem get_not_held (h : Mounted g dev row c.fs) (hheld : c.HoldsRecorded g dev)
    {ops : List AllocOp} (hops : (allocMachine dev).Admits (fun c op => op.Matching c) ops c)
    (k : MapKind) (b : BlockNo)
    (hget : ((allocMachine dev).step (.get k) ((allocMachine dev).exec ops c)).1 = (.ok, b)) :
    b ∉ ((allocMachine dev).exec ops c).held k := by
  have hinv : HeldOk g dev row ((allocMachine dev).exec ops c) :=
    Lib.Machine.exec_invariant (P := HeldOk g dev row) (fun _ _ hc hop => HeldOk.step hc hop)
      ops c (h.heldOk hheld) hops
  exact hinv.get_notMem hget

/-- Gets keep the device mounted. -/
theorem Mounted.exec_gets (h : Mounted g dev row c.fs) (n : ℕ) (k : MapKind) :
    Mounted g dev row ((allocMachine dev).exec (List.replicate n (.get k)) c).fs := by
  induction n generalizing c with
  | zero => exact h
  | succ n ih =>
      rw [List.replicate_succ, Lib.Machine.exec_cons]
      refine ih ?_
      show Mounted g dev row (AllocOp.step dev (.get k) c).2.fs
      rw [step_get_fs]
      exact h.get k 0

end Mounted

/-- The numbers of a volume of 10240 blocks: two map blocks for the data, which starts at
block 6148. -/
theorem bmap_10240 :
    (volumeShape (5242880 / 512)).mapLen .bmap = 2 ∧
      ((volumeShape (5242880 / 512)).regionStart .bmap).toNat = 6148 := by
  have H := volumeShape_numbers (volumeSize_lt 5242880)
  constructor
  · rw [Shape.mapLen, H.mapEnd, Nat.add_sub_cancel_left]
    rfl
  · exact H.regionStart .bmap

/-- Gets are always matching. -/
theorem replicate_get_matching (n : ℕ) (k : MapKind) (c : Client) (dev : DevNo) :
    (allocMachine dev).Admits (fun c op => op.Matching c) (List.replicate n (.get k)) c := by
  refine .of_forall _ _ fun op hop c => ?_
  rw [List.eq_of_mem_replicate hop]
  trivial

/-- A volume of 10240 blocks, of which four are in use. -/
def recordedVolume : Client :=
  (allocMachine 0).exec (List.replicate 4 (.get .bmap)) (Client.start (mountedVolume 5242880))

theorem recordedVolume_recordsHeld :
    RecordsHeld (volumeShape (5242880 / 512)) 0 0 recordedVolume ∧
      (recordedVolume.held .bmap).card = 4 := by
  refine (@mountedVolume_fresh 5242880 rfl).recordsHeld.fill (k := .bmap) ?_
  rw [bmap_10240.1]
  decide

/-- One of the four blocks is given back and two gets follow: five blocks are held, and the next
get returns another one. -/
theorem get_not_held_used : ∃ b₀ ∈ recordedVolume.held .bmap, ∃ c, c =
    (allocMachine 0).exec (.free .bmap b₀ :: List.replicate 2 (.get .bmap)) recordedVolume ∧
      (c.held .bmap).card = 5 ∧
      ∃ b, ((allocMachine 0).step (.get .bmap) c).1 = (.ok, b) ∧ b ∉ c.held .bmap := by
  have hlen := bmap_10240.1
  obtain ⟨hused, hfour⟩ := recordedVolume_recordsHeld
  have hmount : Mounted (volumeShape (5242880 / 512)) 0 0 recordedVolume.fs :=
    (@mountedVolume_fresh 5242880 rfl).mounted_start.exec_gets 4 .bmap
  obtain ⟨b₀, hb₀⟩ := Finset.card_pos.mp (by omega : 0 < (recordedVolume.held .bmap).card)
  -- The free.
  have hcov := hused.covers .bmap b₀ hb₀
  obtain ⟨w, hr, -, -⟩ := freeBlock_flat hmount.toMapsOk hcov
  have hfree := hused.free hb₀ (Or.inr (hmount.loaded .bmap))
  have hthree : (((AllocOp.step 0 (.free .bmap b₀) recordedVolume).2).held .bmap).card = 3 := by
    rw [step_free_ok hr]
    simp only [Client.give, Function.update_self]
    rw [Finset.card_erase_of_mem hb₀, hfour]
  -- The gets after it.
  obtain ⟨hlast, hfive⟩ := hfree.fill (k := .bmap) (n := 2) (by
    rw [hlen, hthree]
    decide)
  rw [hthree] at hfive
  rcases hlast.get .bmap with ⟨b, fs, -, -, hstep, -⟩ | ⟨fs, hall, -, -⟩
  · refine ⟨b₀, hb₀, _, rfl, hfive, b, congrArg Prod.fst hstep, ?_⟩
    have hrun : (allocMachine 0).Admits (fun c op => op.Matching c)
        (.free .bmap b₀ :: List.replicate 2 (.get .bmap)) recordedVolume :=
      ⟨hb₀, replicate_get_matching 2 .bmap _ 0⟩
    exact get_not_held hmount (hused.holdsRecorded hmount) hrun .bmap b (congrArg Prod.fst hstep)
  · -- Not every block is held.
    have hle := Finset.card_le_card fun b hb => hall b ((Shape.mem_covered hlast.ok.sound).mp hb)
    rw [hfive, Shape.card_covered hlast.ok.sound, hlen] at hle
    omega

/-! ## No lost frees -/

section Freed
variable {k : MapKind} {g : Shape} {dev : DevNo} {row : Fin inodeNrDev} {c : Client}

/-- The freed blocks are recorded as free. -/
structure FreedOk (g : Shape) (dev : DevNo) (row : Fin inodeNrDev) (c : Client) : Prop where
  ok : MapsOk g dev row c.fs
  settled : Settled dev row c.fs
  covers : ∀ k, ∀ b ∈ c.freed k, g.Covers k b
  free : ∀ k, ∀ b ∈ c.freed k, recorded g dev row c.fs k b = 0

/-- A free gives back a block of the volume. -/
def AllocOp.OfVolume (g : Shape) : AllocOp → Prop
  | .get _ => True
  | .free k b => g.Covers k b

/-- A free does not move the window away from bits that are not on disk. -/
def AllocOp.KeepsFrees (g : Shape) (dev : DevNo) (row : Fin inodeNrDev) (c : Client) :
    AllocOp → Prop
  | .get _ => True
  | .free k b => KeepsWindow g dev row c.fs k b

/-- **One call loses no free**, if it keeps the window. -/
theorem FreedOk.step (h : FreedOk g dev row c) {op : AllocOp} (hop : op.OfVolume g)
    (hkeep : op.KeepsFrees g dev row c) : FreedOk g dev row (op.step dev c).2 := by
  cases op with
  | get k =>
      simp only [AllocOp.step, inodeGetBlock_eq]
      rcases getBlock_recorded (k := k) h.ok h.settled 0 with
        ⟨b, s', -, -, hr, hs', hset', hrec⟩ | ⟨s', -, hr, hs', hset', hrec⟩
      · rw [hr]
        refine ⟨hs', hset', fun k' b' hb' => ?_, fun k' b' hb' => ?_⟩
        · exact h.covers k' b' (Client.mem_take_freed.mp hb').2
        · obtain ⟨hne, hold⟩ := Client.mem_take_freed.mp hb'
          simp only [Client.take]
          rw [hrec k' b' (h.covers k' b' hold), if_neg hne]
          exact h.free k' b' hold
      · rw [hr]
        exact ⟨hs', hset', h.covers, fun k' b' hb' => (hrec k' b').trans (h.free k' b' hb')⟩
  | free k b =>
      simp only [AllocOp.step, inodeFreeBlock_eq]
      obtain ⟨s', hr, hs', hset', hrec⟩ := freeBlock_recorded h.ok h.settled hop hkeep
      rw [hr]
      have hcov : ∀ k' b', b' ∈ (c.give k b s').freed k' → g.Covers k' b' := by
        intro k' b' hb'
        rcases Client.mem_give_freed.mp hb' with ⟨rfl, rfl⟩ | hb'
        · exact hop
        · exact h.covers k' b' hb'
      refine ⟨hs', hset', hcov, fun k' b' hb' => ?_⟩
      have hr' := hrec k' b' (hcov k' b' hb')
      simp only [Client.give]
      rw [hr']
      split
      · rfl
      · rename_i hne
        exact h.free k' b' ((Client.mem_give_freed.mp hb').resolve_left hne)

section GetFree
variable {s : FsState Disk}

theorem getFree_ofVolume (h : Fresh g row s) : ∀ op ∈ getFree s, op.OfVolume g := by
  intro op hop
  simp only [getFree, List.mem_cons, List.not_mem_nil, or_false] at hop
  rcases hop with rfl | rfl
  · trivial
  · exact h.heldOk_get.covers .bmap _ (firstBlock_held h)

/-- A get leaves its window on disk. -/
theorem getFree_keepsFrees (h : Fresh g row s) :
    (allocMachine 0).Admits (fun c op => op.KeepsFrees g 0 row c) (getFree s) (Client.start s) := by
  have hin := InMap.ne_blockStart h.ok.sound (h.ok.ptr .bmap)
  refine ⟨trivial, Or.inr ?_, trivial⟩
  simp only [allocMachine]
  rw [step_get_ok (firstBlock_eq h)]
  simp only [Client.take, Client.start, afterTake_window, afterTake_ptr]
  rw [afterTake_store hin, if_pos rfl]

theorem getFree_freed (h : Fresh g row s) :
    firstBlock s ∈ ((allocMachine 0).exec (getFree s) (Client.start s)).freed .bmap := by
  have hget := h.heldOk_get
  obtain ⟨w, hr, -, -⟩ := freeBlock_flat hget.ok (hget.covers .bmap _ (firstBlock_held h))
  simp only [getFree, Lib.Machine.exec_cons, Lib.Machine.exec_nil, allocMachine, step_free_ok hr]
  exact Client.mem_give_freed.mpr (Or.inl ⟨rfl, rfl⟩)

end GetFree

/-- In a full map the bit of every covered block is set on disk. -/
theorem RecordsHeld.full_disk (h : RecordsHeld g dev row c)
    (hcard : (c.held k).card = 512 * g.mapLen k) {b : BlockNo} (hb : g.Covers k b) :
    bitGet (c.fs.store dev (g.ptrOf k b)) (g.bitOf k b).toNat = 1 := by
  have hptr := h.ok.ptr k
  have hbit := h.ok.bit k
  have hcov := Shape.covers_blockAt h.ok.sound hptr hbit
  -- The cursor is at a covered block, so the window is on disk.
  have hc : CursorSet k row c.fs := by
    have hrec := (h.record k _ hcov).mpr (h.full hcard hcov)
    rwa [recorded, Shape.ptrOf_blockAt h.ok.sound hptr hbit,
      Shape.bitOf_blockAt h.ok.sound hptr hbit, mapContents, if_pos rfl] at hrec
  rw [← mapContents_of_cursorSet h.settled hc]
  exact (h.record k b hb).mpr (h.full hcard hb)

/-- **Two frees in a full map**: if they are of blocks of different map blocks, the first
is lost. -/
theorem RecordsHeld.loses_free (h : RecordsHeld g dev row c)
    (hcard : (c.held k).card = 512 * g.mapLen k) {b b' : BlockNo} (hb : g.Covers k b)
    (hb' : g.Covers k b') (hne : g.ptrOf k b ≠ g.ptrOf k b') :
    (allocMachine dev).Admits (fun c op => op.Matching c) [.free k b, .free k b'] c ∧
      b ∈ ((allocMachine dev).exec [.free k b, .free k b'] c).freed k ∧
      recorded g dev row ((allocMachine dev).exec [.free k b, .free k b'] c).fs k b = 1 := by
  have hmem := h.full hcard hb
  have hmem' := h.full hcard hb'
  obtain ⟨w, hr, -, -⟩ := freeBlock_flat h.ok hb
  have hs := h.ok.scanned (w := w) (Shape.inMap_ptrOf h.ok.sound hb) (Shape.bitOf_lt hb)
  obtain ⟨w', hr', -, -⟩ := freeBlock_flat hs hb'
  have hstep : AllocOp.step dev (.free k b) c = ((.ok, b), c.give k b
      (scanned c.fs k row (g.ptrOf k b) (g.bitOf k b) w)) := step_free_ok hr
  have hstep' : AllocOp.step dev (.free k b')
      (c.give k b (scanned c.fs k row (g.ptrOf k b) (g.bitOf k b) w)) = ((.ok, b'),
        (c.give k b (scanned c.fs k row (g.ptrOf k b) (g.bitOf k b) w)).give k b'
          (scanned (scanned c.fs k row (g.ptrOf k b) (g.bitOf k b) w) k row (g.ptrOf k b')
            (g.bitOf k b') w')) := step_free_ok hr'
  simp only [Lib.Machine.Admits, Lib.Machine.exec_cons, Lib.Machine.exec_nil, allocMachine, hstep,
    hstep', AllocOp.Matching, Client.mem_give_held, Client.mem_give_freed]
  refine ⟨⟨hmem, ⟨fun he => hne (by rw [he.2]), hmem'⟩, trivial⟩, Or.inr (Or.inl ⟨trivial, trivial⟩), ?_⟩
  simp only [recorded, Client.give]
  rw [mapContents_scanned, if_neg hne, scanned_store]
  exact h.full_disk hcard hb

/-- Make `n` gets, then free two blocks. -/
def fillAndFree (n : ℕ) (b b' : BlockNo) : List AllocOp :=
  List.replicate n (.get .bmap) ++ [.free .bmap b, .free .bmap b']

/-- On a fresh volume: if the gets take every block the data map has a bit for, and the
two blocks have different map blocks, then the first free is lost. -/
theorem fillAndFree_loses_free {s : FsState Disk} (h : Fresh g row s) {n : ℕ}
    (hn : n = 512 * g.mapLen .bmap) {b b' : BlockNo} (hb : g.Covers .bmap b)
    (hb' : g.Covers .bmap b') (hne : g.ptrOf .bmap b ≠ g.ptrOf .bmap b') :
    (allocMachine 0).Admits (fun c op => op.Matching c) (fillAndFree n b b') (Client.start s) ∧
      b ∈ ((allocMachine 0).exec (fillAndFree n b b') (Client.start s)).freed .bmap ∧
      recorded g 0 row ((allocMachine 0).exec (fillAndFree n b b') (Client.start s)).fs .bmap b =
        1 := by
  have hempty : ((Client.start s).held .bmap).card = 0 := rfl
  obtain ⟨hfill, hcard⟩ := h.recordsHeld.fill (k := .bmap) (n := n) (by omega)
  obtain ⟨hadm, hfreed, hrec⟩ := hfill.loses_free (by omega) hb hb' hne
  rw [fillAndFree, Lib.Machine.exec_append]
  refine ⟨.append (.of_forall _ _ ?_) hadm, hfreed, hrec⟩
  intro op hop c
  rw [List.eq_of_mem_replicate hop]
  trivial

/-- **No lost frees**, in every run on a mounted device of which no free moves the window
away from bits that are not on disk: a block that has been freed and not returned since
is recorded as free. -/
theorem freed_recorded (h : Mounted g dev row c.fs) (hfreed : ∀ k, c.freed k = ∅)
    {ops : List AllocOp} (hops : ∀ op ∈ ops, op.OfVolume g)
    (hrun : (allocMachine dev).Admits (fun c op => op.KeepsFrees g dev row c) ops c)
    (k : MapKind) (b : BlockNo) (hb : b ∈ ((allocMachine dev).exec ops c).freed k) :
    recorded g dev row ((allocMachine dev).exec ops c).fs k b = 0 := by
  have hstart : FreedOk g dev row c :=
    ⟨h.toMapsOk, fun k => Or.inl (h.loaded k), fun k b hb => by simp [hfreed k] at hb,
      fun k b hb => by simp [hfreed k] at hb⟩
  have hguard : (allocMachine dev).Admits
      (fun c op => op.OfVolume g ∧ op.KeepsFrees g dev row c) ops c :=
    hrun.imp ops c fun op hop _ hk => ⟨hops op hop, hk⟩
  have hinv : FreedOk g dev row ((allocMachine dev).exec ops c) :=
    Lib.Machine.exec_invariant (P := FreedOk g dev row) (fun _ _ hc hop => hc.step hop.1 hop.2)
      ops c hstart hguard
  exact hinv.free k b hb

end Freed

/-- On a volume of 10240 blocks: a block that has been returned and freed is recorded as
free. -/
theorem freed_recorded_get_free :
    recorded (volumeShape (5242880 / 512)) 0 0
      ((allocMachine 0).exec (getFree (mountedVolume 5242880))
        (Client.start (mountedVolume 5242880))).fs .bmap (firstBlock (mountedVolume 5242880)) = 0 := by
  have hF := @mountedVolume_fresh 5242880 rfl
  exact freed_recorded hF.mounted_start (fun _ => rfl) (getFree_ofVolume hF) (getFree_keepsFrees hF)
    .bmap _ (getFree_freed hF)

/-- On a volume of 10240 blocks: after 1024 gets, which take every block the two blocks of
the data map have bits for, the free of block 6148 is lost by the free of block 6660. -/
theorem freed_lost_full_volume :
    (allocMachine 0).Admits (fun c op => op.Matching c) (fillAndFree 1024 6148 6660)
        (Client.start (mountedVolume 5242880)) ∧
      6148 ∈ ((allocMachine 0).exec (fillAndFree 1024 6148 6660)
        (Client.start (mountedVolume 5242880))).freed .bmap ∧
      recorded (volumeShape (5242880 / 512)) 0 0
        ((allocMachine 0).exec (fillAndFree 1024 6148 6660)
          (Client.start (mountedVolume 5242880))).fs .bmap 6148 = 1 := by
  obtain ⟨hlen, hstart⟩ := bmap_10240
  have hF := @mountedVolume_fresh 5242880 rfl
  have hcov : (volumeShape (5242880 / 512)).Covers .bmap 6148 := by
    rw [Shape.Covers, hlen, hstart]
    decide
  have hcov' : (volumeShape (5242880 / 512)).Covers .bmap 6660 := by
    rw [Shape.Covers, hlen, hstart]
    decide
  refine fillAndFree_loses_free hF (by rw [hlen]) hcov hcov' fun he => ?_
  have hnat := congrArg UInt32.toNat he
  rw [Shape.ptrOf_toNat hF.ok.sound hcov, Shape.ptrOf_toNat hF.ok.sound hcov', hstart] at hnat
  exact absurd (Nat.add_left_cancel hnat) (by decide)

end OxKernel.Fs
