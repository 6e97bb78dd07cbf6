import OxKernel.Fs.File

/-!
# What a transfer does to the inode

Over any block layer and for any file, a transfer that succeeds has processed all its bytes: it
leaves the position behind them, and the size is no smaller. A call behind the end of the file
has filled the gap before, and counts these bytes too, whether it reads or writes.

## Main results

* `fileReadWrite_moves` — one transfer.
* `transferCall_moves`, `transferCall_gap` — a call inside the file, and one behind its end.
-/
namespace OxKernel.Fs

open Lib (Attempt)

/-- The inode without its chain. -/
def Inode.unchained (n : Inode) : Inode := { n with next := 0 }

section Engine
variable {σ : Type} {L : BlockLayer σ} {dev : DevNo} {m : Inode}

/-- The inode in memory is the given one, but for its chain. -/
abbrev InodeIs (m : Inode) : FileIo σ → Prop := fun s => s.inode.unchained = m

theorem readBlock_keeps (b : BlockNo) : Attempt.Keeps (InodeIs m) (readBlock L dev b) := by
  intro s hs
  simp only [readBlock]
  split <;> exact hs

theorem writeBlock_keeps (b : BlockNo) (data : Sector) :
    Attempt.Keeps (InodeIs m) (writeBlock L dev b data) := by
  intro s hs
  simp only [writeBlock]
  split <;> exact hs

theorem getDataBlock_keeps : Attempt.Keeps (InodeIs m) (getDataBlock L dev) := by
  intro s hs
  simp only [getDataBlock]
  split <;> exact hs

theorem readMap_keeps (b : BlockNo) : Attempt.Keeps (InodeIs m) (readMap L dev b) :=
  (readBlock_keeps b).bind fun _ => Attempt.Keeps.pure _

theorem getInode_keeps : Attempt.Keeps (@InodeIs σ m) getInode := fun _ hs => hs

theorem chainStep_keeps (a : BlockNo × BlockMap) :
    Attempt.Keeps (InodeIs m) (chainStep L dev a) :=
  (readMap_keeps _).bind fun _ => Attempt.Keeps.pure _

theorem locate_keeps (pos : UInt64) : Attempt.Keeps (InodeIs m) (locate L dev pos) := by
  refine getInode_keeps.bind fun n => ?_
  refine Attempt.Keeps.ite ?_ (Attempt.Keeps.ite ?_ (Attempt.Keeps.ite ?_ ?_))
  · refine getDataBlock_keeps.bind fun _ => Attempt.Keeps.bind (fun _ hs => hs) fun _ => ?_
    refine getInode_keeps.bind fun _ => (writeBlock_keeps _ _).bind fun _ => ?_
    refine (writeBlock_keeps _ _).bind fun _ => (readMap_keeps _).bind fun _ => ?_
    exact getDataBlock_keeps.bind fun _ => (writeBlock_keeps _ _).bind fun _ => Attempt.Keeps.pure _
  · exact (readMap_keeps _).bind fun _ => Attempt.Keeps.pure _
  · exact (readMap_keeps _).bind fun _ => Attempt.Keeps.pure _
  · exact (Attempt.Keeps.iterate chainStep_keeps _ _).bind fun _ => Attempt.Keeps.pure _

theorem nextBlock_keeps (t : Spot) : Attempt.Keeps (InodeIs m) (nextBlock L dev t) := by
  have hmap : ∀ i, Attempt.Keeps (InodeIs m) (nextMap L dev t i) := by
    intro i
    refine Attempt.Keeps.ite ?_ (Attempt.Keeps.pure _)
    dsimp only
    have hrest : ∀ b : BlockMap, Attempt.Keeps (InodeIs m)
        (readMap L dev b.next >>= fun tmp => pure (b.next, tmp)) :=
      fun b => (readMap_keeps _).bind fun _ => Attempt.Keeps.pure _
    split
    · refine Attempt.Keeps.bind ?_ hrest
      exact getDataBlock_keeps.bind fun _ => (writeBlock_keeps _ _).bind fun _ =>
        (writeBlock_keeps _ _).bind fun _ => Attempt.Keeps.pure _
    · exact hrest _
  have hblock : ∀ c b i, Attempt.Keeps (InodeIs m) (ensureBlock L dev c b i) := by
    intro c b i
    refine Attempt.Keeps.ite ?_ (Attempt.Keeps.pure _)
    exact getDataBlock_keeps.bind fun _ => (writeBlock_keeps _ _).bind fun _ =>
      (writeBlock_keeps _ _).bind fun _ => Attempt.Keeps.pure _
  exact (hmap _).bind fun _ => (hblock _ _ _).bind fun _ => (readBlock_keeps _).bind fun _ =>
    Attempt.Keeps.pure _

theorem transferByte_keeps (reading : Bool) (t : Transfer) :
    Attempt.Keeps (InodeIs m) (transferByte L dev reading t) := by
  have hcopy : Attempt.Keeps (@InodeIs σ m) (copyByte reading t) := by
    intro s hs
    simp only [copyByte, Attempt.get_bind_apply]
    cases reading <;> simp only [Bool.false_eq_true, if_false, if_true]
    · exact hs
    · split <;> exact hs
  refine hcopy.bind fun t => Attempt.Keeps.ite (getInode_keeps.bind fun n => ?_)
    (Attempt.Keeps.pure _)
  dsimp only
  split
  · exact (writeBlock_keeps _ _).bind fun _ => (Attempt.Keeps.pure false).bind fun _ =>
      (nextBlock_keeps _).bind fun _ => Attempt.Keeps.pure _
  · exact (Attempt.Keeps.pure _).bind fun _ => (nextBlock_keeps _).bind fun _ =>
      Attempt.Keeps.pure _

/-- A round counts one byte. -/
theorem transferByte_i {reading : Bool} {t t' : Transfer} {s s' : FileIo σ}
    (h : transferByte L dev reading t s = (some t', s')) : t'.i = t.i + 1 := by
  obtain ⟨t₁, s₁, hcopy, h⟩ := Attempt.bind_eq_some.mp h
  have hi : t₁.i = t.i := by
    simp only [copyByte, Attempt.get_bind_apply] at hcopy
    cases reading with
    | false =>
        cases hcopy
        rfl
    | true =>
        simp only [if_true] at hcopy
        split at hcopy
        · cases hcopy
          rfl
        · cases hcopy
          rfl
  dsimp only at h
  split at h
  · have hend : t'.i = t₁.i + 1 := by
      rw [endBlock] at h
      obtain ⟨n, s₂, -, h⟩ := Attempt.bind_eq_some.mp h
      dsimp only at h
      split at h
      · obtain ⟨-, s₃, -, h⟩ := Attempt.bind_eq_some.mp h
        obtain ⟨flag, s₄, -, h⟩ := Attempt.bind_eq_some.mp h
        obtain ⟨a, s₅, -, h⟩ := Attempt.bind_eq_some.mp h
        cases h
        rfl
      · obtain ⟨flag, s₃, -, h⟩ := Attempt.bind_eq_some.mp h
        obtain ⟨a, s₄, -, h⟩ := Attempt.bind_eq_some.mp h
        cases h
        rfl
    rw [hend, hi]
  · cases h
    rw [hi]

theorem iterate_i {reading : Bool} {k : ℕ} {t t' : Transfer} {s s' : FileIo σ}
    (h : Attempt.iterate (transferByte L dev reading) k t s = (some t', s')) :
    t'.i = t.i + UInt32.ofNat k := by
  induction k generalizing t s with
  | zero =>
      cases h
      exact (UInt32.add_zero _).symm
  | succ k ih =>
      obtain ⟨t₁, s₁, hstep, hrest⟩ := Attempt.bind_eq_some.mp h
      rw [ih hrest, transferByte_i hstep, UInt32.add_assoc, UInt32.add_comm 1, ← UInt32.ofNat_one,
        ← UInt32.ofNat_add]

/-- The end of a transfer. -/
theorem endTransfer_moves {pos : UInt64} {t : Transfer} {s s' : FileIo σ} {r : UInt64}
    (hs : InodeIs m s) (h : endTransfer L dev pos t s = (some r, s')) :
    r = t.i.toUInt64 ∧ InodeIs (m.afterTransfer pos t) s' := by
  obtain ⟨u, s₁, hflush, h⟩ := Attempt.bind_eq_some.mp h
  obtain ⟨u', s₂, hmodify, h⟩ := Attempt.bind_eq_some.mp h
  obtain ⟨n, s₃, hget, h⟩ := Attempt.bind_eq_some.mp h
  obtain ⟨u'', s₄, hwrite, h⟩ := Attempt.bind_eq_some.mp h
  cases h
  have h₁ : InodeIs m s₁ :=
    (Attempt.Keeps.ite (writeBlock_keeps _ _) (Attempt.Keeps.pure _)).after hs hflush
  have h₂ : InodeIs (m.afterTransfer pos t) s₂ := by
    cases hmodify
    rw [InodeIs, ← h₁]
    rfl
  exact ⟨rfl, (writeBlock_keeps _ _).after (getInode_keeps.after h₂ hget) hwrite⟩

/-- **A transfer that succeeds** has processed all its bytes. -/
theorem fileReadWrite_moves {pos length : UInt64} {reading : Bool} {s s' : FileIo σ} {r : UInt64}
    (hlt : length.toNat < 2 ^ 32) (h : fileReadWrite L pos length reading s = (some r, s')) :
    r = length ∧ (length = 0 ∧ s' = s ∨
      s'.inode.pos = pos + length ∧
        s'.inode.size = if s.inode.size < pos + length then pos + length else s.inode.size) := by
  rw [fileReadWrite] at h
  split at h
  · rename_i h0
    cases h
    exact ⟨h0.symm, Or.inl ⟨h0, rfl⟩⟩
  · obtain ⟨n, s₁, hget, h⟩ := Attempt.bind_eq_some.mp h
    cases hget
    obtain ⟨spot, s₂, hlocate, h⟩ := Attempt.bind_eq_some.mp h
    obtain ⟨dptr, s₃, hread, h⟩ := Attempt.bind_eq_some.mp h
    obtain ⟨t, s₄, hloop, h⟩ := Attempt.bind_eq_some.mp h
    have h₂ : InodeIs s.inode.unchained s₂ := (locate_keeps pos).after rfl hlocate
    have h₃ := (readBlock_keeps _).after h₂ hread
    have h₄ := (Attempt.Keeps.iterate (transferByte_keeps reading) _ _).after h₃ hloop
    obtain ⟨hr, h₅⟩ := endTransfer_moves h₄ h
    have hi : t.i.toUInt64 = length := by
      rw [iterate_i hloop]
      apply UInt64.toNat_inj.mp
      simp only [UInt32.zero_add, UInt32.toNat_toUInt64, UInt32.toNat_ofNat']
      omega
    refine ⟨hr.trans hi, Or.inr ⟨?_, ?_⟩⟩
    · have hpos : s'.inode.unchained.pos = pos + t.i.toUInt64 := by
        rw [h₅]
        rfl
      rw [← hi]
      exact hpos
    · have hsize : s'.inode.unchained.size =
          if s.inode.size < pos + t.i.toUInt64 then pos + t.i.toUInt64 else s.inode.size := by
        rw [h₅]
        rfl
      rw [← hi]
      exact hsize

/-- One piece of the gap. -/
theorem fillStep_moves {length bytes b : UInt64} {reading : Bool} {s s' : FileIo σ}
    (h0 : length ≠ 0) (hlt : length.toNat < 2 ^ 32)
    (hsize : s.inode.size.toNat + length.toNat < 2 ^ 64)
    (h : fillStep L length reading bytes s = (some b, s')) :
    b = bytes + length ∧ s'.inode.size.toNat = s.inode.size.toNat + length.toNat ∧
      s'.inode.pos = s'.inode.size := by
  obtain ⟨n, s₁, hget, h⟩ := Attempt.bind_eq_some.mp h
  cases hget
  obtain ⟨tmp, s₂, hrun, h⟩ := Attempt.bind_eq_some.mp h
  cases h
  have hne : length.toNat ≠ 0 := fun he => h0 (UInt64.toNat_inj.mp he)
  obtain ⟨rfl, ⟨hzero, -⟩ | ⟨hpos, hsize'⟩⟩ := fileReadWrite_moves hlt hrun
  · exact absurd hzero h0
  · have hsum : (s.inode.size + tmp).toNat = s.inode.size.toNat + tmp.toNat := by
      rw [UInt64.toNat_add, Nat.mod_eq_of_lt hsize]
    have hgrow : s.inode.size < s.inode.size + tmp := by
      rw [UInt64.lt_iff_toNat_lt, hsum]
      omega
    rw [if_pos hgrow] at hsize'
    refine ⟨rfl, ?_, hpos.trans hsize'.symm⟩
    rw [hsize', hsum]

theorem fillSteps_moves {reading : Bool} {k : ℕ} {bytes b : UInt64} {s s' : FileIo σ}
    (hsize : s.inode.size.toNat + 512 * k < 2 ^ 64) (hbytes : bytes.toNat + 512 * k < 2 ^ 64)
    (h : Attempt.iterate (fillStep L 512 reading) k bytes s = (some b, s')) :
    b.toNat = bytes.toNat + 512 * k ∧ s'.inode.size.toNat = s.inode.size.toNat + 512 * k ∧
      (s'.inode.pos = s'.inode.size ∨ k = 0 ∧ s' = s) := by
  induction k generalizing bytes s with
  | zero =>
      cases h
      exact ⟨rfl, rfl, Or.inr ⟨rfl, rfl⟩⟩
  | succ k ih =>
      obtain ⟨b₁, s₁, hstep, hrest⟩ := Attempt.bind_eq_some.mp h
      have h512 : (512 : UInt64).toNat = 512 := rfl
      obtain ⟨rfl, hsize₁, hpos₁⟩ := fillStep_moves (by decide) (by decide) (by omega) hstep
      have hsum : (bytes + 512).toNat = bytes.toNat + 512 := by
        rw [UInt64.toNat_add, h512]
        omega
      obtain ⟨hb, hsize', hpos'⟩ := ih (by omega) (by omega) hrest
      refine ⟨by omega, by omega, ?_⟩
      rcases hpos' with hpos' | ⟨rfl, rfl⟩
      · exact Or.inl hpos'
      · exact Or.inl hpos₁

/-- **The gap is filled** up to the position, if it is below 2^41 bytes. -/
theorem fillGap_moves {reading : Bool} {b : UInt64} {s s' : FileIo σ}
    (hlt : s.inode.size.toNat < s.inode.pos.toNat)
    (hgap : s.inode.pos.toNat - s.inode.size.toNat < 2 ^ 41)
    (h : fillGap L reading s = (some b, s')) :
    b.toNat = s.inode.pos.toNat - s.inode.size.toNat ∧ s'.inode.size = s.inode.pos ∧
      s'.inode.pos = s.inode.pos := by
  obtain ⟨n, s₁, hget, h⟩ := Attempt.bind_eq_some.mp h
  cases hget
  obtain ⟨g, hg⟩ : ∃ g, g = s.inode.pos - s.inode.size := ⟨_, rfl⟩
  have hgn : g.toNat = s.inode.pos.toNat - s.inode.size.toNat := by
    rw [hg, UInt64.toNat_sub_of_le]
    exact UInt64.le_iff_toNat_le.mpr hlt.le
  have hp := s.inode.pos.toNat_lt
  have hsteps : (g / 512).toUInt32.toNat = g.toNat / 512 := by
    simp only [UInt64.toNat_toUInt32, UInt64.toNat_div, UInt64.toNat_ofNat, Nat.reducePow,
      Nat.reduceMod]
    omega
  have hrest : (g % 512).toUInt32.toNat = g.toNat % 512 := by
    simp only [UInt64.toNat_toUInt32, UInt64.toNat_mod, UInt64.toNat_ofNat, Nat.reducePow,
      Nat.reduceMod]
    omega
  obtain ⟨b₁, s₂, hloop, h⟩ := Attempt.bind_eq_some.mp h
  rw [← hg, hsteps] at hloop
  obtain ⟨hb₁, hsize₁, hpos₁⟩ := fillSteps_moves (by omega) (by simp; omega) hloop
  rw [← hg] at h
  have h0 : (0 : UInt64).toNat = 0 := rfl
  split at h
  · rename_i hzero
    rw [hzero, UInt32.toNat_zero] at hrest
    cases h
    refine ⟨by omega, UInt64.toNat_inj.mp (by omega), ?_⟩
    rcases hpos₁ with hpos₁ | ⟨hk, -⟩
    · exact hpos₁.trans (UInt64.toNat_inj.mp (by omega))
    · omega
  · rename_i hzero
    have hlen : ((g % 512).toUInt32.toUInt64).toNat = g.toNat % 512 := by
      rw [UInt32.toNat_toUInt64, hrest]
    have hne : (g % 512).toUInt32.toUInt64 ≠ 0 := by
      intro he
      rw [he, h0] at hlen
      exact hzero (UInt32.toNat_inj.mp (hrest.trans hlen.symm))
    obtain ⟨rfl, hsize₂, hpos₂⟩ := fillStep_moves hne (by omega) (by omega) h
    have hpos : s'.inode.size = s.inode.pos := UInt64.toNat_inj.mp (by omega)
    refine ⟨?_, hpos, hpos₂.trans hpos⟩
    rw [UInt64.toNat_add]
    omega

/-- **A call inside the file** counts the bytes it was asked for. -/
theorem transferCall_moves {count : UInt32} {reading : Bool} {s s' : FileIo σ} {r : UInt64}
    (hle : s.inode.pos.toNat ≤ s.inode.size.toNat)
    (h : transferCall L count reading s = (some r, s')) :
    r = count.toUInt64 ∧ (count = 0 ∧ s' = s ∨
      s'.inode.pos = s.inode.pos + count.toUInt64 ∧
        s'.inode.size = if s.inode.size < s.inode.pos + count.toUInt64
          then s.inode.pos + count.toUInt64 else s.inode.size) := by
  obtain ⟨n, s₁, hget, h⟩ := Attempt.bind_eq_some.mp h
  cases hget
  have hgap : ¬ s.inode.size < s.inode.pos := by
    rw [UInt64.lt_iff_toNat_lt]
    omega
  dsimp only at h
  rw [if_neg hgap] at h
  obtain ⟨g, s₂, hpure, h⟩ := Attempt.bind_eq_some.mp h
  cases hpure
  obtain ⟨n, s₃, hget, h⟩ := Attempt.bind_eq_some.mp h
  cases hget
  obtain ⟨b, s₄, hrun, h⟩ := Attempt.bind_eq_some.mp h
  cases h
  have hcount : count.toUInt64.toNat = count.toNat := UInt32.toNat_toUInt64 _
  obtain ⟨rfl, hrest⟩ := fileReadWrite_moves (by rw [hcount]; exact count.toNat_lt) hrun
  refine ⟨UInt64.add_zero _, ?_⟩
  rcases hrest with ⟨h0, rfl⟩ | hmoved
  · have h0' := congrArg UInt64.toNat h0
    rw [hcount] at h0'
    exact Or.inl ⟨UInt32.toNat_inj.mp h0', rfl⟩
  · exact Or.inr hmoved

/-- **A call behind the end of the file** counts the bytes of the gap, too, and makes the file
longer, even if it reads nothing. -/
theorem transferCall_gap {count : UInt32} {reading : Bool} {s s' : FileIo σ} {r : UInt64}
    (hlt : s.inode.size.toNat < s.inode.pos.toNat)
    (hgap : s.inode.pos.toNat - s.inode.size.toNat < 2 ^ 41)
    (h : transferCall L count reading s = (some r, s')) :
    r.toNat = (s.inode.pos.toNat - s.inode.size.toNat) + count.toNat ∧
      s.inode.pos.toNat ≤ s'.inode.size.toNat := by
  obtain ⟨n, s₁, hget, h⟩ := Attempt.bind_eq_some.mp h
  cases hget
  dsimp only at h
  rw [if_pos (UInt64.lt_iff_toNat_lt.mpr hlt)] at h
  obtain ⟨g, s₂, hfill, h⟩ := Attempt.bind_eq_some.mp h
  obtain ⟨n, s₃, hget, h⟩ := Attempt.bind_eq_some.mp h
  cases hget
  obtain ⟨b, s₄, hrun, h⟩ := Attempt.bind_eq_some.mp h
  cases h
  have hcount : count.toUInt64.toNat = count.toNat := UInt32.toNat_toUInt64 _
  obtain ⟨hg, hsize, hpos⟩ : g.toNat = s.inode.pos.toNat - s.inode.size.toNat ∧
      s₂.inode.size = s.inode.pos ∧ s₂.inode.pos = s.inode.pos := by
    rcases hr : fillGap L reading { s with data := fun _ => 0 } with ⟨_ | g', s₅⟩
    · simp only [withZeroBuffer, hr] at hfill
      cases hfill
    · simp only [withZeroBuffer, hr] at hfill
      cases hfill
      have hmoves := fillGap_moves (s := { s with data := fun _ => 0 }) hlt hgap hr
      exact hmoves
  have hlt32 := count.toNat_lt
  obtain ⟨rfl, hrest⟩ := fileReadWrite_moves (by rw [hcount]; exact hlt32) hrun
  constructor
  · rw [UInt64.toNat_add, hcount, hg]
    omega
  · rcases hrest with ⟨-, rfl⟩ | ⟨-, hsize'⟩
    · rw [hsize]
    · rw [hsize', hsize]
      split
      · rename_i hgrow
        exact (UInt64.lt_iff_toNat_lt.mp hgrow).le
      · exact le_rfl

end Engine

end OxKernel.Fs
