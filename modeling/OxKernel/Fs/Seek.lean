import OxKernel.Fs.FileCalls

/-!
# The law of seeks

`klseek` counts with an offset without a sign: a negative one goes on by nearly 2^32. Only a
seek from the current position is bounded, by `SSIZE_MAX`, and the new position is in the
inode before its block is written. A transfer after a seek scans the chain of the file, from
the end of the file if the position is behind it, and finds the block of the position it
looks for unless that is a multiple of 127 * 512 other than 0, or does not fit 2^32 blocks.

## Main definitions

* `scanStart`, `Inode.startOf` — where a transfer at a position starts.
* `SeekLaw` — a seek fails and moves nothing, or moves to the position asked for.
* `SeekOk` — when the law holds.

## Main results

* `klseek_law_iff` — the law holds exactly under `SeekOk`.
* `klseek_moves` — where a seek forward leads.
-/
namespace OxKernel.Fs

/-! ## Where a transfer starts -/

/-- The position in the file that the locals of `file_read_write` stand for: `iter` block
maps are read, then `iblock` is the entry and `byte` the byte. -/
def scanStart (pos : UInt64) : ℤ :=
  512 * (127 * ((mapSteps pos).toNat - 1 : ℤ) + (mapIndex pos).toNat) + (pos.toUInt32 % 512).toNat

theorem mapIndex_eq (pos : UInt64) : (mapIndex pos).toNat = pos.toNat / 512 % 2 ^ 32 % 127 := by
  simp only [mapIndex, UInt32.toNat_mod, UInt64.toNat_toUInt32, UInt64.toNat_div,
    UInt32.toNat_ofNat, UInt64.toNat_ofNat, Nat.reducePow, Nat.reduceMod]

/-- The number of block maps that are read, for every position. -/
theorem mapSteps_eq (pos : UInt64) :
    (mapSteps pos).toNat =
      ((pos.toNat / 512 % 2 ^ 32 + (if pos.toNat % 512 ≠ 0 then 1 else 0) +
        (if pos.toNat = 0 then 1 else 0)) % 2 ^ 32 + 126) / 127 := by
  rw [mapSteps, ceil_toNat]
  simp only [ne_eq, pos_mod_eq_zero_iff, pos_eq_zero_iff pos, UInt32.toNat_add, toNat_wholeBlocks]
  by_cases hp : pos.toNat % 512 = 0 <;> by_cases hz : pos.toNat = 0 <;> simp [hp, hz]

/-- **The scan finds a position** exactly if it is 0, or is not a multiple of 127 * 512 and
the number of blocks up to it fits the type of a block number. -/
theorem scanStart_eq_iff (pos : UInt64) :
    scanStart pos = pos.toNat ↔
      pos.toNat = 0 ∨ pos.toNat % 65024 ≠ 0 ∧ pos.toNat ≤ 512 * 4294967295 := by
  have hlt := pos.toNat_lt
  rw [scanStart, mapIndex_eq, mapSteps_eq, byte_toNat]
  by_cases hz : pos.toNat = 0
  · simp [hz]
  · have hwhole : pos.toNat % 512 = 0 →
        (pos.toNat % 65024 ≠ 0 ↔ pos.toNat / 512 % 127 ≠ 0) := by omega
    by_cases hbig : pos.toNat / 512 < 2 ^ 32
    · rw [Nat.mod_eq_of_lt hbig]
      by_cases hp : pos.toNat % 512 = 0
      · simp only [hz, hp, ne_eq, not_true_eq_false, if_false, Nat.add_zero,
          Nat.mod_eq_of_lt hbig, false_or]
        by_cases hq : pos.toNat / 512 % 127 = 0 <;> omega
      · simp only [hz, hp, ne_eq, not_false_eq_true, if_true, if_false, Nat.add_zero,
          false_or]
        by_cases hlast : pos.toNat / 512 + 1 < 2 ^ 32
        · rw [Nat.mod_eq_of_lt hlast]
          omega
        · have hq : pos.toNat / 512 + 1 = 2 ^ 32 := by omega
          rw [hq, Nat.mod_self]
          omega
    · -- The number of the block is cut off, and so is the sum.
      have hcut : (pos.toNat / 512 % 2 ^ 32 + (if pos.toNat % 512 ≠ 0 then 1 else 0) +
          (if pos.toNat = 0 then 1 else 0)) % 2 ^ 32 ≤ pos.toNat / 512 % 2 ^ 32 + 1 := by
        simp only [hz, if_false, Nat.add_zero]
        split <;> omega
      have hsmall : pos.toNat / 512 % 2 ^ 32 ≤ pos.toNat / 512 - 2 ^ 32 := by omega
      omega

/-- The position that a transfer after a seek looks for first: a gap is filled from the end
of the file on. -/
def Inode.searched (n : Inode) : UInt64 := if n.size < n.pos then n.size else n.pos

/-- The position in the file where a transfer after a seek starts that looks for a position:
without a chain the first block is made, right after an open the first block is taken, and
otherwise the chain is scanned. -/
def Inode.startOf (n : Inode) (pos : UInt64) : ℤ :=
  if n.next = inodeNull ∨ n.pos = 0 ∧ n.current = inodeNull then (pos.toUInt32 % 512).toNat
  else scanStart pos

/-- The scan stops 127 blocks early at the other multiples of 127 * 512. -/
theorem scanStart_short {pos : UInt64} (hne : pos.toNat ≠ 0) (hmul : pos.toNat % 65024 = 0)
    (hbig : pos.toNat / 512 < 2 ^ 32) : scanStart pos = pos.toNat - 65024 := by
  have hp : pos.toNat % 512 = 0 := by omega
  rw [scanStart, mapIndex_eq, mapSteps_eq, byte_toNat]
  simp only [hne, hp, ne_eq, not_true_eq_false, if_false, Nat.add_zero, Nat.mod_eq_of_lt hbig]
  omega

/-- **A transfer after a seek** inside an open file finds the block of the position where it
is said to start. -/
theorem locate_startOf {F : Setting} {s : FileIo Disk} {c : Chain} {bytes : ℕ → UInt8}
    (h : FileOk F s.fs s.inode c bytes) (hfit : c.Fits (s.inode.size.toNat / 512 + 1))
    (hseek : s.inode.iblock = iblockNopos) :
    ∃ t, locate flatStore F.dev s.inode.pos s = (some t, s) ∧
      AtSpot c ((s.inode.startOf s.inode.pos).toNat / 512) t := by
  obtain ⟨-, -, hnext, hbig⟩ := h.block_lt hfit
  have hzero : s.inode.pos = 0 ↔ s.inode.pos.toNat = 0 := UInt64.toNat_inj.symm
  by_cases hshort : s.inode.ScansShort
  · obtain ⟨t, hr, hspot⟩ := locate_short h hfit hshort
    obtain ⟨-, hpos, hmul⟩ := hshort
    have hscan := scanStart_short (fun h0 => hpos (hzero.mpr h0)) hmul (by omega)
    refine ⟨t, hr, ?_⟩
    rw [Inode.startOf, if_neg (not_or.mpr ⟨hnext, fun h0 => hpos h0.1⟩), hscan]
    have hblock : ((s.inode.pos.toNat : ℤ) - 65024).toNat / 512 =
        s.inode.pos.toNat / 512 - 127 := by
      omega
    rwa [hblock]
  · obtain ⟨t, hr, hspot⟩ := locate_chain h hfit hshort
    refine ⟨t, hr, ?_⟩
    by_cases hfirst : s.inode.pos = 0 ∧ s.inode.current = inodeNull
    · rw [Inode.startOf, if_pos (Or.inr hfirst), hfirst.1]
      rw [hfirst.1] at hspot
      exact hspot
    · have hscan : scanStart s.inode.pos = s.inode.pos.toNat := by
        rw [scanStart_eq_iff]
        by_cases h0 : s.inode.pos.toNat = 0
        · exact Or.inl h0
        · refine Or.inr ⟨fun hmul => hshort ⟨hseek, fun hp => h0 (hzero.mp hp), hmul⟩, ?_⟩
          omega
      rw [Inode.startOf, if_neg (not_or.mpr ⟨hnext, hfirst⟩), hscan]
      exact hspot

/-! ## The law -/

/-- The position that a seek asks for, where the offset has a sign. -/
def Inode.asked (n : Inode) (offset : UInt32) : Whence → Option ℤ
  | .set => some offset.toInt32.toInt
  | .cur => some (n.pos.toNat + offset.toInt32.toInt)
  | .fin => some (n.size.toNat + offset.toInt32.toInt)
  | .other => none

/-- The inode after a seek. -/
def Inode.sought (n : Inode) (pos : UInt64) : Inode := { n with pos := pos, iblock := iblockNopos }

section Law
variable {σ : Type} (L : BlockLayer σ) (s : Sys σ) (fd : Int32) (t : Fin maxFiles) (offset : UInt32)
  (whence : Whence)

/-- A seek returns -1 and leaves the position alone, or moves to the position asked for and
returns it; then a transfer starts at the position it looks for. -/
def SeekLaw : Prop :=
  let r := klseek L fd offset whence s
  let n := r.2.proc.fileTab t
  (r.1 = offMinusOne ∧ n.pos = (s.proc.fileTab t).pos) ∨
    (r.1 ≠ offMinusOne ∧ (s.proc.fileTab t).asked offset whence = some (r.1.toNat : ℤ) ∧
      n.pos.toNat = r.1.toNat ∧ n.startOf n.searched = n.searched.toNat)

/-- The block layer takes the inode with its new position. -/
def SeekWritten : Prop :=
  ∀ pos, (s.proc.fileTab t).seek offset whence = some pos →
    (L.blockWrite (s.proc.fileTab t).dev (s.proc.fileTab t).self
      (Inode.layout ((s.proc.fileTab t).sought pos)) s.fs.store).1 = .ok

end Law

/-- The offset does not go back, and the new position is in the range of the result; a seek from
behind `SSIZE_MAX` may go back just to it. -/
def Inode.SeekExact (n : Inode) (offset : UInt32) : Whence → Prop
  | .set => 0 ≤ offset.toInt32.toInt
  | .cur =>
    0 ≤ offset.toInt32.toInt ∧ n.pos.toNat + offset.toInt32.toInt ≤ 2147483647 ∨
      n.pos.toNat + offset.toInt32.toInt = 2147483647
  | .fin => 0 ≤ offset.toInt32.toInt ∧ n.size.toNat + offset.toInt32.toInt < 4294967295
  | .other => False

/-- The seek happens to lead to where the position is. -/
def Inode.SeekStays (n : Inode) (offset : UInt32) : Whence → Prop
  | .set => n.pos.toNat = offset.toNat
  | .cur => offset = 0 ∧ n.pos.toNat ≤ 2147483647 ∨ n.pos.toNat = 2147483647
  | .fin => (n.size.toNat + offset.toNat) % 2 ^ 64 = n.pos.toNat
  | .other => True

/-- A transfer after a move to the position finds its start. -/
def Inode.StartsAt (n : Inode) (p : ℤ) : Prop :=
  if n.next = inodeNull then min p n.size.toNat < 512
  else min p n.size.toNat = 0 ∨ min p n.size.toNat % 65024 ≠ 0

section Law
variable {σ : Type} {L : BlockLayer σ} {s : Sys σ} {fd : Int32} {t : Fin maxFiles} {offset : UInt32}
  {whence : Whence}

/-- When the law holds: for no known `whence`; for a block that is written, where the offset is
exact and the transfer finds its start, or the position stays and looks like -1; and for a
block that is not written, where the position stays. -/
def SeekOk (L : BlockLayer σ) (s : Sys σ) (t : Fin maxFiles) (offset : UInt32) (whence : Whence) :
    Prop :=
  whence = .other ∨
    (SeekWritten L s t offset whence ∧
      ((s.proc.fileTab t).SeekExact offset whence ∧
          (∀ p, (s.proc.fileTab t).asked offset whence = some p → (s.proc.fileTab t).StartsAt p) ∨
        (s.proc.fileTab t).SeekStays offset whence ∧
          (s.proc.fileTab t).pos.toNat % 2 ^ 32 = 4294967295)) ∨
    (¬ SeekWritten L s t offset whence ∧ (s.proc.fileTab t).SeekStays offset whence)

@[simp] theorem sought_next (n : Inode) (pos : UInt64) : (n.sought pos).next = n.next := rfl
@[simp] theorem sought_current (n : Inode) (pos : UInt64) :
    (n.sought pos).current = n.current := rfl
@[simp] theorem sought_pos (n : Inode) (pos : UInt64) : (n.sought pos).pos = pos := rfl
@[simp] theorem sought_size (n : Inode) (pos : UInt64) : (n.sought pos).size = n.size := rfl

theorem klseek_other (h : s.proc.descriptor fd = some t)
    (hseek : (s.proc.fileTab t).seek offset whence = none) :
    klseek L fd offset whence s = (offMinusOne, s) := by
  simp only [klseek, h, hseek]

/-- A seek moves the position in memory in any case, and returns it if the block is written. -/
theorem klseek_some (h : s.proc.descriptor fd = some t) {pos : UInt64}
    (hseek : (s.proc.fileTab t).seek offset whence = some pos) :
    (klseek L fd offset whence s).2.proc.fileTab t = (s.proc.fileTab t).sought pos ∧
      (SeekWritten L s t offset whence → (klseek L fd offset whence s).1 = pos.toUInt32) ∧
      (¬ SeekWritten L s t offset whence → (klseek L fd offset whence s).1 = offMinusOne) := by
  have hw : SeekWritten L s t offset whence ↔
      (L.blockWrite (s.proc.fileTab t).dev (s.proc.fileTab t).self
        (Inode.layout ((s.proc.fileTab t).sought pos)) s.fs.store).1 = .ok := by
    simp only [SeekWritten, hseek, Option.some.injEq, forall_eq']
  rw [hw]
  rcases hr : L.blockWrite (s.proc.fileTab t).dev (s.proc.fileTab t).self
    (Inode.layout ((s.proc.fileTab t).sought pos)) s.fs.store with ⟨r, st⟩
  rw [Inode.sought] at hr
  simp only [klseek, h, hseek, hr]
  by_cases hok : r = .ok
  · subst hok
    exact ⟨setInode_fileTab _ _ _, fun _ => rfl, fun hno => absurd rfl hno⟩
  · cases r with
    | ok => exact absurd rfl hok
    | fail => exact ⟨setInode_fileTab _ _ _, fun h => absurd h hok, fun _ => rfl⟩
    | param => exact ⟨setInode_fileTab _ _ _, fun h => absurd h hok, fun _ => rfl⟩

/-- The offset, with its sign. -/
theorem offset_toInt (offset : UInt32) :
    offset.toInt32.toInt = offset.toNat ∧ offset.toNat < 2147483648 ∨
      offset.toInt32.toInt = offset.toNat - 4294967296 ∧ 2147483648 ≤ offset.toNat := by
  have hint : offset.toInt32.toInt = offset.toBitVec.toInt := rfl
  have hnat : offset.toBitVec.toNat = offset.toNat := rfl
  have hlt := offset.toNat_lt
  rw [hint, BitVec.toInt_eq_toNat_cond, hnat]
  split <;> omega

/-- The position a seek moves to, as a number. -/
def Inode.soughtNat (n : Inode) (offset : UInt32) : Whence → ℕ
  | .set => offset.toNat
  | .cur => min ((n.pos.toNat + offset.toNat) % 2 ^ 64) 2147483647
  | .fin => (n.size.toNat + offset.toNat) % 2 ^ 64
  | .other => n.pos.toNat

theorem seek_toNat {n : Inode} {pos : UInt64} (hseek : n.seek offset whence = some pos) :
    pos.toNat = n.soughtNat offset whence := by
  cases whence with
  | set =>
    cases hseek
    exact count_toNat offset
  | cur =>
    cases hseek
    have hsum : (n.pos + offset.toUInt64).toNat = (n.pos.toNat + offset.toNat) % 2 ^ 64 := by
      rw [UInt64.toNat_add, count_toNat]
    simp only [Inode.soughtNat, UInt64.lt_iff_toNat_lt, hsum]
    have hmax : ssizeMax.toNat = 2147483647 := rfl
    split
    · omega
    · omega
  | fin =>
    cases hseek
    rw [UInt64.toNat_add, count_toNat]
    rfl
  | other => cases hseek

/-- What the arithmetic of a seek has to do with what is asked for. -/
theorem seek_exact {n : Inode} {pos : UInt64} (hseek : n.seek offset whence = some pos) :
    (pos.toUInt32 ≠ offMinusOne ∧ n.asked offset whence = some (pos.toUInt32.toNat : ℤ) ∧
      pos.toNat = pos.toUInt32.toNat) ↔ n.SeekExact offset whence := by
  have hsign := offset_toInt offset
  have hlt := offset.toNat_lt
  have hnat := seek_toNat hseek
  have hP := n.pos.toNat_lt
  have hS := n.size.toNat_lt
  have hmax : offMinusOne.toNat = 4294967295 := rfl
  rw [ne_eq, ← UInt32.toNat_inj, UInt64.toNat_toUInt32, hmax]
  cases whence with
  | set =>
    simp only [Inode.soughtNat, Inode.asked, Inode.SeekExact, Option.some.injEq] at hnat ⊢
    omega
  | cur =>
    simp only [Inode.soughtNat, Inode.asked, Inode.SeekExact, Option.some.injEq] at hnat ⊢
    omega
  | fin =>
    simp only [Inode.soughtNat, Inode.asked, Inode.SeekExact, Option.some.injEq] at hnat ⊢
    omega
  | other => cases hseek

theorem seek_stays {n : Inode} {pos : UInt64} (hseek : n.seek offset whence = some pos) :
    pos = n.pos ↔ n.SeekStays offset whence := by
  have hnat := seek_toNat hseek
  have hP := n.pos.toNat_lt
  have hS := n.size.toNat_lt
  rw [← UInt64.toNat_inj]
  cases whence with
  | set =>
    simp only [Inode.soughtNat, Inode.SeekStays] at hnat ⊢
    omega
  | cur =>
    have hlt := offset.toNat_lt
    have h0 : offset = 0 ↔ offset.toNat = 0 := UInt32.toNat_inj.symm
    simp only [Inode.soughtNat, Inode.SeekStays, h0] at hnat ⊢
    omega
  | fin =>
    simp only [Inode.soughtNat, Inode.SeekStays] at hnat ⊢
    omega
  | other => cases hseek

/-- Where a transfer after a seek starts, in the numbers of the inode. -/
theorem sought_startOf_iff (n : Inode) {pos : UInt64} (hlt : pos.toNat < 2 ^ 32) :
    (n.sought pos).startOf (n.sought pos).searched = (n.sought pos).searched.toNat ↔
      n.StartsAt pos.toNat := by
  obtain ⟨x, hx⟩ : ∃ x, x = (n.sought pos).searched := ⟨_, rfl⟩
  have hmin : (x.toNat : ℤ) = min (pos.toNat : ℤ) n.size.toNat := by
    rw [hx]
    simp only [Inode.searched, sought_pos, sought_size, UInt64.lt_iff_toNat_lt]
    split <;> omega
  have hzero : pos = 0 → x.toNat = 0 := by
    rintro rfl
    have h0 : (0 : UInt64).toNat = 0 := rfl
    omega
  have hscan := scanStart_eq_iff x
  rw [← hx, Inode.StartsAt, ← hmin, Inode.startOf, byte_toNat, sought_next, sought_current,
    sought_pos]
  by_cases hnext : n.next = inodeNull
  · rw [if_pos (Or.inl hnext), if_pos hnext]
    omega
  · rw [if_neg hnext]
    by_cases hfirst : pos = 0 ∧ n.current = inodeNull
    · rw [if_pos (Or.inr hfirst)]
      have h0 := hzero hfirst.1
      omega
    · rw [if_neg (not_or.mpr ⟨hnext, hfirst⟩), hscan]
      omega

/-- A seek that returns a position has moved there, and a transfer starts there. -/
theorem seek_moves_iff {n : Inode} {pos : UInt64} (hseek : n.seek offset whence = some pos) :
    (pos.toUInt32 ≠ offMinusOne ∧ n.asked offset whence = some (pos.toUInt32.toNat : ℤ) ∧
        pos.toNat = pos.toUInt32.toNat ∧
        (n.sought pos).startOf (n.sought pos).searched = (n.sought pos).searched.toNat) ↔
      n.SeekExact offset whence ∧ ∀ p, n.asked offset whence = some p → n.StartsAt p := by
  have hlt := pos.toUInt32.toNat_lt
  rw [← seek_exact hseek]
  constructor
  · rintro ⟨hne, hask, hp, hstart⟩
    refine ⟨⟨hne, hask, hp⟩, fun p hp' => ?_⟩
    rw [sought_startOf_iff _ (hp ▸ hlt), hp] at hstart
    rw [hask] at hp'
    cases hp'
    exact hstart
  · rintro ⟨⟨hne, hask, hp⟩, hstart⟩
    refine ⟨hne, hask, hp, ?_⟩
    rw [sought_startOf_iff _ (hp ▸ hlt), hp]
    exact hstart _ hask

/-- A seek whose result looks like -1 has not moved. -/
theorem seek_returns_iff {n : Inode} {pos : UInt64} (hseek : n.seek offset whence = some pos) :
    (pos.toUInt32 = offMinusOne ∧ pos = n.pos) ↔
      n.SeekStays offset whence ∧ n.pos.toNat % 2 ^ 32 = 4294967295 := by
  have hmax : offMinusOne.toNat = 4294967295 := rfl
  rw [← seek_stays hseek]
  constructor
  · rintro ⟨hr, hp⟩
    refine ⟨hp, ?_⟩
    rw [← hp, ← UInt64.toNat_toUInt32, hr, hmax]
  · rintro ⟨hp, hr⟩
    refine ⟨UInt32.toNat_inj.mp ?_, hp⟩
    rw [UInt64.toNat_toUInt32, hp, hr, hmax]

/-- **The law of seeks**, for every state of the descriptor: it holds exactly under `SeekOk`. A
descriptor that is not open moves nothing; and a transfer that scans for a position finds it
exactly if it is 0, or is not a multiple of 127 * 512 and is no more than 512 * (2^32 - 1). -/
theorem klseek_law_iff :
    (s.proc.descriptor fd = none → klseek L fd offset whence s = (offMinusOne, s)) ∧
      (s.proc.descriptor fd = some t →
        (SeekLaw L s fd t offset whence ↔ SeekOk L s t offset whence)) ∧
      ∀ pos : UInt64, scanStart pos = pos.toNat ↔
        pos.toNat = 0 ∨ pos.toNat % 65024 ≠ 0 ∧ pos.toNat ≤ 512 * 4294967295 := by
  refine ⟨fun h => ?_, fun h => ?_, scanStart_eq_iff⟩
  · simp only [klseek, h]
  · rcases hseek : (s.proc.fileTab t).seek offset whence with - | pos
    · have hother : whence = .other := by
        cases whence <;> first | rfl | cases hseek
      have hr := klseek_other (L := L) h hseek
      constructor
      · intro _
        exact Or.inl hother
      · intro _
        left
        rw [hr]
        exact ⟨rfl, rfl⟩
    · have hother : whence ≠ .other := by
        rintro rfl
        cases hseek
      obtain ⟨htab, hok, hfail⟩ := klseek_some (L := L) h hseek
      simp only [SeekLaw, SeekOk, htab, hother, false_or, sought_pos]
      by_cases hw : SeekWritten L s t offset whence
      · rw [hok hw]
        simp only [hw, true_and, not_true_eq_false, false_and, or_false]
        rw [← seek_moves_iff hseek, ← seek_returns_iff hseek, or_comm]
      · rw [hfail hw]
        simp only [hw, false_and, false_or, true_and, not_false_eq_true, ne_eq, not_true_eq_false,
          or_false]
        exact seek_stays hseek

/-- The position a seek forward leads to: `SSIZE_MAX` bounds a seek from the current one. -/
def Whence.bounded (whence : Whence) (p : ℤ) : ℤ := if whence = .cur then min p 2147483647 else p

/-- What a seek forward computes. -/
theorem seek_forward {n : Inode} {pos : UInt64} (hseek : n.seek offset whence = some pos)
    (hoff : 0 ≤ offset.toInt32.toInt) {p : ℤ} (hp : n.asked offset whence = some p)
    (hlt : p < 2 ^ 64) : (pos.toNat : ℤ) = whence.bounded p := by
  have hsign := offset_toInt offset
  have hlt32 := offset.toNat_lt
  rw [seek_toNat hseek]
  cases whence with
  | set =>
    have hp' := Option.some.inj hp
    simp only [Inode.soughtNat, Whence.bounded, reduceCtorEq, if_false]
    omega
  | cur =>
    have hp' := Option.some.inj hp
    simp only [Inode.soughtNat, Whence.bounded, if_true]
    omega
  | fin =>
    have hp' := Option.some.inj hp
    simp only [Inode.soughtNat, Whence.bounded, reduceCtorEq, if_false]
    omega
  | other => cases hseek

/-- **Seeks forward**: without a descriptor or a known `whence` nothing happens; with an offset
that does not go back and a block that is written the position is the one asked for, or
`SSIZE_MAX`, and its lower half is returned; and a transfer after it starts where it should. -/
theorem klseek_moves :
    (s.proc.descriptor fd = none ∨ s.proc.descriptor fd = some t ∧ whence = .other →
        klseek L fd offset whence s = (offMinusOne, s)) ∧
      ∀ p, s.proc.descriptor fd = some t → 0 ≤ offset.toInt32.toInt →
        SeekWritten L s t offset whence → (s.proc.fileTab t).asked offset whence = some p →
        p < 2 ^ 64 →
        let r := klseek L fd offset whence s
        let n := r.2.proc.fileTab t
        n.pos.toNat = whence.bounded p ∧ r.1.toNat = whence.bounded p % 2 ^ 32 ∧
          (whence.bounded p < 2 ^ 32 → (s.proc.fileTab t).StartsAt (whence.bounded p) →
            n.startOf n.searched = n.searched.toNat) := by
  constructor
  · rintro (h | ⟨h, rfl⟩)
    · simp only [klseek, h]
    · exact klseek_other h rfl
  · intro p h hoff hw hp hlt
    rcases hseek : (s.proc.fileTab t).seek offset whence with - | pos
    · cases whence with
      | other => cases hp
      | set => cases hseek
      | cur => cases hseek
      | fin => cases hseek
    · obtain ⟨htab, hok, -⟩ := klseek_some (L := L) h hseek
      have hpos := seek_forward hseek hoff hp hlt
      simp only [htab, hok hw, sought_pos, UInt64.toNat_toUInt32]
      refine ⟨hpos, ?_, fun hsmall hstart => ?_⟩
      · rw [← hpos]
        omega
      · rw [sought_startOf_iff _ (by omega), hpos]
        exact hstart

end Law

/-- A process with one open file, at position 10 of 20 bytes. -/
def tenOfTwenty : Sys Disk :=
  { Sys.start ⟨fun _ _ => Sector.zero, fun _ => Master.zero, fun _ _ => Sector.zero, false,
      fun _ _ => 0⟩ with
    proc := { Proc.zero with
      fileTab := fun _ => { Inode.zero with pos := 10, size := 20, next := 6148 }
      fileDesc := fun _ => some 0 } }

/-- Five bytes forward, and the start of a transfer after it. -/
theorem klseek_moves_tenOfTwenty :
    let n := (klseek flatStore 0 5 .cur tenOfTwenty).2.proc.fileTab 0
    n.pos.toNat = 15 ∧ (klseek flatStore 0 5 .cur tenOfTwenty).1.toNat = 15 ∧
      n.startOf n.searched = 15 := by
  have hmoves := (@klseek_moves _ flatStore tenOfTwenty 0 0 5 .cur).2 15 rfl (by decide)
    (fun _ _ => rfl) rfl (by decide)
  have h15 : Whence.cur.bounded 15 = 15 := by decide
  rw [h15] at hmoves
  have hsearched : ((klseek flatStore 0 5 .cur tenOfTwenty).2.proc.fileTab 0).searched = 15 := rfl
  have hchain : (tenOfTwenty.proc.fileTab 0).StartsAt 15 := by
    rw [Inode.StartsAt]
    decide
  have hstart := hmoves.2.2 (by decide) hchain
  rw [hsearched] at hstart
  refine ⟨?_, ?_, ?_⟩
  · exact_mod_cast hmoves.1
  · exact_mod_cast hmoves.2.1
  · rw [hsearched]
    exact hstart

/-- **A seek one byte back** from position 10 leads to position 2147483647. -/
theorem seek_back : ¬ SeekLaw flatStore tenOfTwenty 0 0 4294967295 .cur := by
  have hmoved : (klseek flatStore 0 4294967295 .cur tenOfTwenty).1 = 2147483647 := rfl
  rintro (⟨hr, -⟩ | ⟨-, hask, -⟩)
  · rw [hmoved] at hr
    cases hr
  · rw [hmoved] at hask
    cases hask

end OxKernel.Fs
