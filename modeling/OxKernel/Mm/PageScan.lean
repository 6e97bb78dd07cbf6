import OxKernel.Lib.Words
import OxKernel.Mm.Page

/-!
# Runs of free pages

What the loops of the page allocators do to the bitmap, with page numbers as natural
numbers below `2 ^ 32`. A scan is described under the condition that each page it starts
from is followed by a marked page in time, or comes after the start of a run that fits; it
then finds the first run that fits, and no index at or past a given bound is used.

## Main definitions

* `MemMap.Marked` — the bit of a page is set.
* `MemMap.Fits`, `MemMap.Blocked` — a run of free pages inside two bounds, and its opposite.
* `MemMap.Served` — a scan meets no page that is neither blocked nor behind a run that fits.
-/
namespace OxKernel.Mm

namespace MemMap

variable {m m' : MemMap} {p q page n limit : UInt32} {e N : ℕ}

/-- The bit of a page. -/
def isSet (m : MemMap) (page : UInt32) : Bool :=
  (m.byteOf page).toBitVec.getLsbD (bit page).toNat

/-! ### The bit functions -/

theorem bit_lt (page : UInt32) : (bit page).toNat < 8 := by
  simp only [bit, bitsPerByte, UInt32.toNat_mod]
  exact Nat.mod_lt _ (by decide)

/-- The three parts of an index determine it. -/
theorem index_inj (hblock : block p = block q) (hbyte : byte p = byte q)
    (hbit : bit p = bit q) : p = q := by
  rw [← UInt32.toNat_inj] at *
  simp only [block, byte, bit, pageBits, bitsPerByte, UInt32.toNat_div, UInt32.toNat_mod,
    UInt32.reduceToNat] at *
  omega

theorem bit_toNat_inj (hblock : block p = block q) (hbyte : byte p = byte q) :
    (bit p).toNat = (bit q).toNat ↔ p = q := by
  constructor
  · intro hbit
    exact index_inj hblock hbyte (UInt32.toNat_inj.mp hbit)
  · rintro rfl
    rfl

theorem byteOf_update (m : MemMap) (page p : UInt32) (x : UInt8) :
    (m.update page x).byteOf p =
      if block p = block page ∧ byte p = byte page then x else m.byteOf p := rfl

theorem isSet_memSetBit (m : MemMap) (page p : UInt32) :
    (m.memSetBit page).isSet p = (decide (p = page) || m.isSet p) := by
  rw [isSet, memSetBit, byteOf_update]
  split
  · rename_i h
    have hbyte : m.byteOf page = m.byteOf p := by rw [byteOf, byteOf, h.1, h.2]
    have hiff : (bit p).toNat = (bit page).toNat ↔ p = page := bit_toNat_inj h.1 h.2
    simp [isSet, hbyte, Fs.bitMask_toBitVec (bit_lt page), bit_lt, hiff,
      Bool.or_comm]
  · rename_i h
    have hne : p ≠ page := by
      rintro rfl
      exact h ⟨rfl, rfl⟩
    simp [isSet, hne]

theorem isSet_memClearBit (m : MemMap) (page p : UInt32) :
    (m.memClearBit page).isSet p = (decide (p ≠ page) && m.isSet p) := by
  rw [isSet, memClearBit, byteOf_update]
  split
  · rename_i h
    have hbyte : m.byteOf page = m.byteOf p := by rw [byteOf, byteOf, h.1, h.2]
    have hiff : (bit p).toNat = (bit page).toNat ↔ p = page := bit_toNat_inj h.1 h.2
    simp [isSet, hbyte, Fs.bitMask_toBitVec (bit_lt page), bit_lt, hiff,
      Bool.and_comm]
  · rename_i h
    have hne : p ≠ page := by
      rintro rfl
      exact h ⟨rfl, rfl⟩
    simp [isSet, hne]

/-- The test of `mem_test_bit` is 0 or 1. -/
theorem memTestBit_fst (m : MemMap) (page : UInt32) :
    (m.memTestBit page).1 = if m.isSet page then 1 else 0 := by
  have hone : ∀ i : Fin 8,
      BitVec.twoPow 8 i >>> (BitVec.ofNat 8 i % 8) = 1#8 ∧ 0#8 >>> (BitVec.ofNat 8 i % 8) = 0#8 := by
    decide
  obtain ⟨h1, h0⟩ := hone ⟨(bit page).toNat, bit_lt page⟩
  have hbyte : (m.byteOf page &&& Fs.bitMask (bit page).toNat) >>> (bit page).toUInt8 =
      if m.isSet page then 1 else 0 := by
    rw [← UInt8.toBitVec_inj, UInt8.toBitVec_shiftRight, UInt8.toBitVec_and,
      Fs.bitMask_toBitVec (bit_lt page), BitVec.and_twoPow, isSet]
    split
    · exact h1
    · exact h0
  rw [memTestBit, hbyte]
  split <;> rfl

theorem isSet_congr (h : m'.page = m.page) (p : UInt32) : m'.isSet p = m.isSet p := by
  rw [isSet, isSet, byteOf, byteOf, h]

/-- The bit of a page, by its number. -/
def Marked (m : MemMap) (x : ℕ) : Prop := m.isSet (.ofNat x) = true

theorem marked_toNat {m : MemMap} {p : UInt32} : m.Marked p.toNat ↔ m.isSet p = true := by
  rw [Marked, UInt32.ofNat_toNat]

theorem marked_congr (h : m'.page = m.page) (x : ℕ) : m'.Marked x ↔ m.Marked x := by
  rw [Marked, Marked, isSet_congr h]

theorem ofNat_eq_iff {x : ℕ} (hx : x < 2 ^ 32) : UInt32.ofNat x = p ↔ x = p.toNat := by
  rw [← UInt32.toNat_inj, UInt32.toNat_ofNat_of_lt' hx]

/-- Tests only: the bits stay, and the indices used are below a bound. -/
structure Looked (N : ℕ) (m m' : MemMap) : Prop where
  page : m'.page = m.page
  touched : ∀ x ∈ m'.touched, x ∈ m.touched ∨ x.toNat < N

theorem Looked.refl (m : MemMap) : Looked N m m := ⟨rfl, fun _ hx => .inl hx⟩

theorem Looked.trans {m₁ m₂ m₃ : MemMap} (h : Looked N m₁ m₂) (h' : Looked N m₂ m₃) :
    Looked N m₁ m₃ where
  page := h'.page.trans h.page
  touched := by
    intro x hx
    rcases h'.touched x hx with hx | hx
    · exact h.touched x hx
    · exact .inr hx

theorem looked_memTestBit (hp : p.toNat < N) : Looked N m (m.memTestBit p).2 where
  page := rfl
  touched := by
    intro x hx
    rcases List.mem_cons.mp hx with rfl | hx
    · exact .inr hp
    · exact .inl hx

/-! ### The loops over a run -/

/-- The pages of a run are free: all of it is tested. -/
theorem freeRun_of_free {k : ℕ} {run : UInt32} (hN : N ≤ 2 ^ 32)
    (hend : page.toNat + run.toNat + k ≤ N) (hrun : run.toNat + k < 2 ^ 32)
    (hfree : ∀ i, run.toNat ≤ i → i < run.toNat + k → ¬ m.Marked (page.toNat + i)) :
    ((freeRun page k run m).1).toNat = run.toNat + k ∧ Looked N m (freeRun page k run m).2 := by
  induction k generalizing run m with
  | zero => exact ⟨rfl, .refl m⟩
  | succ k ih =>
      have hidx : (page + run).toNat = page.toNat + run.toNat := Lib.toNat_add_of_lt (by omega)
      have hnext : (run + 1).toNat = run.toNat + 1 := Lib.toNat_succ (by omega)
      have hclear : m.isSet (page + run) = false := by
        have := hfree run.toNat (le_refl _) (by omega)
        rw [← hidx, marked_toNat] at this
        simpa using this
      have hlook : Looked N m (m.memTestBit (page + run)).2 := looked_memTestBit (by omega)
      rw [freeRun]
      simp only [memTestBit_fst, hclear, Bool.false_eq_true, if_false]
      rw [if_neg (by decide)]
      obtain ⟨h1, h2⟩ := @ih (m.memTestBit (page + run)).2 (run + 1) (by omega)
        (by omega) (fun i hi hi' => by
          rw [marked_congr hlook.page]
          exact hfree i (by omega) (by omega))
      exact ⟨by omega, hlook.trans h2⟩

/-- A marked page ends the run: the first one of it, and nothing is tested behind. -/
theorem freeRun_of_marked {k j : ℕ} {run : UInt32} (hN : N ≤ 2 ^ 32) (hj : run.toNat ≤ j)
    (hjk : j < run.toNat + k) (hjN : page.toNat + j < N) (hrun : run.toNat + k < 2 ^ 32)
    (hmark : m.Marked (page.toNat + j)) :
    ∃ i, run.toNat ≤ i ∧ i ≤ j ∧ m.Marked (page.toNat + i) ∧
      ((freeRun page k run m).1).toNat = i ∧ Looked N m (freeRun page k run m).2 := by
  induction k generalizing run m with
  | zero => omega
  | succ k ih =>
      have hidx : (page + run).toNat = page.toNat + run.toNat := Lib.toNat_add_of_lt (by omega)
      have hlook : Looked N m (m.memTestBit (page + run)).2 := looked_memTestBit (by omega)
      rw [freeRun]
      simp only [memTestBit_fst]
      by_cases hset : m.isSet (page + run) = true
      · rw [if_pos hset, if_pos rfl]
        refine ⟨run.toNat, le_refl _, hj, ?_, rfl, hlook⟩
        rw [← hidx, marked_toNat]
        exact hset
      · rw [if_neg hset, if_neg (by decide)]
        have hne : j ≠ run.toNat := by
          rintro rfl
          rw [← hidx, marked_toNat] at hmark
          exact hset hmark
        have hnext : (run + 1).toNat = run.toNat + 1 := Lib.toNat_succ (by omega)
        obtain ⟨i, hi, hij, hmi, hrun', hl⟩ := @ih (m.memTestBit (page + run)).2 (run + 1)
          (by omega) (by omega) (by omega)
          ((marked_congr hlook.page _).mpr hmark)
        exact ⟨i, by omega, hij, (marked_congr hlook.page _).mp hmi, hrun', hlook.trans hl⟩

/-- Marking a run marks its pages and no others. -/
theorem marked_setRun {k : ℕ} {run : UInt32} {x : ℕ} (hx : x < 2 ^ 32)
    (hend : page.toNat + run.toNat + k ≤ 2 ^ 32) (hrun : run.toNat + k < 2 ^ 32) :
    (setRun page k run m).Marked x ↔
      (page.toNat + run.toNat ≤ x ∧ x < page.toNat + run.toNat + k) ∨ m.Marked x := by
  induction k generalizing run m with
  | zero => simp [setRun]
  | succ k ih =>
      have hidx : (page + run).toNat = page.toNat + run.toNat := Lib.toNat_add_of_lt (by omega)
      have hnext : (run + 1).toNat = run.toNat + 1 := Lib.toNat_succ (by omega)
      rw [setRun, ih (by omega) (by omega), Marked, isSet_memSetBit, Bool.or_eq_true,
        decide_eq_true_eq, ofNat_eq_iff hx, hidx, hnext, ← Marked]
      constructor
      · rintro (h | h | h)
        · exact .inl (by omega)
        · exact .inl (by omega)
        · exact .inr h
      · rintro (h | h)
        · by_cases he : x = page.toNat + run.toNat
          · exact .inr (.inl he)
          · exact .inl (by omega)
        · exact .inr (.inr h)

/-- Clearing a run clears its pages and no others. -/
theorem marked_clearRun {k : ℕ} {run : UInt32} {x : ℕ} (hx : x < 2 ^ 32)
    (hend : page.toNat + run.toNat + k ≤ 2 ^ 32) (hrun : run.toNat + k < 2 ^ 32) :
    (clearRun page k run m).Marked x ↔
      ¬ (page.toNat + run.toNat ≤ x ∧ x < page.toNat + run.toNat + k) ∧ m.Marked x := by
  induction k generalizing run m with
  | zero => simp [clearRun]
  | succ k ih =>
      have hidx : (page + run).toNat = page.toNat + run.toNat := Lib.toNat_add_of_lt (by omega)
      have hnext : (run + 1).toNat = run.toNat + 1 := Lib.toNat_succ (by omega)
      rw [clearRun, ih (by omega) (by omega), Marked, isSet_memClearBit, Bool.and_eq_true,
        decide_eq_true_eq, Ne, ofNat_eq_iff hx, hidx, hnext, ← Marked]
      constructor
      · rintro ⟨h, he, hm⟩
        exact ⟨by omega, hm⟩
      · rintro ⟨h, hm⟩
        exact ⟨by omega, by omega, hm⟩

theorem touched_setRun {k : ℕ} {run : UInt32} (hN : N ≤ 2 ^ 32)
    (hend : page.toNat + run.toNat + k ≤ N) (hrun : run.toNat + k < 2 ^ 32) :
    ∀ x ∈ (setRun page k run m).touched, x ∈ m.touched ∨ x.toNat < N := by
  induction k generalizing run m with
  | zero => exact fun x hx => .inl hx
  | succ k ih =>
      have hidx : (page + run).toNat = page.toNat + run.toNat := Lib.toNat_add_of_lt (by omega)
      have hnext : (run + 1).toNat = run.toNat + 1 := Lib.toNat_succ (by omega)
      intro x hx
      rcases @ih (m.memSetBit (page + run)) (run + 1) (by omega) (by omega) x hx
        with hx | hx
      · rcases List.mem_cons.mp hx with rfl | hx
        · exact .inr (by omega)
        · exact .inl hx
      · exact .inr hx

theorem touched_clearRun {k : ℕ} {run : UInt32} (hN : N ≤ 2 ^ 32)
    (hend : page.toNat + run.toNat + k ≤ N) (hrun : run.toNat + k < 2 ^ 32) :
    ∀ x ∈ (clearRun page k run m).touched, x ∈ m.touched ∨ x.toNat < N := by
  induction k generalizing run m with
  | zero => exact fun x hx => .inl hx
  | succ k ih =>
      have hidx : (page + run).toNat = page.toNat + run.toNat := Lib.toNat_add_of_lt (by omega)
      have hnext : (run + 1).toNat = run.toNat + 1 := Lib.toNat_succ (by omega)
      intro x hx
      rcases @ih (m.memClearBit (page + run)) (run + 1) (by omega) (by omega) x hx
        with hx | hx
      · rcases List.mem_cons.mp hx with rfl | hx
        · exact .inr (by omega)
        · exact .inl hx
      · exact .inr hx

/-! ### The scan -/

/-- `n` free pages from page `q` on: they end by `e`, and the pages a scan looks at there
(the first one, if `n` is 0) are below `N`. -/
structure Fits (e N : ℕ) (m : MemMap) (n : UInt32) (q : ℕ) : Prop where
  inside : q + n.toNat ≤ e
  bound : q + max n.toNat 1 ≤ N
  free : ∀ x, q ≤ x → x < q + max n.toNat 1 → ¬ m.Marked x

/-- One of the pages a scan looks at from page `p` on is marked, and it is below `N`. -/
def Blocked (N : ℕ) (m : MemMap) (n : UInt32) (p : ℕ) : Prop :=
  ∃ x, p ≤ x ∧ x < p + max n.toNat 1 ∧ x < N ∧ m.Marked x

/-- Every page in `[a, b)` is blocked or has the start of a run that fits at or before it. -/
def Served (e N : ℕ) (m : MemMap) (n : UInt32) (a b : ℕ) : Prop :=
  ∀ p, a ≤ p → p < b → Blocked N m n p ∨ ∃ q, a ≤ q ∧ q ≤ p ∧ Fits e N m n q

theorem fits_congr (h : m'.page = m.page) : Fits e N m' n = Fits e N m n := by
  funext q
  refine propext ⟨fun ⟨h1, h2, h3⟩ => ⟨h1, h2, ?_⟩, fun ⟨h1, h2, h3⟩ => ⟨h1, h2, ?_⟩⟩
  · simpa only [marked_congr h] using h3
  · simpa only [marked_congr h] using h3

theorem served_congr (h : m'.page = m.page) {a b : ℕ} :
    Served e N m' n a b ↔ Served e N m n a b := by
  simp only [Served, Blocked, fits_congr h, marked_congr h]

/-- The part of a served range behind a page at or before which no run that fits starts. -/
theorem Served.behind {a b x : ℕ} (h : Served e N m n a b) (hax : a ≤ x)
    (hnone : ∀ q, a ≤ q → q ≤ x → ¬ Fits e N m n q) : Served e N m n (x + 1) b := by
  intro p hp hpb
  rcases h p (by omega) hpb with hb | ⟨q, hq, hqp, hfit⟩
  · exact .inl hb
  · refine .inr ⟨q, ?_, hqp, hfit⟩
    by_contra hlt
    exact hnone q hq (by omega) hfit

/-- What a scan of `[a, b)` answers: the first run that fits, or nothing if there is none. -/
def Answer (e N : ℕ) (m : MemMap) (n : UInt32) (a b : ℕ) : Option UInt32 → Prop
  | some p => a ≤ p.toNat ∧ p.toNat < b ∧ Fits e N m n p.toNat ∧
      ∀ q, a ≤ q → q < p.toNat → ¬ Fits e N m n q
  | none => ∀ q, a ≤ q → q < b → ¬ Fits e N m n q

theorem answer_congr (h : m'.page = m.page) {a b : ℕ} {r : Option UInt32} :
    Answer e N m' n a b r ↔ Answer e N m n a b r := by
  cases r with
  | some p => rw [Answer, Answer, fits_congr h]
  | none => rw [Answer, Answer, fits_congr h]

theorem Answer.behind {a b x : ℕ} {r : Option UInt32} (h : Answer e N m n (x + 1) b r) (hax : a ≤ x)
    (hnone : ∀ q, a ≤ q → q ≤ x → ¬ Fits e N m n q) : Answer e N m n a b r := by
  cases r with
  | some p =>
      obtain ⟨hp, hpb, hfit, hfirst⟩ := h
      refine ⟨by omega, hpb, hfit, fun q hq hqp => ?_⟩
      by_cases hqx : q ≤ x
      · exact hnone q hq hqx
      · exact hfirst q (by omega) hqp
  | none =>
      intro q hq hqb
      by_cases hqx : q ≤ x
      · exact hnone q hq hqx
      · exact h q (by omega) hqb

/-- More rounds do not change what a scan answers. -/
theorem scan_mono {fuel fuel' : ℕ} (hle : fuel ≤ fuel') {x : Option UInt32 × MemMap}
    (h : scan n limit fuel page m = some x) : scan n limit fuel' page m = some x := by
  induction fuel generalizing fuel' page m with
  | zero => cases h
  | succ fuel ih =>
      obtain ⟨fuel', rfl⟩ : ∃ k, fuel' = k + 1 := ⟨fuel' - 1, by omega⟩
      rw [scan] at h ⊢
      by_cases hlim : page < limit
      · rw [if_pos hlim] at h ⊢
        dsimp only at h ⊢
        split
        · rw [if_pos (by assumption)] at h
          split
          · rwa [if_pos (by assumption)] at h
          · rw [if_neg (by assumption)] at h
            exact ih (by omega) h
        · rw [if_neg (by assumption)] at h
          exact ih (by omega) h
      · rwa [if_neg hlim] at h ⊢

/-- The first page of a served range is below the bound. -/
theorem Served.lt (h : Served e N m n page.toNat limit.toNat) (hlt : page.toNat < limit.toNat) :
    page.toNat < N := by
  rcases h page.toNat (le_refl _) hlt with ⟨x, hx, -, hxN, -⟩ | ⟨q, hq, hqp, hfit⟩
  · omega
  · have := hfit.bound
    omega

/-- A round that starts at a run that fits finds it. -/
theorem scan_fits (hlim : page < limit) (hN : N < 2 ^ 32) (hfit : Fits e N m n page.toNat) :
    ∃ m₁, Looked N m m₁ ∧ ∀ fuel, scan n limit (fuel + 1) page m = some (some page, m₁) := by
  have hn := n.toNat_lt
  have hinside := hfit.bound
  have hlook : Looked N m (m.memTestBit page).2 := looked_memTestBit (by omega)
  have hfirst : ¬ m.isSet page = true := by
    rw [← marked_toNat]
    exact hfit.free _ (le_refl _) (by omega)
  obtain ⟨hrun, hl⟩ := @freeRun_of_free (m.memTestBit page).2 page N n.toNat 0 (by omega)
    (by rw [UInt32.toNat_zero]; omega) (by rw [UInt32.toNat_zero]; omega)
    (fun i hi hi' => by
      rw [UInt32.toNat_zero] at hi'
      rw [marked_congr hlook.page]
      exact hfit.free _ (by omega) (by omega))
  rw [UInt32.toNat_zero, Nat.zero_add, UInt32.toNat_inj] at hrun
  refine ⟨_, hlook.trans hl, fun fuel => ?_⟩
  rw [scan, if_pos hlim]
  simp only [memTestBit_fst]
  rw [if_neg hfirst, if_pos rfl, if_pos hrun]

/-- A round that starts at a blocked page goes on behind the marked one. -/
theorem scan_blocked (hlim : page < limit) (hN : N < 2 ^ 32) (hpN : page.toNat < N)
    (hblocked : Blocked N m n page.toNat) :
    ∃ i next m₁, Looked N m m₁ ∧ UInt32.toNat next = page.toNat + i + 1 ∧
      (∀ q, page.toNat ≤ q → q ≤ page.toNat + i → ¬ Fits e N m n q) ∧
      ∀ fuel, scan n limit (fuel + 1) page m = scan n limit fuel next m₁ := by
  have hn := n.toNat_lt
  have hlook : Looked N m (m.memTestBit page).2 := looked_memTestBit hpN
  have hcongr := hlook.page
  by_cases hset : m.isSet page = true
  · -- The page itself is marked.
    refine ⟨0, page + 1, _, hlook, Lib.toNat_succ (by omega), ?_, fun fuel => ?_⟩
    · intro q hq hq' hfit
      obtain rfl : q = page.toNat := by omega
      exact hfit.free _ (le_refl _) (by omega) (marked_toNat.mpr hset)
    · rw [scan, if_pos hlim]
      simp only [memTestBit_fst]
      rw [if_pos hset, if_neg (by decide)]
  · obtain ⟨x, hx, hxn, hxN, hmark⟩ := hblocked
    have hxne : x ≠ page.toNat := by
      rintro rfl
      exact hset (marked_toNat.mp hmark)
    have hxeq : page.toNat + (x - page.toNat) = x := by omega
    obtain ⟨i, -, hix, hmi, hrun, hl⟩ :=
      @freeRun_of_marked (m.memTestBit page).2 page N n.toNat (x - page.toNat) 0 (by omega)
      (by rw [UInt32.toNat_zero]; omega) (by rw [UInt32.toNat_zero]; omega) (by omega)
      (by rw [UInt32.toNat_zero]; omega) (by rwa [marked_congr hcongr, hxeq])
    rw [marked_congr hcongr] at hmi
    have hne : (freeRun page n.toNat 0 (m.memTestBit page).2).1 ≠ n := by
      rw [Ne, ← UInt32.toNat_inj, hrun]
      omega
    have hsum : (page + (freeRun page n.toNat 0 (m.memTestBit page).2).1).toNat =
        page.toNat + i := by
      rw [Lib.toNat_add_of_lt (by omega), hrun]
    refine ⟨i, page + (freeRun page n.toNat 0 (m.memTestBit page).2).1 + 1, _, hlook.trans hl,
      ?_, ?_, fun fuel => ?_⟩
    · rw [Lib.toNat_succ (by omega), hsum]
    · intro q hq hqi hfit
      by_cases heq : q = page.toNat
      · rw [heq] at hfit
        exact hfit.free _ hx (by omega) hmark
      · exact hfit.free _ hqi (by omega) hmi
    · rw [scan, if_pos hlim]
      simp only [memTestBit_fst]
      rw [if_neg hset, if_pos rfl, if_neg hne]

/-- **A scan of a served range ends**: it changes no bit, uses no index at or past `N`, and
finds a run that fits if there is one. -/
theorem scan_ends {fuel : ℕ} (hN : N < 2 ^ 32)
    (hserved : Served e N m n page.toNat limit.toNat) (hfuel : limit.toNat - page.toNat < fuel) :
    ∃ r m', scan n limit fuel page m = some (r, m') ∧ Looked N m m' ∧
      Answer e N m n page.toNat limit.toNat r := by
  induction fuel generalizing page m with
  | zero => omega
  | succ fuel ih =>
      by_cases hlim : page < limit
      · have hlt : page.toNat < limit.toNat := UInt32.lt_iff_toNat_lt.mp hlim
        by_cases hfit : Fits e N m n page.toNat
        · obtain ⟨m₁, hlook, hscan⟩ := scan_fits hlim hN hfit
          exact ⟨_, _, hscan fuel, hlook, le_refl _, hlt, hfit, fun q hq hqp => by omega⟩
        · have hblocked : Blocked N m n page.toNat := by
            rcases hserved page.toNat (le_refl _) hlt with hb | ⟨q, hq, hqp, hq'⟩
            · exact hb
            · obtain rfl : q = page.toNat := by omega
              exact absurd hq' hfit
          obtain ⟨i, next, m₁, hlook, hnext, hnone, hscan⟩ :=
            @scan_blocked m page n limit e N hlim hN (hserved.lt hlt) hblocked
          have hserved' : Served e N m₁ n next.toNat limit.toNat := by
            rw [served_congr hlook.page, hnext]
            exact hserved.behind (by omega) hnone
          obtain ⟨r, m', hrest, hl, ha⟩ := ih hserved' (by omega)
          rw [answer_congr hlook.page, hnext] at ha
          exact ⟨r, m', (hscan fuel).trans hrest, hlook.trans hl, ha.behind (by omega) hnone⟩
      · refine ⟨none, m, ?_, .refl _, ?_⟩
        · rw [scan, if_neg hlim]
        · intro q hq hqb
          rw [UInt32.lt_iff_toNat_lt] at hlim
          omega

end MemMap
end OxKernel.Mm
