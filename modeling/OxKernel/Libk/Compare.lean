import OxKernel.Libk.Conversions
import OxKernel.Lib.Traced
import Mathlib.Data.Int.ConditionallyCompleteOrder
import Mathlib.Data.Int.Order.Basic
import Mathlib.Data.Sign.Basic
import Mathlib.Data.List.GetD

/-!
# Comparing strings

`strcmp` and `strncmp` of `string.c`. A pointer into a string is what is left of it, and the
empty list points to the terminating zero; a `char` has a sign. `strncmp` notes the index of
every character that it reads in the two strings.

The loop of `strncmp` ends at a difference and at the bound, and both ends come to the same
return, which compares the characters at the index the loop has reached.

## Main definitions

* `strcmp`, `strncmp` — the functions.
* `FirstDiffers` — where two strings differ first.
* `ComparesBelow` — what a bounded comparison should do.

## Main results

* `strcmp_differs`, `strcmp_self` — `strcmp` compares at the first difference.
* `strncmp_compares_iff` — the bounds for which `strncmp` does, too.
-/
namespace OxKernel.Libk

open Lib (Traced)

/-! ## The functions -/

/-- The value of a `char`. -/
def charVal (c : UInt8) : ℤ := c.toInt8.toInt

/-- The character that a pointer points to. -/
def deref (cs : CharStr) : UInt8 := cs.headD 0

/-- `*cs - *ct`. -/
def charDiff (cs ct : CharStr) : ℤ := charVal (deref cs) - charVal (deref ct)

/-- `strcmp`. -/
def strcmp : CharStr → CharStr → ℤ
  | c :: cs, d :: ct =>
    if c = d then
      if c = 0 then 0 else strcmp cs ct
    else charDiff (c :: cs) (d :: ct)
  -- One of the characters is the terminator.
  | cs, ct => if deref cs = deref ct then 0 else charDiff cs ct

/-- The loop of `strncmp` from index `i` on, and the return behind it. -/
def strncmpFrom (n : ℕ) : ℕ → CharStr → CharStr → Traced ℕ ℤ
  | i, c :: cs, d :: ct =>
    if i < n then do
      Traced.touch [i]
      if c = d then
        if c = 0 then pure 0 else strncmpFrom n (i + 1) cs ct
      else do
        Traced.touch [i]
        pure (charDiff (c :: cs) (d :: ct))
    else do
      Traced.touch [i]
      pure (charDiff (c :: cs) (d :: ct))
  | i, cs, ct =>
    if i < n then do
      Traced.touch [i]
      if deref cs = deref ct then pure 0
      else do
        Traced.touch [i]
        pure (charDiff cs ct)
    else do
      Traced.touch [i]
      pure (charDiff cs ct)

/-- `strncmp`. -/
def strncmp (cs ct : CharStr) (n : ℕ) : Traced ℕ ℤ := strncmpFrom n 0 cs ct

/-! ## First differences -/

/-- A string: the terminator is none of its characters. -/
structure CString where
  chars : CharStr
  nonzero : ∀ c ∈ chars, c ≠ 0

theorem nonzero_nil : ∀ c ∈ ([] : CharStr), c ≠ 0 := fun _ hc => absurd hc List.not_mem_nil

/-- The strings differ first at an index; the terminator counts as a character. -/
structure FirstDiffers (a b : CharStr) (k : ℕ) : Prop where
  same : a.take k = b.take k
  differs : a.getD k 0 ≠ b.getD k 0

section Differences
variable {a b cs ct : CharStr} {c d : UInt8} {i j k n : ℕ}

theorem charVal_inj : charVal c = charVal d ↔ c = d := by
  rw [charVal, charVal, Int8.toInt_inj]
  constructor
  · intro h
    have h' := congrArg Int8.toUInt8 h
    simpa using h'
  · exact fun h => by rw [h]

theorem FirstDiffers.not_nil : ¬ FirstDiffers [] [] k := fun h => h.differs rfl

/-- Behind the first characters, which are the same. -/
theorem firstDiffers_cons : FirstDiffers (c :: cs) (d :: ct) (k + 1) ↔
    c = d ∧ FirstDiffers cs ct k := by
  constructor
  · rintro ⟨hsame, hdiff⟩
    rw [List.take_succ_cons, List.take_succ_cons, List.cons.injEq] at hsame
    rw [List.getD_cons_succ, List.getD_cons_succ] at hdiff
    exact ⟨hsame.1, hsame.2, hdiff⟩
  · rintro ⟨rfl, hsame, hdiff⟩
    refine ⟨?_, ?_⟩
    · rw [List.take_succ_cons, List.take_succ_cons, hsame]
    · rwa [List.getD_cons_succ, List.getD_cons_succ]

/-- Two strings differ somewhere, unless they are the same. -/
theorem exists_firstDiffers (a b : CString) (h : a.chars ≠ b.chars) :
    ∃ k, FirstDiffers a.chars b.chars k := by
  obtain ⟨a, ha⟩ := a
  obtain ⟨b, hb⟩ := b
  simp only at h ⊢
  induction a generalizing b with
  | nil =>
      cases b with
      | nil => exact absurd rfl h
      | cons d b => exact ⟨0, rfl, fun h0 => hb d List.mem_cons_self h0.symm⟩
  | cons c a ih =>
      cases b with
      | nil => exact ⟨0, rfl, ha c List.mem_cons_self⟩
      | cons d b =>
          by_cases hcd : c = d
          · have hne : a ≠ b := fun h0 => h (by rw [hcd, h0])
            obtain ⟨k, hk⟩ := ih (fun x hx => ha x (List.mem_cons_of_mem _ hx)) b
              (fun x hx => hb x (List.mem_cons_of_mem _ hx)) hne
            exact ⟨k + 1, firstDiffers_cons.mpr ⟨hcd, hk⟩⟩
          · exact ⟨0, rfl, hcd⟩

/-- The characters before a first difference are in both strings. -/
theorem FirstDiffers.le_length (h : FirstDiffers a b k) : k ≤ a.length ∧ k ≤ b.length := by
  have hlen := congrArg List.length h.same
  rw [List.length_take, List.length_take] at hlen
  have hshort : ¬ (a.length < k ∧ b.length < k) := fun hlt => h.differs (by
    rw [List.getD_eq_default _ _ hlt.1.le, List.getD_eq_default _ _ hlt.2.le])
  omega

/-- The strings have the same beginnings up to the difference, and no further. -/
theorem FirstDiffers.take_eq_iff (h : FirstDiffers a b k) : a.take n = b.take n ↔ n ≤ k := by
  constructor
  · intro htake
    by_contra hlt
    have hget : (a.take n).getD k 0 = (b.take n).getD k 0 := by rw [htake]
    simp only [List.getD, List.getElem?_take, if_pos (Nat.lt_of_not_le hlt)] at hget
    exact h.differs hget
  · intro hle
    have htake := congrArg (List.take n) h.same
    rwa [List.take_take, List.take_take, Nat.min_eq_left hle] at htake

theorem FirstDiffers.unique (h : FirstDiffers a b j) (h' : FirstDiffers a b k) : j = k :=
  Nat.le_antisymm (h'.take_eq_iff.mp h.same) (h.take_eq_iff.mp h'.same)

/-- The difference of the characters at an index. -/
def diffAt (a b : CharStr) (k : ℕ) : ℤ := charVal (a.getD k 0) - charVal (b.getD k 0)

theorem charDiff_eq (cs ct : CharStr) : charDiff cs ct = diffAt cs ct 0 := by
  cases cs <;> cases ct <;> rfl

@[simp] theorem diffAt_cons : diffAt (c :: cs) (d :: ct) (k + 1) = diffAt cs ct k := rfl

theorem FirstDiffers.diffAt_ne (h : FirstDiffers a b k) : diffAt a b k ≠ 0 := fun h0 =>
  h.differs (charVal_inj.mp (sub_eq_zero.mp h0))

theorem deref_eq (cs : CharStr) : deref cs = cs.getD 0 0 := by
  cases cs <;> rfl

/-! ## `strcmp` -/

/-- `strcmp` stops at characters that differ. -/
theorem strcmp_stop (hne : deref cs ≠ deref ct) : strcmp cs ct = charDiff cs ct := by
  cases cs with
  | nil => simp [strcmp, hne]
  | cons c cs =>
      cases ct with
      | nil => simp [strcmp, hne]
      | cons d ct =>
          have hne' : c ≠ d := hne
          simp [strcmp, hne']

/-- `strcmp` compares at the first difference. -/
theorem strcmp_differs (h : FirstDiffers cs ct k) (hz : ∀ c ∈ cs, c ≠ 0) :
    strcmp cs ct = diffAt cs ct k := by
  induction k generalizing cs ct with
  | zero =>
      have hne := h.differs
      rw [← deref_eq, ← deref_eq] at hne
      rw [strcmp_stop hne, charDiff_eq]
  | succ k ih =>
      cases cs with
      | nil =>
          cases ct with
          | nil => exact absurd h FirstDiffers.not_nil
          | cons d ct => exact absurd h.same (by simp)
      | cons c cs =>
          cases ct with
          | nil => exact absurd h.same (by simp)
          | cons d ct =>
              obtain ⟨hcd, h'⟩ := firstDiffers_cons.mp h
              rw [strcmp, if_pos hcd, if_neg (hz c List.mem_cons_self),
                ih h' fun x hx => hz x (List.mem_cons_of_mem _ hx), diffAt_cons]

theorem strcmp_self (cs : CharStr) : strcmp cs cs = 0 := by
  induction cs with
  | nil => rfl
  | cons c cs ih => simp [strcmp, ih]

/-! ## `strncmp` -/

/-- `strncmp` stops at characters that differ, and reads them again. -/
theorem strncmpFrom_stop (hin : i < n) (hne : deref cs ≠ deref ct) :
    strncmpFrom n i cs ct = (do
      Traced.touch [i]
      Traced.touch [i]
      pure (charDiff cs ct)) := by
  cases cs with
  | nil => simp [strncmpFrom, hin, hne]
  | cons c cs =>
      cases ct with
      | nil => simp [strncmpFrom, hin, hne]
      | cons d ct =>
          have hne' : c ≠ d := hne
          simp [strncmpFrom, hin, hne']

/-- At a first difference below the bound: `strncmp` compares there and reads no further. -/
theorem strncmpFrom_differs (h : FirstDiffers cs ct k) (hz : ∀ c ∈ cs, c ≠ 0) (hlt : i + k < n) :
    (strncmpFrom n i cs ct).value = some (diffAt cs ct k) ∧
      (strncmpFrom n i cs ct).All (· < n) := by
  induction k generalizing cs ct i with
  | zero =>
      have hne := h.differs
      rw [← deref_eq, ← deref_eq] at hne
      have hin : i < n := hlt
      rw [strncmpFrom_stop hin hne]
      simp [Traced.all_touch, hin, charDiff_eq]
  | succ k ih =>
      have hin : i < n := by omega
      cases cs with
      | nil =>
          cases ct with
          | nil => exact absurd h FirstDiffers.not_nil
          | cons d ct => exact absurd h.same (by simp)
      | cons c cs =>
          cases ct with
          | nil => exact absurd h.same (by simp)
          | cons d ct =>
              obtain ⟨hcd, h'⟩ := firstDiffers_cons.mp h
              have hrest := ih (i := i + 1) h' (fun x hx => hz x (List.mem_cons_of_mem _ hx))
                (by omega)
              have hc := hz c List.mem_cons_self
              subst hcd
              simp [strncmpFrom, Traced.all_touch, hin, hc, hrest]

/-- At a common end below the bound. -/
theorem strncmpFrom_ends (hz : ∀ c ∈ cs, c ≠ 0) (hlt : i + cs.length < n) :
    (strncmpFrom n i cs cs).value = some 0 ∧ (strncmpFrom n i cs cs).All (· < n) := by
  induction cs generalizing i with
  | nil =>
      have hin : i < n := hlt
      simp [strncmpFrom, Traced.all_touch, hin]
  | cons c cs ih =>
      rw [List.length_cons] at hlt
      have hin : i < n := by omega
      have hrest := ih (i := i + 1) (fun x hx => hz x (List.mem_cons_of_mem _ hx)) (by omega)
      have hc := hz c List.mem_cons_self
      simp [strncmpFrom, Traced.all_touch, hin, hc, hrest]

/-- At the bound, behind characters that are the same: `strncmp` compares the characters there. -/
theorem strncmpFrom_bound {m : ℕ} (hz : ∀ c ∈ cs, c ≠ 0) (hsame : cs.take m = ct.take m)
    (hcs : m ≤ cs.length) (hct : m ≤ ct.length) (hn : n = i + m) :
    (strncmpFrom n i cs ct).value = some (diffAt cs ct m) ∧
      ¬ (strncmpFrom n i cs ct).All (· < n) := by
  induction m generalizing cs ct i with
  | zero =>
      have hin : ¬ i < n := by omega
      cases cs with
      | nil => simp [strncmpFrom, Traced.all_touch, hin, charDiff_eq]
      | cons c cs =>
          cases ct <;> simp [strncmpFrom, Traced.all_touch, hin, charDiff_eq]
  | succ m ih =>
      have hin : i < n := by omega
      cases cs with
      | nil => exact absurd hcs (by simp)
      | cons c cs =>
          cases ct with
          | nil => exact absurd hct (by simp)
          | cons d ct =>
              rw [List.take_succ_cons, List.take_succ_cons, List.cons.injEq] at hsame
              obtain ⟨hcd, hsame⟩ := hsame
              have hrest := ih (i := i + 1) (fun x hx => hz x (List.mem_cons_of_mem _ hx)) hsame
                (by simpa using hcs) (by simpa using hct) (by omega)
              have hc := hz c List.mem_cons_self
              subst hcd
              simp [strncmpFrom, Traced.all_touch, hin, hc, hrest]

end Differences

/-! ## Bounded comparison -/

/-- What comparing the first `n` characters should do: zero for the same beginnings, the sign of
the first difference otherwise, no read from index `n` on, and the sign of `strcmp` if one of the
strings is shorter than the bound. -/
structure ComparesBelow (a b : CString) (n : ℕ) : Prop where
  returns : ∃ r, (strncmp a.chars b.chars n).value = some r ∧
    (r = 0 ↔ a.chars.take n = b.chars.take n) ∧
    (∀ k < n, FirstDiffers a.chars b.chars k →
      SignType.sign r = SignType.sign (diffAt a.chars b.chars k)) ∧
    (min a.chars.length b.chars.length < n →
      SignType.sign r = SignType.sign (strcmp a.chars b.chars))
  reads : (strncmp a.chars b.chars n).All (· < n)

/-- The comparison is decided below the bound: the strings differ among their first `n`
characters, or both end there. -/
def DecidedBelow (a b : CString) (n : ℕ) : Prop :=
  a.chars.take n = b.chars.take n → a.chars.length < n

section Bounded
variable {a b : CString} {k n : ℕ}

/-- Strings with the same first `n` characters, none of them the terminator. -/
theorem not_comparesBelow (hsame : a.chars.take n = b.chars.take n) (ha : n ≤ a.chars.length)
    (hb : n ≤ b.chars.length) : ¬ ComparesBelow a b n := fun h =>
  (strncmpFrom_bound (i := 0) a.nonzero hsame ha hb (Nat.zero_add n).symm).2 h.reads

theorem comparesBelow_differs (h : FirstDiffers a.chars b.chars k) (hlt : k < n) :
    ComparesBelow a b n := by
  have hbelow : 0 + k < n := by rwa [Nat.zero_add]
  obtain ⟨hvalue, hreads⟩ := strncmpFrom_differs h a.nonzero hbelow
  refine ⟨⟨_, hvalue, ?_, ?_, ?_⟩, hreads⟩
  · rw [h.take_eq_iff]
    exact iff_of_false h.diffAt_ne (by omega)
  · intro k' _ h'
    rw [h.unique h']
  · intro _
    rw [strcmp_differs h a.nonzero]

theorem comparesBelow_same (h : a.chars = b.chars) (hlt : a.chars.length < n) :
    ComparesBelow a b n := by
  have hbelow : 0 + a.chars.length < n := by rwa [Nat.zero_add]
  obtain ⟨hvalue, hreads⟩ := strncmpFrom_ends a.nonzero hbelow
  refine ⟨⟨0, ?_, ?_, ?_, ?_⟩, ?_⟩
  · rw [← h]
    exact hvalue
  · rw [h]
    exact iff_of_true rfl rfl
  · intro k _ hk
    rw [h] at hk
    exact absurd rfl hk.differs
  · intro _
    rw [← h, strcmp_self]
  · rw [← h]
    exact hreads

end Bounded

/-- **`strncmp` and its bound**: it compares the first `n` characters, and reads no others,
exactly if the comparison is decided among them. -/
theorem strncmp_compares_iff (a b : CString) (n : ℕ) :
    ComparesBelow a b n ↔ DecidedBelow a b n := by
  by_cases hab : a.chars = b.chars
  · by_cases hlt : a.chars.length < n
    · exact iff_of_true (comparesBelow_same hab hlt) fun _ => hlt
    · have hsame : a.chars.take n = b.chars.take n := by rw [hab]
      have hle := Nat.le_of_not_lt hlt
      exact iff_of_false (not_comparesBelow hsame hle (hab ▸ hle)) fun h => hlt (h hsame)
  · obtain ⟨k, hk⟩ := exists_firstDiffers a b hab
    by_cases hlt : k < n
    · refine iff_of_true (comparesBelow_differs hk hlt) fun htake => ?_
      exact absurd (hk.take_eq_iff.mp htake) (Nat.not_le.mpr hlt)
    · have hle := Nat.le_of_not_lt hlt
      have hsame := hk.take_eq_iff.mpr hle
      obtain ⟨ha, hb⟩ := hk.le_length
      refine iff_of_false (not_comparesBelow hsame (hle.trans ha) (hle.trans hb)) fun h => ?_
      exact absurd (h hsame) (by omega)

/-- The strings `ab` and `ac`. -/
def stringAb : CString := ⟨[0x61, 0x62], by simp⟩
def stringAc : CString := ⟨[0x61, 0x63], by simp⟩

/-- **The bound is passed over**: `ab` and `ac` agree on one character, but `strncmp` reads the
second one and finds a difference. -/
theorem strncmp_reads_bound :
    stringAb.chars.take 1 = stringAc.chars.take 1 ∧
      (strncmp stringAb.chars stringAc.chars 1).value = some (-1) ∧
      ¬ ComparesBelow stringAb stringAc 1 :=
  ⟨rfl, by decide, not_comparesBelow rfl (by decide) (by decide)⟩

end OxKernel.Libk
