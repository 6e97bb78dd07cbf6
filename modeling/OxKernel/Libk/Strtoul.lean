import OxKernel.Libk.Conversions
import Mathlib

/-!
# Where `strtoul` stops

`strtoul` should go past the prefix of the base and the digits of the base behind it. The
loop that accumulates the result takes a hexadecimal digit in every base and goes past an
`x` wherever it meets one, so it stops in the right place exactly if none of these characters
is behind the number.

## Main definitions

* `numeral` — the base of a number and where its digits start.
* `wanted` — the value of the longest run of digits there, and what is left behind it.
* `Stops` — the character behind the number is not one that the loop goes past.

## Main results

* `accumulate_digits` — the loop over a run of digits.
* `strtoul_stops_iff` — the strings for which `strtoul` does what it should.
-/
namespace OxKernel.Libk

/-! ### The right result -/

/-- The value of a hexadecimal digit. -/
def digitValue (c : UInt8) : ℕ :=
  if isdigit c then c.toNat - char0.toNat
  else if islower c then c.toNat - chara.toNat + 10
  else c.toNat - charA.toNat + 10

/-- The digits of a base: `0-7`, `0-9` or `0-9a-fA-F`. -/
def validDigit (base : Int32) (c : UInt8) : Bool :=
  if base = OCT then 0x30 ≤ c && c ≤ 0x37 else if base = HEX then isxdigit c else isdigit c

/-- The string starts with `0x` and a hexadecimal digit. -/
def HexPrefix (charp : CharStr) : Prop :=
  charp.take 2 = [char0, charx] ∧ (charp.drop 2).head?.any isxdigit = true

instance (charp : CharStr) : Decidable (HexPrefix charp) := inferInstanceAs (Decidable (_ ∧ _))

/-- The base of a number, and where its digits start: behind the prefix that selects base 0
or matches the base. (In base 8 it does not matter whether a leading zero is a prefix or a
digit.) -/
def numeral (charp : CharStr) (base : Int32) : Int32 × CharStr :=
  if (base = 0 ∨ base = HEX) ∧ HexPrefix charp then (HEX, charp.drop 2)
  else if base = 0 ∧ charp.head? = some char0 then (OCT, charp.drop 1)
  else (if base = 0 then DEC else base, charp)

/-- The digits of a number. -/
def numeralDigits (charp : CharStr) (base : Int32) : CharStr :=
  (numeral charp base).2.takeWhile (validDigit (numeral charp base).1)

/-- What is behind a number. -/
def behind (charp : CharStr) (base : Int32) : CharStr :=
  (numeral charp base).2.dropWhile (validDigit (numeral charp base).1)

/-- What `strtoul` should return, modulo `2 ^ 32`, and store in `*endptr`. -/
def wanted (charp : CharStr) (base : Int32) : UInt32 × CharStr :=
  (UInt32.ofNat (Lib.readDigits (numeral charp base).1.toInt.toNat
    ((numeralDigits charp base).map digitValue) 0), behind charp base)

/-- The characters that the loop of `strtoul` goes past. -/
def passes (c : UInt8) : Bool := isxdigit c || c = charx

/-- The loop goes past no character behind the number. -/
def Stops (charp : CharStr) (base : Int32) : Prop :=
  (behind charp base).head?.any passes = false

instance (charp : CharStr) (base : Int32) : Decidable (Stops charp base) :=
  inferInstanceAs (Decidable (_ = _))

/-! ### Characters -/

variable {base : Int32} {c : UInt8} {charp cs : CharStr} {res : UInt32}

theorem isxdigit_of_validDigit (h : validDigit base c = true) : isxdigit c = true := by
  simp only [validDigit, isxdigit, isdigit, UInt8.le_iff_toNat_le, Bool.or_eq_true,
    Bool.and_eq_true, decide_eq_true_eq] at *
  grind

theorem toUInt32_sub {a : UInt8} (h : a ≤ c) :
    (c - a).toUInt32 = UInt32.ofNat (c.toNat - a.toNat) := by
  have hlt := c.toNat_lt
  apply UInt32.toNat_inj.mp
  rw [UInt8.toNat_toUInt32, UInt8.toNat_sub_of_le _ _ h, UInt32.toNat_ofNat_of_lt']
  simp only [UInt32.size]
  omega

/-- A hexadecimal digit is in one of three ranges, which the loop tries in turn. -/
theorem isxdigit_cases (h : isxdigit c = true) :
    isdigit c = true ∨
      (isdigit c = false ∧ islower c = true ∧ chara ≤ c ∧ c ≤ charf) ∨
      (isdigit c = false ∧ islower c = false ∧ isupper c = true ∧ charA ≤ c ∧ c ≤ charF) := by
  simp only [isxdigit, isdigit, islower, isupper, chara, charf, charA, charF,
    UInt8.le_iff_toNat_le, UInt8.reduceToNat, Bool.or_eq_true, Bool.and_eq_true,
    decide_eq_true_eq, Bool.and_eq_false_iff, decide_eq_false_iff_not] at *
  omega

/-! ### The loop -/

/-- A hexadecimal digit is accumulated in every base. -/
theorem accumulate_digit (h : isxdigit c = true) :
    accumulate base (c :: cs) res =
      accumulate base cs (res * base.toUInt32 + UInt32.ofNat (digitValue c)) := by
  rw [accumulate, digitValue]
  rcases isxdigit_cases h with hd | ⟨hd, hl, ha, hf⟩ | ⟨hd, hl, hu, ha, hf⟩
  · have hle : char0 ≤ c := by
      simp only [isdigit, Bool.and_eq_true, decide_eq_true_eq] at hd
      exact hd.1
    rw [if_pos hd, if_pos hd, toUInt32_sub hle]
  · simp only [hd, hl, ha, hf, toUInt32_sub ha]
    simp
  · simp only [hd, hl, hu, ha, hf, toUInt32_sub ha]
    simp

theorem accumulate_x : accumulate base (charx :: cs) res = accumulate base cs res := by
  rw [accumulate]
  rfl

theorem accumulate_stop (h : passes c = false) :
    accumulate base (c :: cs) res = (res, c :: cs) := by
  obtain ⟨hhex, hx⟩ : isxdigit c = false ∧ c ≠ charx := by simpa [passes] using h
  obtain ⟨hd, hupper, hlower⟩ : isdigit c = false ∧ (charA ≤ c && c ≤ charF) = false ∧
      (chara ≤ c && c ≤ charf) = false := by
    rw [isxdigit, Bool.or_eq_false_iff, Bool.or_eq_false_iff] at hhex
    exact hhex
  have h0 : c ≠ char0 := by
    rintro rfl
    simp [isdigit, char0] at hd
  rw [accumulate]
  simp [hd, hupper, hlower, h0, hx]

theorem accumulate_passes (h : passes c = true) :
    ∃ res', accumulate base (c :: cs) res = accumulate base cs res' := by
  have hc : isxdigit c = true ∨ c = charx := by simpa [passes] using h
  rcases hc with hc | rfl
  · exact ⟨_, accumulate_digit hc⟩
  · exact ⟨_, accumulate_x⟩

/-- The loop leaves a part of the string. -/
theorem accumulate_length_le (base : Int32) (cs : CharStr) (res : UInt32) :
    (accumulate base cs res).2.length ≤ cs.length := by
  induction cs generalizing res with
  | nil => exact le_rfl
  | cons c cs ih =>
      by_cases hp : passes c = true
      · obtain ⟨res', hres'⟩ := @accumulate_passes base c cs res hp
        rw [hres', List.length_cons]
        exact (ih res').trans (Nat.le_succ _)
      · rw [accumulate_stop (by simpa using hp)]

/-- **A run of digits** is read into the result. -/
theorem accumulate_digits {ds : CharStr} (h : ∀ c ∈ ds, isxdigit c = true) (n : ℕ) :
    accumulate base (ds ++ cs) (UInt32.ofNat n) =
      accumulate base cs
        (UInt32.ofNat (Lib.readDigits base.toUInt32.toNat (ds.map digitValue) n)) := by
  induction ds generalizing n with
  | nil => rfl
  | cons c ds ih =>
      have hres : UInt32.ofNat n * base.toUInt32 + UInt32.ofNat (digitValue c) =
          UInt32.ofNat (n * base.toUInt32.toNat + digitValue c) := by
        simp
      rw [List.cons_append, accumulate_digit (h c List.mem_cons_self), hres,
        ih fun c hc => h c (List.mem_cons_of_mem _ hc)]
      simp

/-! ### The prefix -/

theorem strtoul_hexPrefix (hbase : base = 0 ∨ base = HEX) (h : HexPrefix charp) :
    strtoul charp base = accumulate HEX (charp.drop 2) 0 := by
  obtain ⟨htake, hdigit⟩ := h
  rcases charp with _ | ⟨c₀, _ | ⟨c₁, _ | ⟨c₂, cs⟩⟩⟩
  · simp at htake
  · simp at htake
  · simp at hdigit
  · obtain ⟨rfl, rfl⟩ : c₀ = char0 ∧ c₁ = charx := by simpa using htake
    have hc₂ : isxdigit c₂ = true := by simpa using hdigit
    rcases hbase with rfl | rfl
    · simp [strtoul, strtoulBase, hc₂]
    · -- The loop adds the zero and goes past the `x`.
      have hzero : isxdigit char0 = true := by decide
      have hval : (0 : UInt32) * HEX.toUInt32 + UInt32.ofNat (digitValue char0) = 0 := by decide
      have hne : HEX ≠ 0 := by decide
      simp only [strtoul, strtoulBase, if_neg hne]
      rw [accumulate_digit hzero, accumulate_x, hval]
      rfl

/-- `strtoul` goes past the prefix and accumulates in the base of the number. -/
theorem strtoul_numeral (charp : CharStr) (base : Int32) :
    strtoul charp base = accumulate (numeral charp base).1 (numeral charp base).2 0 := by
  rw [numeral]
  split
  · rename_i h
    exact strtoul_hexPrefix h.1 h.2
  · rename_i hhex
    by_cases hbase : base = 0
    · subst hbase
      have hnot : ¬ HexPrefix charp := fun h => hhex ⟨.inl rfl, h⟩
      rcases charp with _ | ⟨c₀, cs⟩
      · rfl
      · by_cases hc₀ : c₀ = char0
        · subst hc₀
          rcases cs with _ | ⟨c₁, _ | ⟨c₂, cs⟩⟩
          · simp [strtoul, strtoulBase]
          · simp [strtoul, strtoulBase]
          · have hnot' : ¬ (c₁ = charx ∧ isxdigit c₂ = true) := by
              simpa [HexPrefix] using hnot
            simp [strtoul, strtoulBase, hnot']
        · simp [strtoul, strtoulBase, hc₀]
    · simp [strtoul, strtoulBase, hbase]

/-! ### The strings that are read right -/

theorem numeral_base (charp : CharStr) (hbase : base ∈ [0, OCT, DEC, HEX]) :
    (numeral charp base).1 = OCT ∨ (numeral charp base).1 = DEC ∨ (numeral charp base).1 = HEX := by
  rw [numeral]
  split
  · exact .inr (.inr rfl)
  · split
    · exact .inl rfl
    · simp only [List.mem_cons, List.not_mem_nil, or_false] at hbase
      rcases hbase with rfl | rfl | rfl | rfl
      · exact .inr (.inl rfl)
      · exact .inl rfl
      · exact .inr (.inl rfl)
      · exact .inr (.inr rfl)

theorem strtoul_digits (charp : CharStr) (hbase : base ∈ [0, OCT, DEC, HEX]) :
    strtoul charp base =
      accumulate (numeral charp base).1 (behind charp base) (wanted charp base).1 := by
  have hsplit : (numeral charp base).2 = numeralDigits charp base ++ behind charp base :=
    List.takeWhile_append_dropWhile.symm
  have hvalid : ∀ c ∈ numeralDigits charp base, isxdigit c = true := fun c hc =>
    isxdigit_of_validDigit (List.mem_takeWhile_imp hc)
  have hnat : (numeral charp base).1.toUInt32.toNat = (numeral charp base).1.toInt.toNat := by
    rcases numeral_base charp hbase with h | h | h <;> rw [h] <;> rfl
  rw [strtoul_numeral, hsplit]
  exact (accumulate_digits hvalid 0).trans (by rw [hnat, wanted])

/-- **`strtoul` returns the value of the number and stops behind it** exactly if the character
there is not one that its loop goes past. -/
theorem strtoul_stops_iff (charp : CharStr) (hbase : base ∈ [0, OCT, DEC, HEX]) :
    strtoul charp base = wanted charp base ↔ Stops charp base := by
  rw [strtoul_digits charp hbase, Stops]
  rcases hrest : behind charp base with _ | ⟨c, cs⟩
  · simp [accumulate, wanted, hrest]
  · constructor
    · intro h
      by_contra hp
      obtain ⟨res', hres'⟩ := @accumulate_passes (numeral charp base).1 c cs
        (wanted charp base).1 (by simpa using hp)
      have hle := accumulate_length_le (numeral charp base).1 cs res'
      rw [← hres', h, wanted, hrest, List.length_cons] at hle
      omega
    · intro hp
      rw [accumulate_stop (by simpa using hp)]
      simp [wanted, hrest]

/-- `"12ab"`. -/
def twelveAb : CharStr := [0x31, 0x32, 0x61, 0x62]

/-- A decimal number in front of letters that are hexadecimal digits. -/
theorem strtoul_reads_letters :
    strtoul twelveAb DEC = (1311, []) ∧ wanted twelveAb DEC = (12, [0x61, 0x62]) ∧
      strtoul twelveAb DEC ≠ wanted twelveAb DEC := by
  decide

theorem strtoul_stops_zero : Stops [char0] 0 ∧ strtoul [char0] 0 = wanted [char0] 0 :=
  ⟨by decide, (strtoul_stops_iff [char0] (by decide)).mpr (by decide)⟩

end OxKernel.Libk
