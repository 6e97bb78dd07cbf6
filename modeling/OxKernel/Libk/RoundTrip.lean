import OxKernel.Libk.Strtoul

/-!
# Numbers written and read back

`strtoul` reads what `ultostr` has written, in the base it was written in and in base 0, which
finds the base by the prefix. The digits come from Mathlib's `Nat.digits`, so the round trip is
that of a numeral: `Lib.readDigits_digits`.

## Main definitions

* `written` — the digits that `ultostr` puts behind the prefix.

## Main results

* `ultostr_eq` — what `ultostr` writes and returns.
* `numbers_round_trip` — the round trips of the unsigned and the signed functions.
-/
namespace OxKernel.Libk

variable {base : Int32} {v : UInt32} {charp : CharStr}

/-! ### Digits -/

/-- The character of a digit, by its value. -/
def charOf (d : ℕ) : UInt8 := digitChar (UInt8.ofNat d)

theorem isxdigit_charOf {d : ℕ} (h : d < 16) : isxdigit (charOf d) = true := by
  have hall : ∀ d < 16, isxdigit (charOf d) = true := by decide
  exact hall d h

@[simp] theorem digitValue_charOf {d : ℕ} (h : d < 16) : digitValue (charOf d) = d := by
  have hall : ∀ d < 16, digitValue (charOf d) = d := by decide
  exact hall d h

/-- The loop of `ultostr` writes the digits of the number, if there is room for them. -/
theorem convert_eq (hbase : 1 < base.toUInt32.toNat) {room : ℕ}
    (h : v.toNat < base.toUInt32.toNat ^ room) :
    convert base room v = some ((base.toUInt32.toNat.digits v.toNat).map charOf) := by
  induction room generalizing v with
  | zero =>
      have hv : v = 0 := UInt32.toNat_inj.mp (by simpa using h)
      simp [convert, hv]
  | succ room ih =>
      by_cases hv : v = 0
      · simp [convert, hv]
      · have hpos : 0 < v.toNat := by
          rw [Nat.pos_iff_ne_zero]
          exact fun h0 => hv (UInt32.toNat_inj.mp h0)
        have hdiv : (v / base.toUInt32).toNat = v.toNat / base.toUInt32.toNat := UInt32.toNat_div ..
        have hlt : (v / base.toUInt32).toNat < base.toUInt32.toNat ^ room := by
          rw [hdiv, Nat.div_lt_iff_lt_mul (by omega), ← pow_succ]
          exact h
        have hdigit : digitChar (v % base.toUInt32).toUInt8 =
            charOf (v.toNat % base.toUInt32.toNat) := by
          rw [charOf, ← UInt32.toNat_mod]
          congr 1
        rw [convert, if_neg hv, Nat.digits_def' hbase hpos, List.map_cons, ← hdiv, ← hdigit,
          ih hlt]
        rfl

/-- The digits behind the prefix. -/
def written (v : UInt32) (base : Int32) : CharStr :=
  if v = 0 then [char0] else ((base.toUInt32.toNat.digits v.toNat).map charOf).reverse

/-- A base that the functions name. -/
def Named (base : Int32) : Prop := base ∈ [DEC, OCT, HEX]

instance : Decidable (Named base) := inferInstanceAs (Decidable (_ ∈ _))

theorem Named.cases (h : Named base) : base = DEC ∨ base = OCT ∨ base = HEX := by
  simpa [Named] using h

theorem Named.one_lt (h : Named base) : 1 < base.toUInt32.toNat := by
  rcases h.cases with rfl | rfl | rfl <;> decide

theorem Named.le_sixteen (h : Named base) : base.toUInt32.toNat ≤ 16 := by
  rcases h.cases with rfl | rfl | rfl <;> decide

/-- The buffer of `ultostr` has room for the digits of every number in every base. -/
theorem Named.room (h : Named base) (v : UInt32) :
    v.toNat < base.toUInt32.toNat ^ (nrDigits + 2) := by
  have hv := v.toNat_lt
  have hpow : 2 ^ 32 ≤ base.toUInt32.toNat ^ (nrDigits + 2) := by
    rcases h.cases with rfl | rfl | rfl <;> decide
  exact hv.trans_le hpow

/-- **What `ultostr` writes**: the prefix and the digits. -/
theorem ultostr_eq (h : Named base) (v : UInt32) :
    ultostr v base = some (formatting base ++ written v base,
      Int32.ofNat (formatting base ++ written v base).length) := by
  have hne : base ≠ 0 := by
    rintro rfl
    revert h
    decide
  by_cases hv : v = 0
  · simp [ultostr, hne, hv, written]
  · simp only [ultostr, if_neg hne, if_neg hv, written, convert_eq h.one_lt (h.room v)]
    rfl

/-! ### The digits read back -/

theorem isxdigit_of_mem_written (h : Named base) {c : UInt8} (hc : c ∈ written v base) :
    isxdigit c = true := by
  rw [written] at hc
  split at hc
  · obtain rfl : c = char0 := by simpa using hc
    decide
  · obtain ⟨d, hd, rfl⟩ : ∃ d ∈ base.toUInt32.toNat.digits v.toNat, charOf d = c := by
      simpa using hc
    exact isxdigit_charOf ((Nat.digits_lt_base h.one_lt hd).trans_le h.le_sixteen)

/-- The digits have the value of the number. -/
theorem readDigits_written (h : Named base) (v : UInt32) :
    Lib.readDigits base.toUInt32.toNat ((written v base).map digitValue) 0 = v.toNat := by
  rw [written]
  split
  · rename_i hv
    simp [hv, show digitValue char0 = 0 from rfl]
  · have hmap : (((base.toUInt32.toNat.digits v.toNat).map charOf).reverse).map digitValue =
        (base.toUInt32.toNat.digits v.toNat).reverse := by
      have hid : ∀ d ∈ base.toUInt32.toNat.digits v.toNat, (digitValue ∘ charOf) d = id d :=
        fun d hd => digitValue_charOf ((Nat.digits_lt_base h.one_lt hd).trans_le h.le_sixteen)
      rw [List.map_reverse, List.map_map, List.map_congr_left hid, List.map_id]
    rw [hmap, Lib.readDigits_digits]

/-- The loop of `strtoul` over the digits. -/
theorem accumulate_written (h : Named base) (v : UInt32) :
    accumulate base (written v base) 0 = (v, []) := by
  have hread := @accumulate_digits base [] (written v base)
    (fun c hc => isxdigit_of_mem_written h hc) 0
  rw [List.append_nil, readDigits_written h, UInt32.ofNat_toNat] at hread
  exact hread

/-! ### The strings -/

theorem written_eq_cons (h : Named base) (v : UInt32) :
    ∃ c cs, written v base = c :: cs ∧ isxdigit c = true := by
  have hne : written v base ≠ [] := by
    rw [written]
    split
    · simp
    · rename_i hv
      have hnat : v.toNat ≠ 0 := fun h0 => hv (UInt32.toNat_inj.mp h0)
      simpa using Nat.digits_ne_nil_iff_ne_zero.mpr hnat
  obtain ⟨c, cs, hcs⟩ := List.exists_cons_of_ne_nil hne
  have hc : c ∈ written v base := by simp [hcs]
  exact ⟨c, cs, hcs, isxdigit_of_mem_written h hc⟩

theorem charOf_ne_char0 {d : ℕ} (h : d < 16) (h0 : d ≠ 0) : charOf d ≠ char0 := by
  have hall : ∀ d < 16, d ≠ 0 → charOf d ≠ char0 := by decide
  exact hall d h h0

/-- Only the number zero starts with a zero. -/
theorem written_head_ne (h : Named base) (hv : v ≠ 0) : (written v base).head? ≠ some char0 := by
  have hnat : v.toNat ≠ 0 := fun h0 => hv (UInt32.toNat_inj.mp h0)
  have hdigits : base.toUInt32.toNat.digits v.toNat ≠ [] :=
    Nat.digits_ne_nil_iff_ne_zero.mpr hnat
  have hlast := Nat.getLast_digit_ne_zero base.toUInt32.toNat hnat
  have hlt : (base.toUInt32.toNat.digits v.toNat).getLast hdigits < 16 :=
    (Nat.digits_lt_base h.one_lt (List.getLast_mem hdigits)).trans_le h.le_sixteen
  rw [written, if_neg hv, List.head?_reverse, List.getLast?_map,
    List.getLast?_eq_some_getLast hdigits]
  simpa using charOf_ne_char0 hlt hlast

theorem not_hexPrefix_of_head (h : charp.head? ≠ some char0) : ¬ HexPrefix charp := by
  rintro ⟨htake, -⟩
  rcases charp with _ | ⟨c, cs⟩
  · simp at htake
  · simp only [List.take_succ_cons, List.cons.injEq] at htake
    simp [htake.1] at h

/-- In base 10, the digits alone. -/
theorem strtoul_dec (v : UInt32) (hbase : base = DEC ∨ base = 0) :
    strtoul (written v DEC) base = (v, []) := by
  have hnamed : Named DEC := by decide
  have hacc := accumulate_written hnamed v
  rw [strtoul_numeral, numeral]
  rcases hbase with rfl | rfl
  · simpa [show DEC ≠ 0 by decide, show DEC ≠ HEX by decide] using hacc
  · by_cases hv : v = 0
    · subst hv
      decide
    · have hhead := written_head_ne hnamed hv
      have hhex := not_hexPrefix_of_head hhead
      simpa [hhex, hhead] using hacc

/-- In base 8, a zero in front of the digits. It is a digit in base 8 and the prefix in
base 0. -/
theorem strtoul_oct (v : UInt32) (hbase : base = OCT ∨ base = 0) :
    strtoul (char0 :: written v OCT) base = (v, []) := by
  have hnamed : Named OCT := by decide
  have hacc := accumulate_written hnamed v
  rw [strtoul_numeral, numeral]
  rcases hbase with rfl | rfl
  · have hzero : isxdigit char0 = true := by decide
    have hval : UInt32.ofNat (digitValue char0) = 0 := by decide
    simpa [show OCT ≠ 0 by decide, show OCT ≠ HEX by decide, accumulate_digit hzero, hval]
      using hacc
  · obtain ⟨c, cs, hcs, hc⟩ := written_eq_cons hnamed v
    have hx : c ≠ charx := by
      rintro rfl
      revert hc
      decide
    have hhex : ¬ HexPrefix (char0 :: written v OCT) := by simp [HexPrefix, hcs, hx]
    simpa [hhex] using hacc

/-- In base 16, `0x` in front of the digits. -/
theorem strtoul_hex (v : UInt32) (hbase : base = HEX ∨ base = 0) :
    strtoul (char0 :: charx :: written v HEX) base = (v, []) := by
  have hnamed : Named HEX := by decide
  obtain ⟨c, cs, hcs, hc⟩ := written_eq_cons hnamed v
  have hhex : HexPrefix (char0 :: charx :: written v HEX) := by simp [HexPrefix, hcs, hc]
  rw [strtoul_hexPrefix hbase.symm hhex]
  exact accumulate_written hnamed v

/-- `strtoul` reads what `ultostr` writes. -/
theorem strtoul_written (h : Named base) (v : UInt32) :
    strtoul (formatting base ++ written v base) base = (v, []) ∧
      strtoul (formatting base ++ written v base) 0 = (v, []) := by
  rcases h.cases with rfl | rfl | rfl
  · exact ⟨strtoul_dec v (.inl rfl), strtoul_dec v (.inr rfl)⟩
  · exact ⟨strtoul_oct v (.inl rfl), strtoul_oct v (.inr rfl)⟩
  · exact ⟨strtoul_hex v (.inl rfl), strtoul_hex v (.inr rfl)⟩

theorem length_written_le (h : Named base) (v : UInt32) :
    (formatting base ++ written v base).length ≤ nrDigits + 4 := by
  have hformatting : (formatting base).length ≤ 2 := by
    rcases h.cases with rfl | rfl | rfl <;> decide
  have hwritten : (written v base).length ≤ nrDigits + 2 := by
    rw [written]
    split
    · simp
    · rw [List.length_reverse, List.length_map, Nat.digits_length_le_iff h.one_lt]
      exact h.room v
  rw [List.length_append]
  omega

/-! ### Signed numbers -/

/-- `strtol` without a sign. -/
theorem strtol_of_head {s : CharStr} (h : s.head? ≠ some charMinus) (base : Int32) :
    strtol s base = ((strtoul s base).1.toInt32, (strtoul s base).2) := by
  rcases s with _ | ⟨c, cs⟩
  · rfl
  · have hc : c ≠ charMinus := by simpa using h
    simp [strtol, hc]

/-- `strtol` reads the digits alone. -/
theorem strtol_written (v : UInt32) : strtol (written v DEC) DEC = (v.toInt32, []) := by
  obtain ⟨c, cs, hcs, hc⟩ := written_eq_cons (by decide : Named DEC) v
  have hminus : c ≠ charMinus := by
    rintro rfl
    revert hc
    decide
  have hhead : (written v DEC).head? ≠ some charMinus := by simpa [hcs] using hminus
  rw [strtol_of_head hhead, strtoul_dec v (.inl rfl)]

/-- **`strtol` reads what `ltostr` writes** in base 10, the minimum included. -/
theorem strtol_ltostr (w : Int32) :
    ∃ s n, ltostr w DEC = some (s, n) ∧ strtol s DEC = (w, []) := by
  have hnamed : Named DEC := by decide
  by_cases hw : w < 0
  · have hwrite : ∃ n, ltostr w DEC = some (charMinus :: written (-w).toUInt32 DEC, n) := by
      simp [ltostr, hw, ultostr_eq hnamed, show formatting DEC = [] from rfl]
    obtain ⟨n, hn⟩ := hwrite
    exact ⟨_, n, hn, by simp [strtol, strtoul_dec]⟩
  · have hwrite : ∃ n, ltostr w DEC = some (written w.toUInt32 DEC, n) := by
      simp [ltostr, hw, ultostr_eq hnamed, show formatting DEC = [] from rfl]
    obtain ⟨n, hn⟩ := hwrite
    exact ⟨_, n, hn, by simp [strtol_written]⟩

/-- **Numbers survive being written and read back**: unsigned ones in every base, read in
that base or in base 0, and signed ones in base 10. -/
theorem numbers_round_trip (h : Named base) (v : UInt32) (w : Int32) :
    (∃ s n, ultostr v base = some (s, n) ∧ n.toInt = s.length ∧
      strtoul s base = (v, []) ∧ strtoul s 0 = (v, [])) ∧
    (∃ s n, ltostr w DEC = some (s, n) ∧ strtol s DEC = (w, [])) ∧
    ∃ s n, itoa w = some (s, n) ∧ atoi s = w := by
  refine ⟨⟨_, _, ultostr_eq h v, ?_, strtoul_written h v⟩, strtol_ltostr w, ?_⟩
  · have hle := length_written_le h v
    rw [Int32.toInt_ofNat_of_lt]
    simp only [nrDigits] at hle
    omega
  · obtain ⟨s, n, hwrite, hread⟩ := strtol_ltostr w
    exact ⟨s, n, hwrite, by rw [atoi, hread]⟩

theorem numbers_round_trip_hex :
    Named HEX ∧
    (∃ s n, ultostr 0xdeadbeef HEX = some (s, n) ∧ n.toInt = s.length ∧
      strtoul s HEX = (0xdeadbeef, []) ∧ strtoul s 0 = (0xdeadbeef, [])) ∧
    (∃ s n, ltostr (-5) DEC = some (s, n) ∧ strtol s DEC = (-5, [])) ∧
    ∃ s n, itoa (-5) = some (s, n) ∧ atoi s = -5 :=
  ⟨by decide, numbers_round_trip (by decide) 0xdeadbeef (-5)⟩

end OxKernel.Libk
