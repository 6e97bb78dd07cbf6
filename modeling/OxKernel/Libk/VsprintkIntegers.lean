import OxKernel.Libk.Vsprintk

/-!
# The texts of integers in `vsprintk`

What `ultostr` and `ltostr` write to `tmp` for the conversions of integers, and how long it is.

## Main results

* `integerText_eq` — the text of an integer, and the number that is returned for it.
* `length_integerString_le` — its length.
-/
namespace OxKernel.Libk

/-- The conversions of integers. -/
def integerConversions : List Conversion := [.u, .o, .x, .X, .p, .d, .i]

/-- The sign and the digits of a signed number. -/
def signedText (w : Int32) : CharStr :=
  if w < 0 then ch '-' :: written (-w).toUInt32 DEC else written w.toUInt32 DEC

/-- The text of an integer. -/
def integerString (conv : Conversion) (t : ArgType) (w : UInt32) : CharStr :=
  match conv with
  | .o => ch '0' :: written (unsignedArg t w) OCT
  | .x => ch '0' :: ch 'x' ::
      (written (unsignedArg t w) HEX).map fun c => if isalpha c then tolower c else c
  | .X => ch '0' :: ch 'x' :: written (unsignedArg t w) HEX
  | .p => ch '0' :: ch 'x' :: written w HEX
  | .d => signedText (signedArg t w)
  | .i => signedText (signedArg t w)
  | _ => written (unsignedArg t w) DEC

/-- The greatest odd number of characters that the text of an integer may have. -/
def oddLength (conv : Conversion) (t : ArgType) : ℕ :=
  match conv, t with
  | .u, .h => 5
  | .u, _ => 9
  | .o, .h => 7
  | .o, _ => 11
  | .d, .h => 5
  | .d, _ => 11
  | .i, .h => 5
  | .i, _ => 11
  | .x, .h => 5
  | .X, .h => 5
  | _, _ => 9

section Signed
variable {w : Int32}

/-- A number that is not negative, as it is passed to `ultostr`. -/
theorem toNat_toUInt32_of_nonneg (h : ¬ w < 0) : w.toUInt32.toNat = w.toInt.natAbs := by
  have hnonneg : 0 ≤ w.toInt := by
    rw [Int32.lt_iff_toInt_lt, not_lt] at h
    exact h
  have hcond := BitVec.toInt_eq_toNat_cond w.toBitVec
  rw [Int32.toNat_toBitVec, Int32.toInt_toBitVec] at hcond
  have hlt := w.toUInt32.toNat_lt
  split at hcond <;> omega

/-- The opposite of a negative number, the least one included. -/
theorem toNat_toUInt32_neg (h : w < 0) : (-w).toUInt32.toNat = w.toInt.natAbs := by
  have hneg : w.toInt < 0 := by
    rw [Int32.lt_iff_toInt_lt] at h
    exact h
  have hcond := BitVec.toInt_eq_toNat_cond w.toBitVec
  rw [Int32.toNat_toBitVec, Int32.toInt_toBitVec] at hcond
  have hlt := w.toUInt32.toNat_lt
  have hsize : UInt32.size = 4294967296 := rfl
  rw [Int32.toUInt32_neg, UInt32.toNat_neg, hsize]
  split at hcond <;> omega

/-- What `ltostr` writes, and its result. -/
theorem ltostr_dec (w : Int32) :
    ∃ n, ltostr w DEC = some (signedText w, n) ∧ n.toInt = (signedText w).length := by
  have hnamed : Named DEC := by decide
  have hformat : formatting DEC = [] := rfl
  by_cases hw : w < 0
  · refine ⟨Int32.ofNat (written (-w).toUInt32 DEC).length + 1, ?_, ?_⟩
    · simp [ltostr, hw, ultostr_eq hnamed, hformat, signedText]
      rfl
    · have hle := length_written_le hnamed (-w).toUInt32
      rw [hformat, List.nil_append] at hle
      simp only [nrDigits] at hle
      rw [signedText, if_pos hw, List.length_cons]
      generalize (written (-w).toUInt32 DEC).length = len at hle
      have hone : (1 : Int32).toInt = 1 := rfl
      rw [Int32.toInt_add, Int32.toInt_ofNat_of_lt (by omega), hone,
        Int.bmod_eq_of_le (by omega) (by omega), Nat.cast_succ]
  · have hle := length_written_le hnamed w.toUInt32
    rw [hformat, List.nil_append] at hle
    simp only [nrDigits] at hle
    refine ⟨Int32.ofNat (written w.toUInt32 DEC).length, ?_, ?_⟩
    · simp [ltostr, hw, ultostr_eq hnamed, hformat, signedText]
    · rw [signedText, if_neg hw, Int32.toInt_ofNat_of_lt (by omega)]

end Signed

section Texts
variable {conv : Conversion} {t : ArgType} {v w : UInt32}

/-- What `ultostr` returns. -/
theorem ultostr_length {base : Int32} (h : Named base) (v : UInt32) :
    ∃ n, ultostr v base = some (formatting base ++ written v base, n) ∧
      n.toInt = (formatting base ++ written v base).length := by
  have hle := length_written_le h v
  simp only [nrDigits] at hle
  exact ⟨_, ultostr_eq h v, Int32.toInt_ofNat_of_lt (by omega)⟩

/-- **The text of an integer**, and its length. -/
theorem integerText_eq (h : conv ∈ integerConversions) (t : ArgType) (w : UInt32) :
    ∃ n, integerText conv t w = some (integerString conv t w, n) ∧
      n.toInt = (integerString conv t w).length := by
  cases conv with
  | u => exact ultostr_length (by decide) _
  | o => exact ultostr_length (by decide) _
  | x =>
      have hnamed : Named HEX := by decide
      obtain ⟨n, htext, hn⟩ := ultostr_length hnamed (unsignedArg t w)
      refine ⟨n, ?_, ?_⟩
      · simp only [integerText, htext, Option.bind_eq_bind, Option.bind_some]
        rfl
      · rw [hn]
        simp only [integerString, List.length_append, List.length_cons, List.length_map]
        rw [show (formatting HEX).length = 2 from rfl, Nat.add_comm]
  | X => exact ultostr_length (by decide) _
  | p => exact ultostr_length (by decide) _
  | d => exact ltostr_dec _
  | i => exact ltostr_dec _
  | _ => exact absurd h (by decide)

/-! ## Lengths -/

theorem length_written_le_of_lt {base : Int32} (h : Named base) {len : ℕ} (hlen : 1 ≤ len)
    (hv : v.toNat < base.toUInt32.toNat ^ len) : (written v base).length ≤ len := by
  rw [written]
  split
  · exact hlen
  · rwa [List.length_reverse, List.length_map, Nat.digits_length_le_iff h.one_lt]

theorem unsignedArg_h_lt (w : UInt32) : (unsignedArg .h w).toNat < 65536 := by
  rw [unsignedArg, UInt16.toNat_toUInt32]
  exact w.toUInt16.toNat_lt

theorem natAbs_signedArg_h_le (w : UInt32) : (signedArg .h w).toInt.natAbs ≤ 32768 := by
  rw [signedArg, Int16.toInt_toInt32]
  have hlow := Int16.le_toInt w.toUInt16.toInt16
  have hhigh := Int16.toInt_lt w.toUInt16.toInt16
  omega

theorem length_signedText_le (x : Int32) {len : ℕ} (hlen : 1 ≤ len)
    (h : x.toInt.natAbs < 10 ^ len) : (signedText x).length ≤ len + 1 := by
  have hnamed : Named DEC := by decide
  rw [signedText]
  split
  · rename_i hneg
    rw [List.length_cons]
    have hle := length_written_le_of_lt (v := (-x).toUInt32) hnamed hlen
      (by rwa [toNat_toUInt32_neg hneg])
    omega
  · rename_i hneg
    have hle := length_written_le_of_lt (v := x.toUInt32) hnamed hlen
      (by rwa [toNat_toUInt32_of_nonneg hneg])
    omega

theorem natAbs_toInt_lt (x : Int32) : x.toInt.natAbs < 10 ^ 10 := by
  have hlow := x.le_toInt
  have hhigh := x.toInt_lt
  omega

/-- **The text of an integer** has at most one character more than the greatest odd number of
them. -/
theorem length_integerString_le (h : conv ∈ integerConversions) (t : ArgType) (w : UInt32) :
    (integerString conv t w).length ≤ oddLength conv t + 1 := by
  have hword : ∀ v : UInt32, v.toNat < 10 ^ 10 ∧ v.toNat < 8 ^ 11 ∧ v.toNat < 16 ^ 8 := by
    intro v
    have hv := v.toNat_lt
    omega
  have hhalf := unsignedArg_h_lt w
  have hdec : ∀ v : UInt32, (written v DEC).length ≤ 10 := fun v =>
    length_written_le_of_lt (by decide) (by omega) (hword v).1
  have hoct : ∀ v : UInt32, (written v OCT).length ≤ 11 := fun v =>
    length_written_le_of_lt (by decide) (by omega) (hword v).2.1
  have hhex : ∀ v : UInt32, (written v HEX).length ≤ 8 := fun v =>
    length_written_le_of_lt (by decide) (by omega) (hword v).2.2
  have hdecH : (written (unsignedArg .h w) DEC).length ≤ 5 :=
    length_written_le_of_lt (by decide) (by omega) (hhalf.trans_le (by decide))
  have hoctH : (written (unsignedArg .h w) OCT).length ≤ 6 :=
    length_written_le_of_lt (by decide) (by omega) (hhalf.trans_le (by decide))
  have hhexH : (written (unsignedArg .h w) HEX).length ≤ 4 :=
    length_written_le_of_lt (by decide) (by omega) (hhalf.trans_le (by decide))
  have hsigned : ∀ x : Int32, (signedText x).length ≤ 11 := fun x =>
    length_signedText_le x (by omega) (natAbs_toInt_lt x)
  have hsignedH : (signedText (signedArg .h w)).length ≤ 6 :=
    length_signedText_le _ (by omega) ((natAbs_signedArg_h_le w).trans_lt (by decide))
  cases conv with
  | u => cases t <;> simp only [integerString, oddLength] <;> grind
  | o => cases t <;> simp only [integerString, oddLength, List.length_cons] <;> grind
  | x => cases t <;> simp only [integerString, oddLength, List.length_cons, List.length_map] <;> grind
  | X => cases t <;> simp only [integerString, oddLength, List.length_cons] <;> grind
  | p => cases t <;> simp only [integerString, oddLength, List.length_cons] <;> grind
  | d => cases t <;> simp only [integerString, oddLength] <;> grind
  | i => cases t <;> simp only [integerString, oddLength] <;> grind
  | _ => exact absurd h (by decide)

end Texts

end OxKernel.Libk
