import OxKernel.Lib.Printf
import OxKernel.Libk.VsprintkFormats
import OxKernel.Libk.VsprintkIntegers

/-!
# Integers as in ANSI C

The conversions of integers without a precision, compared with what ANSI C says about them.

The width is kept in a `char`, so a width from 128 on becomes negative and the field is not
filled up. The mark of the base that `#` asks for is put in front of zero, too.

## Main definitions

* `IntegerFormat` — a conversion of integers with its flags and its width.

## Main results

* `vsprintk_integer` — what `vsprintk` writes for a word.
* `integer_ansi_iff` — when that is what ANSI C says.
-/
namespace OxKernel.Libk

open Lib.Printf

/-! ## The digits -/

/-- The digits that `ultostr` writes are those of Lean, but for the letters. -/
theorem written_eq_toDigits {base : Int32} (h : Named base) {f : Char → UInt8}
    (hf : ∀ d < base.toUInt32.toNat, charOf d = f (Nat.digitChar d)) (v : UInt32) :
    written v base = (Nat.toDigits base.toUInt32.toNat v.toNat).map f := by
  have hzero : char0 = f '0' := hf 0 (by have := h.one_lt; omega)
  by_cases hv : v = 0
  · simp [written, hv, hzero]
  · have hnat : v.toNat ≠ 0 := fun h0 => hv (UInt32.toNat_inj.mp h0)
    rw [written, if_neg hv, Lib.toDigits_eq h.one_lt hnat, List.map_reverse, List.map_map]
    congr 1
    exact List.map_congr_left fun d hd => hf d (Nat.digits_lt_base h.one_lt hd)

theorem written_dec (v : UInt32) : written v DEC = (Nat.toDigits 10 v.toNat).map ch :=
  written_eq_toDigits (by decide) (by decide) v

theorem written_oct (v : UInt32) : written v OCT = (Nat.toDigits 8 v.toNat).map ch :=
  written_eq_toDigits (by decide) (by decide) v

theorem written_hex (v : UInt32) :
    written v HEX = ((Nat.toDigits 16 v.toNat).map Char.toUpper).map ch := by
  rw [List.map_map]
  exact written_eq_toDigits (by decide) (by decide) v

theorem isdigit_ch {c : Char} (h : c.isDigit = true) : isdigit (ch c) = true := by
  have hall : ∀ n < 58, 48 ≤ n → isdigit (ch (Char.ofNat n)) = true := by decide
  simp only [Char.isDigit, Bool.and_eq_true, decide_eq_true_eq, ge_iff_le, UInt32.le_iff_toNat_le] at h
  have hc := hall c.toNat (Nat.lt_succ_of_le h.2) h.1
  rwa [Char.ofNat_toNat] at hc

theorem isdigit_of_mem_toDigits {n : ℕ} {c : UInt8} (hc : c ∈ (Nat.toDigits 10 n).map ch) :
    isdigit c = true := by
  obtain ⟨d, hd, rfl⟩ := List.mem_map.mp hc
  exact isdigit_ch (Nat.isDigit_of_mem_toDigits (by decide) (by decide) hd)

theorem isdigit_of_mem_written {v : UInt32} {c : UInt8} (hc : c ∈ written v DEC) :
    isdigit c = true := by
  rw [written_dec] at hc
  exact isdigit_of_mem_toDigits hc

theorem map_tolower_written (v : UInt32) :
    ((written v HEX).map fun c => if isalpha c then tolower c else c) =
      (Nat.toDigits 16 v.toNat).map ch := by
  have hlow : ∀ d < 16, (if isalpha (charOf d) then tolower (charOf d) else charOf d) =
      ch (Nat.digitChar d) := by decide
  by_cases hv : v = 0
  · subst hv
    decide
  · have hnat : v.toNat ≠ 0 := fun h0 => hv (UInt32.toNat_inj.mp h0)
    rw [written, if_neg hv, Lib.toDigits_eq (by decide) hnat, List.map_reverse, List.map_map,
      List.map_reverse, List.map_map]
    congr 1
    exact List.map_congr_left fun d hd => hlow d (Nat.digits_lt_base (by decide) hd)

/-! ## Formats of one integer -/

/-- The character of a flag. -/
def flagChar : Flag → UInt8
  | .minus => ch '-'
  | .plus => ch '+'
  | .space => ch ' '
  | .sharp => ch '#'
  | .zero => ch '0'

/-- What a flag is read as. -/
def flagModifier : Flag → Modifier
  | .minus => .ljust
  | .plus => .sign
  | .space => .space
  | .sharp => .sharp
  | .zero => .fill

/-- The conversion of the `switch`. -/
def conversionFor : Conv → Conversion
  | .d => .d
  | .i => .i
  | .o => .o
  | .u => .u
  | .x => .x
  | .X => .X

/-- A conversion of integers without a precision. The width stands in the format, or it is an
argument. -/
structure IntegerFormat where
  spec : Spec
  star : Bool
  width_le : spec.width ≤ 255

namespace IntegerFormat
variable (f : IntegerFormat)

/-- The text of the width. A width of zero is not written, for `0` is a flag. -/
def widthText : CharStr :=
  if f.star then [ch '*']
  else if f.spec.width = 0 then []
  else (Nat.toDigits 10 f.spec.width).map ch

/-- What stands between `%` and the conversion. -/
def mods : CharStr := f.spec.flags.map flagChar ++ f.widthText

/-- The width, as an argument. -/
def widthWord : UInt32 := UInt32.ofNat f.spec.width

theorem toNat_widthWord : f.widthWord.toNat = f.spec.width := by
  have hle := f.width_le
  rw [widthWord, UInt32.toNat_ofNat_of_lt']
  rw [UInt32.size]
  omega

theorem widthDigits_eq : (Nat.toDigits 10 f.spec.width).map ch = written f.widthWord DEC := by
  rw [written_dec, toNat_widthWord]

theorem isModifier_mods : ∀ c ∈ f.mods, IsModifier c := by
  intro c hc
  rw [mods, List.mem_append] at hc
  rcases hc with hflag | hwidth
  · obtain ⟨fl, -, rfl⟩ := List.mem_map.mp hflag
    cases fl <;> decide
  · rw [widthText] at hwidth
    split_ifs at hwidth
    · obtain rfl : c = ch '*' := by simpa using hwidth
      decide
    · simp at hwidth
    · exact Or.inl (isdigit_of_mem_toDigits hwidth)

/-- The directive. -/
def directive : Directive where
  mods := f.mods
  conv := conversionFor f.spec.conv
  mods_ok := f.isModifier_mods
  conv_ne := by cases f.spec.conv <;> decide

/-- The format. -/
def text : CharStr := formatText [.directive f.directive]

/-- The arguments for a word. -/
def args (v : UInt32) : List Arg :=
  (if f.star then [.word f.widthWord] else []) ++ [.word v]

/-! ## The modifiers -/

/-- What the width is read as. -/
def widthModifiers : List Modifier :=
  if f.star then [.widthArg]
  else if f.spec.width = 0 then []
  else [.width ((Nat.toDigits 10 f.spec.width).map ch)]

theorem modifiers_flags (fs : List Flag) (p : CharStr) : modifiers (fs.map flagChar ++ p) =
    (fs.map flagModifier ++ (modifiers p).1, (modifiers p).2) := by
  induction fs with
  | nil => rfl
  | cons fl fs ih =>
      have hnext : nextModifier (flagChar fl :: (fs.map flagChar ++ p)) =
          some (flagModifier fl, fs.map flagChar ++ p) := by
        cases fl <;> rfl
      rw [List.map_cons, List.cons_append, modifiers_of_some hnext, ih]
      rfl

/-- The digits of a width are read together: the first of them is not a zero. -/
theorem nextModifier_written {v : UInt32} (hv : v ≠ 0) :
    nextModifier (written v DEC) = some (.width (written v DEC), []) := by
  have hnamed : Named DEC := by decide
  have hall : ∀ c ∈ written v DEC, isdigit c = true := fun c hc => isdigit_of_mem_written hc
  have hhead := written_head_ne hnamed hv
  obtain ⟨c, cs, hcs, -⟩ := written_eq_cons hnamed v
  rw [hcs] at hall hhead ⊢
  have hdigit : isdigit c = true := hall c List.mem_cons_self
  have h0 : c ≠ ch '0' := fun h0 => hhead (by rw [h0]; rfl)
  have hdot : c ≠ ch '.' := by
    rintro rfl
    exact absurd hdigit (by decide)
  rw [nextModifier, if_neg h0, if_neg hdot, if_pos hdigit, List.takeWhile_eq_self_iff.mpr hall,
    List.dropWhile_eq_nil_iff.mpr hall]

theorem modifiers_widthText : modifiers f.widthText = (f.widthModifiers, []) := by
  rw [widthText, widthModifiers]
  split_ifs with hstar hwidth
  · have hnext : nextModifier [ch '*'] = some (.widthArg, []) := rfl
    rw [modifiers_of_some hnext, modifiers_of_none rfl]
  · exact modifiers_of_none rfl
  · have hword : f.widthWord ≠ 0 := by
      intro h0
      rw [← f.toNat_widthWord, h0] at hwidth
      exact hwidth rfl
    rw [widthDigits_eq, modifiers_of_some (nextModifier_written hword), modifiers_of_none rfl]

theorem modifiers_directive :
    f.directive.modifiers = f.spec.flags.map flagModifier ++ f.widthModifiers := by
  have hmods : f.directive.mods = f.spec.flags.map flagChar ++ f.widthText := rfl
  rw [Directive.modifiers, hmods, modifiers_flags, modifiers_widthText]

/-! ## The flags and the width -/

/-- The flags and the width, as they are stored. -/
def vflags : Vflags where
  type := .plain
  sign := decide (.plus ∈ f.spec.flags)
  ljust := decide (.minus ∈ f.spec.flags)
  sharp := decide (.sharp ∈ f.spec.flags)
  space := decide (.space ∈ f.spec.flags)
  fill := decide (.zero ∈ f.spec.flags)
  prec := 0
  width := (UInt8.ofNat f.spec.width).toInt8

end IntegerFormat

/-- Flags on top of others. -/
def withFlags (v : Vflags) (fs : List Flag) : Vflags :=
  { v with
    sign := v.sign || decide (.plus ∈ fs)
    ljust := v.ljust || decide (.minus ∈ fs)
    sharp := v.sharp || decide (.sharp ∈ fs)
    space := v.space || decide (.space ∈ fs)
    fill := v.fill || decide (.zero ∈ fs) }

theorem applyModifiers_flags (fs : List Flag) (ms : List Modifier) (σ : PrintState) :
    applyModifiers (fs.map flagModifier ++ ms) σ =
      applyModifiers ms { σ with vflags := withFlags σ.vflags fs } := by
  induction fs generalizing σ with
  | nil => simp [withFlags]
  | cons fl fs ih =>
      cases fl <;> simp [flagModifier, applyModifiers, Modifier.apply, ih, withFlags]

/-- `vflags.width = atoi(tmp)` keeps the last eight bits. -/
theorem toInt8_atoi_written (v : UInt32) : (atoi (written v DEC)).toInt8 = v.toUInt8.toInt8 := by
  rw [atoi, strtol_written]
  apply Int8.toBitVec_inj.mp
  rw [Int32.toBitVec_toInt8]
  exact BitVec.signExtend_eq_setWidth_of_le _ (by omega)

namespace IntegerFormat
variable (f : IntegerFormat)

theorem toUInt8_widthWord : f.widthWord.toUInt8 = UInt8.ofNat f.spec.width := by
  rw [← UInt8.toNat_inj, UInt32.toNat_toUInt8, toNat_widthWord, UInt8.toNat_ofNat']

/-- The state behind the modifiers. -/
theorem applyModifiers_eq (v : UInt32) (t : Scratch) : ∃ u,
    applyModifiers f.directive.modifiers (.start t (f.args v)) =
      some { PrintState.start u [.word v] with vflags := f.vflags } := by
  rw [modifiers_directive, applyModifiers_flags, widthModifiers, args]
  split_ifs with hstar hwidth
  · refine ⟨t, ?_⟩
    simp [applyModifiers, Modifier.apply, PrintState.start, nextWord, withFlags, vflags,
      Vflags.zero, toUInt8_widthWord]
  · refine ⟨t, ?_⟩
    simp [applyModifiers, PrintState.start, withFlags, vflags, Vflags.zero, hwidth]
  · rw [widthDigits_eq]
    have hle : (written f.widthWord DEC ++ [0]).length ≤ maxBuffer := by
      have hlen := length_written_le (by decide : Named DEC) f.widthWord
      simp only [List.length_append, List.length_singleton, nrDigits, maxBuffer] at hlen ⊢
      omega
    obtain ⟨u, hu⟩ := exists_write t hle
    refine ⟨u, ?_⟩
    simp [applyModifiers, Modifier.apply, PrintState.start, withFlags, vflags, Vflags.zero, hu,
      toInt8_atoi_written, toUInt8_widthWord]

/-! ## The field -/

/-- What is left of a width in a `char`. -/
def keptWidth : ℕ := if f.spec.width ≤ 127 then f.spec.width else 0

theorem toInt_width : f.vflags.width.toInt =
    if f.spec.width ≤ 127 then (f.spec.width : ℤ) else (f.spec.width : ℤ) - 256 := by
  have hle := f.width_le
  have hcond := BitVec.toInt_eq_toNat_cond (UInt8.ofNat f.spec.width).toBitVec
  have hnat : (UInt8.ofNat f.spec.width).toBitVec.toNat = f.spec.width :=
    UInt8.toNat_ofNat_of_lt' (by rw [UInt8.size]; omega)
  rw [hnat] at hcond
  rw [vflags, ← Int8.toInt_toBitVec]
  change (UInt8.ofNat f.spec.width).toBitVec.toInt = _
  rw [hcond]
  split_ifs <;> omega

end IntegerFormat

theorem padding_natCast {n : ℕ} (h : n < 256) (c : UInt8) : padding n c = List.replicate n c := by
  have hnat : (Int8.ofInt n).toUInt8.toNat = n := by
    change (BitVec.ofInt 8 n).toNat = n
    rw [BitVec.toNat_ofInt]
    omega
  rw [padding, hnat]

namespace IntegerFormat
variable (f : IntegerFormat)

/-- The padding of `n` characters. -/
theorem padding_width (n : ℕ) (c : UInt8) :
    (if f.vflags.width.toInt > n then padding (f.vflags.width.toInt - n) c else []) =
      List.replicate (f.keptWidth - n) c := by
  have hle := f.width_le
  rw [f.toInt_width, keptWidth]
  split_ifs with hwidth hgt hgt
  · have hcast : (f.spec.width : ℤ) - n = ((f.spec.width - n : ℕ) : ℤ) := by omega
    rw [hcast, padding_natCast (by omega)]
  · have hzero : f.spec.width - n = 0 := by omega
    rw [hzero, List.replicate_zero]
  · omega
  · simp

/-- **The field** around a prefix and digits. -/
theorem integerBytes_eq {pfx digits : List Char} (hdigits : digits ≠ []) :
    integerBytes (digits.map ch) f.vflags (pfx.length + digits.length)
        (pfx.length + digits.length) pfx.length (pfx.map ch) =
      (layout f.spec.flags f.keptWidth pfx digits).map ch := by
  have hprec : ¬ f.vflags.prec.toInt > ((pfx.length + digits.length : ℤ) - pfx.length) := by
    have hpos := List.length_pos_iff.mpr hdigits
    have hzero : f.vflags.prec.toInt = 0 := rfl
    omega
  have hpad := f.padding_width (pfx.length + digits.length)
  rw [Nat.cast_add] at hpad
  have hljust : f.vflags.ljust = decide (.minus ∈ f.spec.flags) := rfl
  have hfill : f.vflags.fill = decide (.zero ∈ f.spec.flags) := rfl
  simp only [integerBytes, if_neg hprec, Vflags.padRight, Vflags.padLeft, Vflags.fillChar, hljust,
    hfill, layout]
  by_cases hminus : Flag.minus ∈ f.spec.flags
  · simp [hminus, hpad]
  · by_cases hzero : Flag.zero ∈ f.spec.flags
    · simp [hminus, hzero, hpad]
    · simp [hminus, hzero, hpad]

/-! ## The prefix -/

/-- The prefix that `vsprintk` writes: the mark of the base in front of zero, too. -/
def pfx (v : UInt32) : List Char :=
  if f.spec.conv.signed then sign f.spec.flags v.toBitVec
  else if .sharp ∈ f.spec.flags then f.spec.conv.mark
  else []

/-- The digits. -/
def digits (v : UInt32) : List Char := f.spec.conv.digits v.toBitVec

/-- The text of a signed number. -/
theorem signedText_eq (v : UInt32) : signedText v.toInt32 =
    (if v.toBitVec.toInt < 0 then [ch '-'] else []) ++
      (Nat.toDigits 10 v.toBitVec.toInt.natAbs).map ch := by
  have hlt : v.toInt32 < 0 ↔ v.toBitVec.toInt < 0 := Int32.lt_iff_toInt_lt
  rw [signedText]
  split_ifs with hneg hneg'
  · rw [written_dec, toNat_toUInt32_neg hneg]
    rfl
  · exact absurd (hlt.mp hneg) hneg'
  · exact absurd (hlt.mpr ‹_›) hneg
  · rw [written_dec, toNat_toUInt32_of_nonneg hneg]
    rfl

/-- The text of a signed number is cut behind the sign. -/
theorem setPrefix_signed (v : UInt32) (u : Scratch) {D : List Char}
    (hD : D = Nat.toDigits 10 v.toBitVec.toInt.natAbs) :
    setPrefix .d (signedText v.toInt32)
        ⟨u, [], f.vflags, (signedText v.toInt32).length, 0, 0, [], []⟩ =
      (D.map ch, ⟨u, [], f.vflags, (sign f.spec.flags v.toBitVec).length + D.length, 0,
        (sign f.spec.flags v.toBitVec).length, (sign f.spec.flags v.toBitVec).map ch, []⟩) := by
  have hsign : f.vflags.sign = decide (.plus ∈ f.spec.flags) := rfl
  have hspace : f.vflags.space = decide (.space ∈ f.spec.flags) := rfl
  have hhead : ∀ c, D.head? = some c → ¬ ch c = ch '-' := by
    intro c hc hminus
    rw [hD] at hc
    have hdigit := isdigit_of_mem_toDigits (List.mem_map_of_mem (List.mem_of_head? hc))
    rw [hminus] at hdigit
    exact absurd hdigit (by decide)
  rw [signedText_eq, ← hD]
  by_cases hneg : v.toBitVec.toInt < 0
  · simp [setPrefix, sign, hneg, add_comm]
  · by_cases hplus : Flag.plus ∈ f.spec.flags
    · simpa [setPrefix, sign, hneg, hsign, hplus, add_comm] using hhead
    · by_cases hsp : Flag.space ∈ f.spec.flags
      · simpa [setPrefix, sign, hneg, hsign, hspace, hplus, hsp, add_comm] using hhead
      · simpa [setPrefix, sign, hneg, hsign, hspace, hplus, hsp] using hhead

/-- The text of an unsigned number begins with a mark of its base, a small one for `X`, too. -/
theorem integerString_eq {c : Conv} (hc : c.signed = false) (v : UInt32) :
    ∃ p, p.length = c.mark.length ∧
      integerString (conversionFor c) .plain v = p ++ (c.digits v.toBitVec).map ch := by
  cases c with
  | d => cases hc
  | i => cases hc
  | o => exact ⟨[ch '0'], rfl, congrArg ([ch '0'] ++ ·) (written_oct v)⟩
  | u => exact ⟨[], rfl, written_dec v⟩
  | x => exact ⟨[ch '0', ch 'x'], rfl, congrArg ([ch '0', ch 'x'] ++ ·) (map_tolower_written v)⟩
  | X => exact ⟨[ch '0', ch 'x'], rfl, congrArg ([ch '0', ch 'x'] ++ ·) (written_hex v)⟩

/-- The text of an unsigned number is cut behind the mark. -/
theorem setPrefix_unsigned {c : Conv} (hc : c.signed = false) {σ : PrintState} (hs : σ.s = 0)
    (hpfx : σ.pfx = []) (pp : CharStr) : setPrefix (conversionFor c) pp σ =
      (pp.drop c.mark.length, if σ.vflags.sharp then
        { σ with pfx := c.mark.map ch, s := c.mark.length }
        else { σ with n := σ.n - c.mark.length }) := by
  obtain ⟨tmp, ap, vflags, n, x, s, pfx, stored⟩ := σ
  subst hs hpfx
  cases c with
  | d => cases hc
  | i => cases hc
  | u => cases h : vflags.sharp <;> simp [conversionFor, setPrefix, Conv.mark]
  | _ => cases h : vflags.sharp <;> simp [conversionFor, setPrefix, Conv.mark, h]

/-- The text of an integer is cut in front of the digits. -/
theorem setPrefix_eq (v : UInt32) (u : Scratch) :
    setPrefix (conversionFor f.spec.conv) (integerString (conversionFor f.spec.conv) .plain v)
        ⟨u, [], f.vflags, (integerString (conversionFor f.spec.conv) .plain v).length, 0, 0, [], []⟩ =
      ((f.digits v).map ch, ⟨u, [], f.vflags, (f.pfx v).length + (f.digits v).length, 0,
        (f.pfx v).length, (f.pfx v).map ch, []⟩) := by
  rw [digits, pfx]
  cases hsigned : f.spec.conv.signed with
  | true =>
      rcases hconv : f.spec.conv with _ | _ | _ | _ | _ | _
      · exact f.setPrefix_signed v u rfl
      · exact f.setPrefix_signed v u rfl
      all_goals
        rw [hconv] at hsigned
        cases hsigned
  | false =>
      have hsharp : f.vflags.sharp = decide (.sharp ∈ f.spec.flags) := rfl
      obtain ⟨p, hp, htext⟩ := integerString_eq hsigned v
      rw [setPrefix_unsigned hsigned rfl rfl, htext, ← hp, List.drop_left]
      by_cases hmark : Flag.sharp ∈ f.spec.flags
      · simp [hsharp, hmark, hp]
      · simp [hsharp, hmark]

/-! ## What is written -/

theorem length_integerString_lt (c : Conv) (v : UInt32) :
    (integerString (conversionFor c) .plain v ++ [0]).length ≤ maxBuffer := by
  have hconv : conversionFor c ∈ integerConversions := by cases c <;> decide
  have hle := length_integerString_le hconv .plain v
  have hodd : oddLength (conversionFor c) .plain ≤ 11 := by cases c <;> decide
  rw [List.length_append, List.length_singleton, maxBuffer]
  omega

theorem conversion_conversionFor (c : Conv) (count : ℕ) (σ : PrintState) :
    conversion (conversionFor c) count σ = convertInteger (conversionFor c) σ := by
  cases c <;> rfl

theorem digits_ne_nil (v : UInt32) : f.digits v ≠ [] := by
  have hpos : ∀ b n, Nat.toDigits b n ≠ [] := fun _ _ =>
    List.length_pos_iff.mp Nat.length_toDigits_pos
  rw [digits]
  cases f.spec.conv <;> simp [Conv.digits, hpos]

/-- The conversion behind the modifiers. -/
theorem convertInteger_eq (v : UInt32) (u : Scratch) : ∃ σ,
    convertInteger (conversionFor f.spec.conv)
        { PrintState.start u [.word v] with vflags := f.vflags } =
      some ((layout f.spec.flags f.keptWidth (f.pfx v) (f.digits v)).map ch, σ) := by
  have hconv : conversionFor f.spec.conv ∈ integerConversions := by
    cases f.spec.conv <;> decide
  obtain ⟨n, htext, hn⟩ := integerText_eq hconv .plain v
  obtain ⟨u', hu'⟩ := exists_write u (length_integerString_lt f.spec.conv v)
  have htype : f.vflags.type = .plain := rfl
  have hprec : f.vflags.prec.toInt = 0 := rfl
  have hmax : max ((f.pfx v).length + (f.digits v).length : ℤ) (0 + (f.pfx v).length) =
      (f.pfx v).length + (f.digits v).length := by omega
  refine ⟨⟨u', [], f.vflags, (f.pfx v).length + (f.digits v).length,
    (f.pfx v).length + (f.digits v).length, (f.pfx v).length, (f.pfx v).map ch, []⟩, ?_⟩
  simp only [convertInteger, PrintState.start, nextWord, htype, htext, hu', hn, mainFormatting,
    Option.bind_eq_bind, Option.bind_some, f.setPrefix_eq v u', hprec, hmax,
    f.integerBytes_eq (f.digits_ne_nil v)]
  rfl

/-- **What `vsprintk` writes** for an integer: the field that ANSI C describes, with what is left
of the width, and with the mark of the base in front of zero, too. -/
theorem vsprintk_integer (v : UInt32) (t : Scratch) :
    (vsprintk f.text (f.args v) t).map Printed.bytes =
      some ((layout f.spec.flags f.keptWidth (f.pfx v) (f.digits v)).map ch) := by
  obtain ⟨u, hmods⟩ := f.applyModifiers_eq v t
  obtain ⟨σ, hconv⟩ := f.convertInteger_eq v u
  have hdirective : f.directive.conv = conversionFor f.spec.conv := rfl
  rw [text, vsprintk_formatText]
  simp [emitAll, Item.emit, hmods, hdirective, conversion_conversionFor, hconv]

/-! ## Where it is what ANSI C says -/

section Compare
variable {f} {v : UInt32}

theorem keptWidth_of_le (h : f.spec.width ≤ 127) : f.keptWidth = f.spec.width := if_pos h

/-- The mark of the base makes a difference in front of zero only. -/
theorem pfx_eq (h : .sharp ∈ f.spec.flags → v = 0 → f.spec.conv.mark = []) :
    f.pfx v = f.spec.pfx v.toBitVec := by
  rw [pfx, Spec.pfx]
  cases hsigned : f.spec.conv.signed with
  | true => rfl
  | false =>
      by_cases hsharp : Flag.sharp ∈ f.spec.flags
      · by_cases hv : v = 0
        · simp [hsharp, hv, h hsharp hv]
        · have hbits : v.toBitVec ≠ 0 := fun h0 => hv (UInt32.toBitVec_inj.mp h0)
          rw [if_neg Bool.false_ne_true, if_neg Bool.false_ne_true, if_pos hsharp,
            if_pos ⟨hsharp, hbits⟩]
      · simp [hsharp]

theorem length_pfx_le : (f.pfx v).length ≤ 2 := by
  rw [pfx, sign]
  split_ifs <;> cases f.spec.conv <;> simp [Conv.mark]

/-- What is written is too short for a width that a `char` cannot hold. -/
theorem width_le_of_eq (h : (layout f.spec.flags f.keptWidth (f.pfx v) (f.digits v)).length =
    (f.spec.output v.toBitVec).length) : f.spec.width ≤ 127 := by
  by_contra hwidth
  have hkept : f.keptWidth = 0 := if_neg hwidth
  have hpfx : (f.pfx v).length ≤ 2 := length_pfx_le
  have hdigits : (f.digits v).length ≤ 11 := f.spec.conv.length_digits_le v.toBitVec
  rw [Spec.output, length_layout, length_layout, hkept] at h
  omega

/-- In front of zero, the marks of hexadecimal numbers have a letter that does not belong there. -/
theorem hex_mark_ne {c : Char} (hc : ch c ≠ ch ' ') (h0 : ch c ≠ ch '0') {flags : List Flag}
    {width width' : ℕ} (h : (layout flags width ['0', c] ['0']).map ch =
      (layout flags width' [] ['0']).map ch) : False := by
  have hmem : ch c ∈ (layout flags width ['0', c] ['0']).map ch := by
    rw [layout]
    split_ifs <;> simp
  rw [h, layout] at hmem
  split_ifs at hmem <;> simp [hc, h0] at hmem

/-- The mark of an octal number is one of the zeros that fill up the field, if there are any. -/
theorem octal_mark_iff {flags : List Flag} {width : ℕ} :
    (layout flags width ['0'] ['0']).map ch = (layout flags width [] ['0']).map ch ↔
      .zero ∈ flags ∧ .minus ∉ flags ∧ 2 ≤ width := by
  have hne : ch ' ' ≠ ch '0' := by decide
  constructor
  · intro h
    have hlen := congrArg List.length h
    simp only [List.length_map, length_layout, List.length_cons, List.length_nil] at hlen
    have hwidth : 2 ≤ width := by omega
    have hcount := congrArg (List.count (ch '0')) h
    by_cases hminus : Flag.minus ∈ flags
    · simp [layout, hminus, List.count_replicate, hne] at hcount
    · by_cases hzero : Flag.zero ∈ flags
      · exact ⟨hzero, hminus, hwidth⟩
      · simp [layout, hminus, hzero, List.count_append, List.count_replicate, hne] at hcount
  · rintro ⟨hzero, hminus, hwidth⟩
    obtain ⟨k, rfl⟩ := Nat.exists_eq_add_of_le' hwidth
    simp [layout, hzero, hminus, List.replicate_succ]

end Compare

end IntegerFormat

/-- **An integer is written as in ANSI C** exactly if a `char` can hold the width, and `#` does
not ask for a mark of the base in front of zero; for `o` that mark is one of the zeros that fill
up the field. -/
theorem integer_ansi_iff (f : IntegerFormat) (v : UInt32) (t : Scratch) :
    (vsprintk f.text (f.args v) t).map Printed.bytes =
        some ((f.spec.output v.toBitVec).map ch) ↔
      f.spec.width ≤ 127 ∧ (.sharp ∈ f.spec.flags → v = 0 →
        f.spec.conv ≠ .x ∧ f.spec.conv ≠ .X ∧ (f.spec.conv = .o →
          .zero ∈ f.spec.flags ∧ .minus ∉ f.spec.flags ∧ 2 ≤ f.spec.width)) := by
  have hdigits : f.spec.conv.digits v.toBitVec = f.digits v := rfl
  rw [f.vsprintk_integer, Option.some.injEq]
  constructor
  · intro h
    have hlen := congrArg List.length h
    rw [List.length_map, List.length_map] at hlen
    have hwidth := IntegerFormat.width_le_of_eq hlen
    refine ⟨hwidth, fun hsharp hv => ?_⟩
    -- In front of zero, the field with the mark and the field without it.
    rw [IntegerFormat.keptWidth_of_le hwidth, Spec.output, hdigits, IntegerFormat.digits,
      IntegerFormat.pfx, Spec.pfx, hv] at h
    refine ⟨fun hx => ?_, fun hX => ?_, fun ho => ?_⟩
    · rw [hx] at h
      simp [Conv.signed, hsharp, Conv.mark] at h
      exact IntegerFormat.hex_mark_ne (by decide) (by decide) h
    · rw [hX] at h
      simp [Conv.signed, hsharp, Conv.mark] at h
      exact IntegerFormat.hex_mark_ne (by decide) (by decide) h
    · rw [ho] at h
      simp [Conv.signed, hsharp, Conv.mark] at h
      exact IntegerFormat.octal_mark_iff.mp h
  · intro ⟨hwidth, hmark⟩
    rw [IntegerFormat.keptWidth_of_le hwidth, Spec.output, hdigits]
    by_cases hoct : .sharp ∈ f.spec.flags ∧ v = 0 ∧ f.spec.conv = .o
    · obtain ⟨hsharp, hv, ho⟩ := hoct
      rw [IntegerFormat.digits, IntegerFormat.pfx, Spec.pfx, hv, ho]
      simp only [Conv.signed, hsharp, Conv.mark]
      exact IntegerFormat.octal_mark_iff.mpr ((hmark hsharp hv).2.2 ho)
    · have hnone : .sharp ∈ f.spec.flags → v = 0 → f.spec.conv.mark = [] := by
        intro hsharp hv
        obtain ⟨hx, hX, -⟩ := hmark hsharp hv
        cases hconv : f.spec.conv with
        | o => exact absurd ⟨hsharp, hv, hconv⟩ hoct
        | x => exact absurd hconv hx
        | X => exact absurd hconv hX
        | _ => rfl
      rw [IntegerFormat.pfx_eq hnone]

/-- `%#x`. -/
def sharpHex : IntegerFormat := ⟨⟨[.sharp], 0, .x⟩, false, by decide⟩

/-- **Zero with a mark**: `%#x` writes `0x0`, and not `0`. -/
theorem sharp_hex_zero :
    sharpHex.text = ['%', '#', 'x'].map ch ∧
      (vsprintk sharpHex.text (sharpHex.args 0) .zeros).map Printed.bytes =
        some (['0', 'x', '0'].map ch) ∧
      sharpHex.spec.output (0 : UInt32).toBitVec = ['0'] ∧
      (vsprintk sharpHex.text (sharpHex.args 0) .zeros).map Printed.bytes ≠
        some ((sharpHex.spec.output (0 : UInt32).toBitVec).map ch) := by
  rw [IntegerFormat.vsprintk_integer]
  decide

end OxKernel.Libk
