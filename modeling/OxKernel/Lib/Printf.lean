import Mathlib.Data.Nat.Digits.Defs

/-!
# Integers in a field

The conversions of integers of the C function `printf`, without a precision. The digits of an
integer stand behind its sign or behind the mark of its base, and a field of a least width is
filled up on one side of them, or with zeros in between.

## Main definitions

* `layout` — a prefix and digits in a field.
* `Spec.output` — what a conversion writes for a word.

## Main results

* `length_layout` — the field is as wide as it has to be.
* `Conv.length_digits_le` — how many digits a word of 32 bits has.
-/
namespace OxKernel.Lib.Printf

/-- The flags. -/
inductive Flag
  | minus
  | plus
  | space
  | sharp
  | zero
  deriving DecidableEq

/-- The conversions of integers. -/
inductive Conv
  | d
  | i
  | o
  | u
  | x
  | X
  deriving DecidableEq

/-- A conversion with its flags and its width. -/
structure Spec where
  flags : List Flag
  width : ℕ
  conv : Conv

/-! ## The field -/

/-- A prefix and digits in a field. -/
def layout (flags : List Flag) (width : ℕ) (pfx digits : List Char) : List Char :=
  let pad := width - (pfx.length + digits.length)
  if .minus ∈ flags then pfx ++ digits ++ List.replicate pad ' '
  else if .zero ∈ flags then pfx ++ List.replicate pad '0' ++ digits
  else List.replicate pad ' ' ++ pfx ++ digits

section Layout
variable {flags : List Flag} {width : ℕ} {pfx digits : List Char}

theorem length_layout :
    (layout flags width pfx digits).length = max width (pfx.length + digits.length) := by
  rw [layout]
  split_ifs <;> simp <;> omega

end Layout

/-! ## Words -/

variable {w : ℕ}

/-- A conversion of signed integers. -/
def Conv.signed : Conv → Bool
  | .d => true
  | .i => true
  | _ => false

/-- The digits of a word. -/
def Conv.digits (conv : Conv) (v : BitVec w) : List Char :=
  match conv with
  | .d => Nat.toDigits 10 v.toInt.natAbs
  | .i => Nat.toDigits 10 v.toInt.natAbs
  | .o => Nat.toDigits 8 v.toNat
  | .u => Nat.toDigits 10 v.toNat
  | .x => Nat.toDigits 16 v.toNat
  | .X => (Nat.toDigits 16 v.toNat).map Char.toUpper

/-- The mark of a base. -/
def Conv.mark : Conv → List Char
  | .o => ['0']
  | .x => ['0', 'x']
  | .X => ['0', 'X']
  | _ => []

/-- The sign of a word. -/
def sign (flags : List Flag) (v : BitVec w) : List Char :=
  if v.toInt < 0 then ['-']
  else if .plus ∈ flags then ['+']
  else if .space ∈ flags then [' ']
  else []

/-- What stands in front of the digits: the mark of the base only if it is asked for, and not
in front of zero. -/
def Spec.pfx (s : Spec) (v : BitVec w) : List Char :=
  if s.conv.signed then sign s.flags v
  else if .sharp ∈ s.flags ∧ v ≠ 0 then s.conv.mark
  else []

/-- What a conversion writes for a word. -/
def Spec.output (s : Spec) (v : BitVec w) : List Char :=
  layout s.flags s.width (s.pfx v) (s.conv.digits v)

example : Spec.output ⟨[.zero], 6, .d⟩ (-42 : BitVec 32) = ['-', '0', '0', '0', '4', '2'] := by
  decide

@[simp] theorem Conv.digits_zero (conv : Conv) : conv.digits (0 : BitVec w) = ['0'] := by
  cases conv <;> simp [Conv.digits]

/-- A word of 32 bits has at most eleven digits. -/
theorem Conv.length_digits_le (conv : Conv) (v : BitVec 32) : (conv.digits v).length ≤ 11 := by
  have hlt := v.isLt
  have habs : v.toInt.natAbs < 10 ^ 11 := by
    have hcond := BitVec.toInt_eq_toNat_cond v
    split at hcond <;> omega
  cases conv with
  | d => exact Nat.toDigits_length _ _ _ (by omega) habs
  | i => exact Nat.toDigits_length _ _ _ (by omega) habs
  | o => exact Nat.toDigits_length _ _ _ (by omega) (by omega)
  | u => exact Nat.toDigits_length _ _ _ (by omega) (by omega)
  | x => exact Nat.toDigits_length _ _ _ (by omega) (by omega)
  | X =>
      rw [Conv.digits, List.length_map]
      exact Nat.toDigits_length _ _ _ (by omega) (by omega)

end OxKernel.Lib.Printf
