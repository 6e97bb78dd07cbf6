import OxKernel.Fs.Device

/-!
# Bits in a stream of bytes

A model of `bitmap.c`, for data of any length. A `char` takes part in the bit
operations as an `int`, but only its low eight bits meet the mask, so the operations
are those of `UInt8`. An access outside the data has no meaning in the source; here
it reads as 0 and writes nothing.

## Main definitions

* `bitGet`, `bitSet` — the functions of `bitmap.h`.
-/
namespace OxKernel.Fs

variable {n : ℕ}

/-- `data[pos]`. -/
def byteAt (data : Fin n → UInt8) (pos : ℕ) : UInt8 := if h : pos < n then data ⟨pos, h⟩ else 0

/-- `1 << b`. -/
def bitMask (b : ℕ) : UInt8 := 1 <<< UInt8.ofNat b

/-- `bit_get`. -/
def bitGet (data : Fin n → UInt8) (bit : ℕ) : ℕ :=
  if byteAt data (bit / 8) &&& bitMask (bit % 8) ≠ 0 then 1 else 0

/-- `bit_set`. -/
def bitSet (data : Fin n → UInt8) (bit value : ℕ) : Fin n → UInt8 := fun i =>
  if (i : ℕ) = bit / 8 then
    if value = 0 then data i &&& ~~~bitMask (bit % 8)
    else if value = 1 then data i ||| bitMask (bit % 8)
    else data i
  else data i

theorem bitMask_toBitVec {b : ℕ} (hb : b < 8) : (bitMask b).toBitVec = BitVec.twoPow 8 b := by
  have h : ∀ b : Fin 8, (bitMask b).toBitVec = BitVec.twoPow 8 b := by decide
  exact h ⟨b, hb⟩

/-- The test of `bit_get` reads one bit of a byte. -/
theorem and_bitMask_ne_zero {x : UInt8} {b : ℕ} (hb : b < 8) :
    x &&& bitMask b ≠ 0 ↔ x.toBitVec.getLsbD b = true := by
  rw [Ne, ← UInt8.toBitVec_inj, UInt8.toBitVec_and, bitMask_toBitVec hb, BitVec.and_twoPow]
  cases h : x.toBitVec.getLsbD b with
  | false => simp
  | true =>
      have hne : ∀ b : Fin 8, BitVec.twoPow 8 b ≠ UInt8.toBitVec 0 := by decide
      simpa using hne ⟨b, hb⟩

theorem bitGet_eq_one {data : Fin n → UInt8} {bit : ℕ} :
    bitGet data bit = 1 ↔ (byteAt data (bit / 8)).toBitVec.getLsbD (bit % 8) = true := by
  rw [bitGet, ← and_bitMask_ne_zero (Nat.mod_lt _ (by decide))]
  split <;> simp_all

theorem bitGet_eq_zero {data : Fin n → UInt8} {bit : ℕ} :
    bitGet data bit = 0 ↔ ¬ bitGet data bit = 1 := by
  rw [bitGet]
  split <;> simp

theorem byteAt_bitSet (data : Fin n → UInt8) (bit value pos : ℕ) :
    byteAt (bitSet data bit value) pos =
      if pos = bit / 8 ∧ pos < n then
        if value = 0 then byteAt data pos &&& ~~~bitMask (bit % 8)
        else if value = 1 then byteAt data pos ||| bitMask (bit % 8)
        else byteAt data pos
      else byteAt data pos := by
  by_cases hpos : pos < n
  · simp only [byteAt, hpos, dif_pos, bitSet, and_true]
  · simp [byteAt, hpos]

/-- A set bit reads back. -/
theorem bitGet_bitSet_self {data : Fin n → UInt8} {bit value : ℕ} (hbit : bit / 8 < n)
    (hv : value = 0 ∨ value = 1) : bitGet (bitSet data bit value) bit = value := by
  have hlt : bit % 8 < 8 := Nat.mod_lt _ (by decide)
  have hone := @bitGet_eq_one _ (bitSet data bit value) bit
  rw [byteAt_bitSet, if_pos ⟨rfl, hbit⟩] at hone
  rcases hv with rfl | rfl
  · rw [bitGet_eq_zero, hone]
    simp [bitMask_toBitVec hlt, hlt]
  · rw [hone]
    simp [bitMask_toBitVec hlt, hlt]

/-- Other bits do not change. -/
theorem bitGet_bitSet_of_ne {data : Fin n → UInt8} {bit bit' value : ℕ} (h : bit' ≠ bit) :
    bitGet (bitSet data bit value) bit' = bitGet data bit' := by
  have hlt : bit % 8 < 8 := Nat.mod_lt _ (by decide)
  have hlt' : bit' % 8 < 8 := Nat.mod_lt _ (by decide)
  have hiff : bitGet (bitSet data bit value) bit' = 1 ↔ bitGet data bit' = 1 := by
    rw [bitGet_eq_one, bitGet_eq_one, byteAt_bitSet]
    split
    · -- The same byte: the two bits differ in it.
      have hne : bit' % 8 ≠ bit % 8 := by omega
      split
      · simp [bitMask_toBitVec hlt, hlt', hne]
      · split
        · simp [bitMask_toBitVec hlt, BitVec.getLsbD_twoPow, hne.symm]
        · rfl
    · rfl
  by_cases h1 : bitGet data bit' = 1
  · rw [h1, hiff.mpr h1]
  · rw [bitGet_eq_zero.mpr h1, bitGet_eq_zero.mpr fun h2 => h1 (hiff.mp h2)]

theorem bitGet_zero (bit : ℕ) : bitGet (fun _ : Fin n => 0) bit = 0 := by
  rw [bitGet_eq_zero, bitGet_eq_one]
  simp [byteAt]

end OxKernel.Fs
