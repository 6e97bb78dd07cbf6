import OxKernel.Fs.SignedBitmap
import OxKernel.Mm.PageScan

/-!
# The page bitmap as signed bytes

The bit functions of `mm/page.c` with the arithmetic of C, on the maps that are there: a page
has its bit in `mem_map[page / 32768]`, whose `PAGE_SIZE` bytes are of type `char` and
therefore signed. On a page that the maps cover, the functions are those of `MemMap`.

## Main definitions

* `Signed.memSetBit`, `Signed.memClearBit`, `Signed.memTestBit` — the bit functions.

## Main results

* `Signed.page_memSetBit`, `Signed.page_memClearBit`, `Signed.memTestBit_eq` — both models
  agree.
* `bitmap_law` — the laws of both bitmaps.
-/
namespace OxKernel.Mm

namespace Signed

variable {k : ℕ}

/-- `mem->page[byte]` of `&mem_map[block]`. -/
def pageAt (memMap : Fin k → Fin 4096 → Int8) (block byte : UInt32) : Int8 :=
  if h : block.toNat < k ∧ byte.toNat < 4096 then memMap ⟨_, h.1⟩ ⟨_, h.2⟩ else 0

/-- Store `mem->page[byte]` of `&mem_map[block]`. -/
def store (memMap : Fin k → Fin 4096 → Int8) (block byte : UInt32) (x : Int8) :
    Fin k → Fin 4096 → Int8 := fun i j =>
  if (i : ℕ) = block.toNat ∧ (j : ℕ) = byte.toNat then x else memMap i j

/-- `mem_set_bit`. -/
def memSetBit (memMap : Fin k → Fin 4096 → Int8) (page : UInt32) : Fin k → Fin 4096 → Int8 :=
  let block := page / pageBits
  let byte := page % pageBits / bitsPerByte
  let bit := page % pageBits % bitsPerByte
  store memMap block byte
    ((pageAt memMap block byte).toInt32 ||| (1 <<< bit.toInt32)).toInt8

/-- `mem_clear_bit`. -/
def memClearBit (memMap : Fin k → Fin 4096 → Int8) (page : UInt32) :
    Fin k → Fin 4096 → Int8 :=
  let block := page / pageBits
  let byte := page % pageBits / bitsPerByte
  let bit := page % pageBits % bitsPerByte
  store memMap block byte
    ((pageAt memMap block byte).toInt32 &&& ~~~(1 <<< bit.toInt32)).toInt8

/-- `mem_test_bit`. -/
def memTestBit (memMap : Fin k → Fin 4096 → Int8) (page : UInt32) : UInt32 :=
  let block := page / pageBits
  let byte := page % pageBits / bitsPerByte
  let bit := page % pageBits % bitsPerByte
  (((pageAt memMap block byte).toInt32 &&& (1 <<< bit.toInt32)) >>> bit.toInt32).toUInt32

/-- The maps as unsigned bytes. -/
def bytes (memMap : Fin k → Fin 4096 → Int8) : MemMap where
  page := fun b y => (pageAt memMap b y).toUInt8
  touched := []

/-- The maps have the bit of a page. -/
def HasPage (k : ℕ) (page : UInt32) : Prop := (page / pageBits).toNat < k

section

variable {page : UInt32} {memMap : Fin k → Fin 4096 → Int8}

theorem byte_lt (page : UInt32) : (MemMap.byte page).toNat < 4096 := by
  simp only [MemMap.byte, pageBits, bitsPerByte, UInt32.toNat_div, UInt32.toNat_mod,
    UInt32.reduceToNat]
  omega

/-- The number of the bit as an `int`. -/
theorem toInt_bit (page : UInt32) :
    (MemMap.bit page).toInt32.toInt = (MemMap.bit page).toNat := by
  have hbit := MemMap.bit_lt page
  rw [← Int32.toInt_toBitVec, UInt32.toBitVec_toInt32, BitVec.toInt_eq_toNat_of_lt,
    UInt32.toNat_toBitVec]
  rw [UInt32.toNat_toBitVec]
  omega

theorem bit_bounds (page : UInt32) :
    0 ≤ (MemMap.bit page).toInt32.toInt ∧ (MemMap.bit page).toInt32.toInt < 8 ∧
      (MemMap.bit page).toInt32.toInt.toNat = (MemMap.bit page).toNat := by
  have hbit := MemMap.bit_lt page
  rw [toInt_bit]
  omega

/-! ### The two models -/

theorem page_store (memMap : Fin k → Fin 4096 → Int8) (hpage : HasPage k page) (x : Int8) :
    (bytes (store memMap (MemMap.block page) (MemMap.byte page) x)).page =
      ((bytes memMap).update page x.toUInt8).page := by
  funext b y
  have hiff : b.toNat = (MemMap.block page).toNat ∧ y.toNat = (MemMap.byte page).toNat ↔
      b = MemMap.block page ∧ y = MemMap.byte page := by
    rw [UInt32.toNat_inj, UInt32.toNat_inj]
  by_cases hin : b.toNat < k ∧ y.toNat < 4096
  · simp only [bytes, pageAt, hin, and_self, dif_pos, store, hiff, MemMap.update]
    split <;> rfl
  · have hne : ¬ (b = MemMap.block page ∧ y = MemMap.byte page) := by
      rintro ⟨rfl, rfl⟩
      exact hin ⟨hpage, byte_lt page⟩
    simp only [bytes, pageAt, hin, dif_neg, not_false_eq_true, MemMap.update, hne, if_false]

/-- `mem_set_bit` of both models. -/
theorem page_memSetBit (hpage : HasPage k page) :
    (bytes (memSetBit memMap page)).page = ((bytes memMap).memSetBit page).page := by
  obtain ⟨hk, hk8, hnum⟩ := bit_bounds page
  calc (bytes (memSetBit memMap page)).page
      = ((bytes memMap).update page
          ((pageAt memMap (MemMap.block page) (MemMap.byte page)).toInt32 |||
            (1 <<< (MemMap.bit page).toInt32)).toInt8.toUInt8).page :=
        page_store memMap hpage _
    _ = ((bytes memMap).memSetBit page).page := by
        rw [Fs.Signed.toUInt8_or _ hk hk8, hnum]
        rfl

/-- `mem_clear_bit` of both models. -/
theorem page_memClearBit (hpage : HasPage k page) :
    (bytes (memClearBit memMap page)).page = ((bytes memMap).memClearBit page).page := by
  obtain ⟨hk, hk8, hnum⟩ := bit_bounds page
  calc (bytes (memClearBit memMap page)).page
      = ((bytes memMap).update page
          ((pageAt memMap (MemMap.block page) (MemMap.byte page)).toInt32 &&&
            ~~~(1 <<< (MemMap.bit page).toInt32)).toInt8.toUInt8).page :=
        page_store memMap hpage _
    _ = ((bytes memMap).memClearBit page).page := by
        rw [Fs.Signed.toUInt8_and_not _ hk hk8, hnum]
        rfl

/-- The mask shifted back is 1. -/
theorem mask_shiftRight {b : Int32} (hb : 0 ≤ b.toInt) (hb8 : b.toInt < 8) :
    ((1 <<< b) >>> b : Int32) = 1 := by
  have hone : ∀ i : Fin 8, ((1 <<< Int32.ofInt i) >>> Int32.ofInt i : Int32) = 1 := by decide
  have hi := hone ⟨b.toInt.toNat, by omega⟩
  have hcast : ((b.toInt.toNat : ℕ) : ℤ) = b.toInt := by omega
  rw [hcast, Int32.ofInt_toInt] at hi
  exact hi

/-- `mem_test_bit` of both models. -/
theorem memTestBit_eq (memMap : Fin k → Fin 4096 → Int8) (page : UInt32) :
    memTestBit memMap page = if (bytes memMap).isSet page then 1 else 0 := by
  obtain ⟨hk, hk8, hnum⟩ := bit_bounds page
  have hand : (pageAt memMap (MemMap.block page) (MemMap.byte page)).toInt32 &&&
      (1 <<< (MemMap.bit page).toInt32) =
        if (bytes memMap).isSet page then 1 <<< (MemMap.bit page).toInt32 else 0 := by
    rw [Fs.Signed.toInt32_and_mask _ hk hk8, hnum]
    rfl
  calc memTestBit memMap page
      = ((if (bytes memMap).isSet page then 1 <<< (MemMap.bit page).toInt32 else 0) >>>
          (MemMap.bit page).toInt32).toUInt32 := by
        rw [← hand]
        rfl
    _ = if (bytes memMap).isSet page then 1 else 0 := by
        split
        · rw [mask_shiftRight hk hk8]
          rfl
        · rw [Int32.zero_shiftRight]
          rfl

/-! ### The laws -/

theorem memTestBit_memSetBit (hpage : HasPage k page) (p : UInt32) :
    memTestBit (memSetBit memMap page) p =
      if p = page then 1 else memTestBit memMap p := by
  rw [memTestBit_eq, memTestBit_eq, MemMap.isSet_congr (page_memSetBit hpage),
    MemMap.isSet_memSetBit]
  by_cases hp : p = page
  · simp [hp]
  · simp [hp]

theorem memTestBit_memClearBit (hpage : HasPage k page) (p : UInt32) :
    memTestBit (memClearBit memMap page) p =
      if p = page then 0 else memTestBit memMap p := by
  rw [memTestBit_eq, memTestBit_eq, MemMap.isSet_congr (page_memClearBit hpage),
    MemMap.isSet_memClearBit]
  by_cases hp : p = page
  · simp [hp]
  · simp [hp]

end

end Signed

/-- **The laws of the bitmaps**: a bit reads as it was written, and no other bit changes. -/
theorem bitmap_law {n k : ℕ} (data : Fin n → Int8) (memMap : Fin k → Fin 4096 → Int8)
    {bit value : Int32} {page : UInt32} (hbit : Fs.Signed.HasBit n bit)
    (hvalue : value = 0 ∨ value = 1) (hpage : Signed.HasPage k page) :
    (Fs.Signed.bitGet (Fs.Signed.bitSet data bit value) bit = value ∧
      ∀ c, Fs.Signed.HasBit n c → c ≠ bit →
        Fs.Signed.bitGet (Fs.Signed.bitSet data bit value) c = Fs.Signed.bitGet data c) ∧
    Signed.memTestBit (Signed.memSetBit memMap page) page = 1 ∧
    Signed.memTestBit (Signed.memClearBit memMap page) page = 0 ∧
    ∀ p, p ≠ page →
      Signed.memTestBit (Signed.memSetBit memMap page) p = Signed.memTestBit memMap p ∧
      Signed.memTestBit (Signed.memClearBit memMap page) p = Signed.memTestBit memMap p := by
  refine ⟨⟨Fs.Signed.bitGet_bitSet_self data hbit hvalue, ?_⟩, ?_, ?_, ?_⟩
  · intro c hc hne
    exact Fs.Signed.bitGet_bitSet_of_ne data hbit hc hne
  · rw [Signed.memTestBit_memSetBit hpage, if_pos rfl]
  · rw [Signed.memTestBit_memClearBit hpage, if_pos rfl]
  · intro p hp
    rw [Signed.memTestBit_memSetBit hpage, Signed.memTestBit_memClearBit hpage, if_neg hp,
      if_neg hp]
    exact ⟨rfl, rfl⟩

/-- The sign bit of a byte, and the last page of the first of two maps. -/
theorem bitmap_law_signBit :
    Fs.Signed.bitGet (Fs.Signed.bitSet (fun _ : Fin 2 => 0) 7 1) 7 = 1 ∧
      Signed.memTestBit (Signed.memSetBit (fun (_ : Fin 2) _ => 0) 32767) 32768 =
        Signed.memTestBit (fun (_ : Fin 2) _ => 0) 32768 := by
  have hbit : Fs.Signed.HasBit 2 7 := ⟨by decide, by decide⟩
  have hpage : Signed.HasPage 2 32767 := by
    rw [Signed.HasPage]
    decide
  obtain ⟨⟨hself, -⟩, -, -, hother⟩ := bitmap_law (fun _ : Fin 2 => 0)
    (fun (_ : Fin 2) _ => 0) hbit (Or.inr rfl : (1 : Int32) = 0 ∨ (1 : Int32) = 1) hpage
  exact ⟨hself, (hother 32768 (by decide)).1⟩

end OxKernel.Mm
