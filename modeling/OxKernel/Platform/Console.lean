import OxKernel.Lib.Machine
import OxKernel.Lib.Words
import OxKernel.Libk.Conversions

/-!
# The text console

A model of `console_write`. The screen has 25 rows of 160 bytes, a character and an attribute
for each of 80 columns, at `VIDEO_MEMORY`; `vidmem_off` is where the next character goes. It
comes from the cursor registers and goes back to them at the end. Every index that is read or
written is noted, so that an access beside the screen can be seen.

The offset is corrected at the end of the screen only: a backspace at offset 0 moves it back to
the end of the 32 bits.

## Main definitions

* `Screen`, `writeChar` — the loop of `console_write`, one character at a time.
* `Cursor`, `consoleWrite` — the whole function.
* `Screen.OnScreen` — the offset is a position, and all accesses were inside.

## Main results

* `scroll_memory` — what scrolling does to the screen.
* `consoleWrite_onScreen_iff` — the strings whose output stays on the screen.
-/
namespace OxKernel.Platform

open Libk (CharStr)

/-! ## The screen -/

/-- `160*25`. -/
def screenSize : ℕ := 4000

/-- The video memory, the offset, and the indices that were accessed. -/
structure Screen where
  /-- `VIDEO_MEMORY` -/
  memory : ℕ → UInt8
  /-- `vidmem_off` -/
  off : UInt32
  touched : List ℕ

namespace Screen

/-- `VIDEO_MEMORY[i] = c`. -/
def put (s : Screen) (i : ℕ) (c : UInt8) : Screen :=
  { s with memory := Function.update s.memory i c, touched := i :: s.touched }

/-- `VIDEO_MEMORY[i] = VIDEO_MEMORY[j]`. -/
def copy (s : Screen) (i j : ℕ) : Screen :=
  { s with memory := Function.update s.memory i (s.memory j), touched := i :: j :: s.touched }

/-- Set the offset. -/
def move (s : Screen) (off : UInt32) : Screen := { s with off := off }

@[simp] theorem put_off (s : Screen) (i : ℕ) (c : UInt8) : (s.put i c).off = s.off := rfl

@[simp] theorem put_touched (s : Screen) (i : ℕ) (c : UInt8) :
    (s.put i c).touched = i :: s.touched := rfl

@[simp] theorem put_memory (s : Screen) (i : ℕ) (c : UInt8) :
    (s.put i c).memory = Function.update s.memory i c := rfl

@[simp] theorem copy_off (s : Screen) (i j : ℕ) : (s.copy i j).off = s.off := rfl

@[simp] theorem copy_touched (s : Screen) (i j : ℕ) :
    (s.copy i j).touched = i :: j :: s.touched := rfl

@[simp] theorem copy_memory (s : Screen) (i j : ℕ) :
    (s.copy i j).memory = Function.update s.memory i (s.memory j) := rfl

@[simp] theorem move_off (s : Screen) (off : UInt32) : (s.move off).off = off := rfl

@[simp] theorem move_touched (s : Screen) (off : UInt32) : (s.move off).touched = s.touched := rfl

@[simp] theorem move_memory (s : Screen) (off : UInt32) : (s.move off).memory = s.memory := rfl

end Screen

/-! ## One character -/

/-- The loop that moves the rows up. -/
def scrollRows (s : Screen) : Screen :=
  (List.range (160 * 24)).foldl (fun s i => s.copy i (i + 160)) s

/-- The loop that empties the bottom row. -/
def emptyRow (s : Screen) : Screen :=
  (List.range 80).foldl
    (fun s i => (s.put (160 * 24 + i * 2) 0x20).put (160 * 24 + i * 2 + 1) 0x07) s

/-- The end of the loop body: scroll if the offset is behind the screen. -/
def scroll (s : Screen) : Screen :=
  if s.off ≥ 160 * 25 then
    let s := emptyRow (scrollRows s)
    s.move (s.off - 160)
  else s

/-- The `switch` on a character. A `char` is extended with its sign to `curchar`, so all
characters from 128 on are normal ones, and the byte that is written is the character. -/
def putChar (c : UInt8) (s : Screen) : Screen :=
  if c = 0x0a then s.move ((s.off / 160) * 160 + 160)
  else if c = 0x0d then s.move ((s.off / 160) * 160)
  else if c = 0x09 then s.move (s.off + 8)
  else if c = 8 then
    let s := s.move (s.off - 2)
    s.put s.off.toNat 0x20
  else
    let s := (s.put s.off.toNat c).move (s.off + 1)
    (s.put s.off.toNat 0x07).move (s.off + 1)

/-- One round of the loop over the string. -/
def writeChar (c : UInt8) (s : Screen) : Screen := scroll (putChar c s)

/-- The loop over the string as a machine. -/
def consoleMachine : Lib.Machine Screen UInt8 Unit where
  step c s := ((), writeChar c s)

/-! ## The whole function -/

/-- Registers `0x0e` and `0x0f` of the display controller. -/
structure Cursor where
  high : UInt8
  low : UInt8

/-- The offset of the cursor. -/
def Cursor.offset (c : Cursor) : UInt32 := ((c.high.toUInt32 <<< 8) + c.low.toUInt32) <<< 1

/-- The cursor of an offset. -/
def Cursor.ofOffset (off : UInt32) : Cursor where
  high := ((off >>> 1) >>> 8).toUInt8
  low := ((off >>> 1) &&& 0x0ff).toUInt8

/-- The variables when the loop begins. -/
def startScreen (memory : ℕ → UInt8) (c : Cursor) : Screen where
  memory := memory
  off := c.offset
  touched := []

/-- `console_write`: the variables after the loop, and the cursor. -/
def consoleWrite (string : CharStr) (memory : ℕ → UInt8) (c : Cursor) : Screen × Cursor :=
  let s := consoleMachine.exec string (startScreen memory c)
  (s, Cursor.ofOffset s.off)

/-! ## Scrolling -/

section Scroll
variable {s : Screen} {i : ℕ}

/-- Moving up a number of bytes: those behind are still what they were. -/
theorem scrollRows_memory (s : Screen) (n i : ℕ) :
    ((List.range n).foldl (fun s i => s.copy i (i + 160)) s).memory i =
      if i < n then s.memory (i + 160) else s.memory i := by
  induction n generalizing i with
  | zero => simp
  | succ n ih =>
      rw [List.range_succ, List.foldl_append, List.foldl_cons, List.foldl_nil, Screen.copy_memory]
      by_cases hi : i = n
      · subst hi
        simp [ih]
      · rw [Function.update_of_ne hi, ih]
        by_cases hlt : i < n
        · rw [if_pos hlt, if_pos (by omega)]
        · rw [if_neg hlt, if_neg (by omega)]

/-- Emptying a number of columns of the bottom row. -/
theorem emptyRow_memory (s : Screen) (n i : ℕ) :
    ((List.range n).foldl
      (fun s i => (s.put (160 * 24 + i * 2) 0x20).put (160 * 24 + i * 2 + 1) 0x07) s).memory i =
      if 3840 ≤ i ∧ i < 3840 + 2 * n then (if i % 2 = 0 then 0x20 else 0x07) else s.memory i := by
  induction n generalizing i with
  | zero => rw [if_neg (by omega)]; rfl
  | succ n ih =>
      rw [List.range_succ, List.foldl_append, List.foldl_cons, List.foldl_nil, Screen.put_memory,
        Screen.put_memory]
      by_cases h1 : i = 160 * 24 + n * 2 + 1
      · rw [h1, Function.update_self, if_pos (by omega), if_neg (by omega)]
      by_cases h0 : i = 160 * 24 + n * 2
      · rw [h0, Function.update_of_ne (by omega), Function.update_self, if_pos (by omega),
          if_pos (by omega)]
      · rw [Function.update_of_ne h1, Function.update_of_ne h0, ih]
        have hiff : (3840 ≤ i ∧ i < 3840 + 2 * (n + 1)) ↔ 3840 ≤ i ∧ i < 3840 + 2 * n := by omega
        simp only [hiff]

/-- The copy loop does not move the offset. -/
theorem foldl_copy_off (l : List ℕ) (s : Screen) :
    (l.foldl (fun s i => s.copy i (i + 160)) s).off = s.off := by
  induction l generalizing s with
  | nil => rfl
  | cons i l ih => rw [List.foldl_cons, ih, Screen.copy_off]

theorem foldl_put_off (l : List ℕ) (s : Screen) :
    (l.foldl (fun s i => (s.put (160 * 24 + i * 2) 0x20).put (160 * 24 + i * 2 + 1) 0x07) s).off =
      s.off := by
  induction l generalizing s with
  | nil => rfl
  | cons i l ih => rw [List.foldl_cons, ih, Screen.put_off, Screen.put_off]

/-- The copy loop stays inside if its rounds do. -/
theorem foldl_copy_touched {l : List ℕ} (hl : ∀ i ∈ l, i < 3840)
    (h : ∀ k ∈ s.touched, k < screenSize) :
    ∀ k ∈ (l.foldl (fun s i => s.copy i (i + 160)) s).touched, k < screenSize := by
  refine List.foldlRecOn (motive := fun s : Screen => ∀ k ∈ s.touched, k < screenSize) l _ h
    fun s h i hi => ?_
  have hlt := hl i hi
  rw [Screen.copy_touched, List.forall_mem_cons, List.forall_mem_cons, screenSize]
  exact ⟨by omega, by omega, h⟩

theorem foldl_put_touched {l : List ℕ} (hl : ∀ i ∈ l, i < 80)
    (h : ∀ k ∈ s.touched, k < screenSize) :
    ∀ k ∈ (l.foldl (fun s i => (s.put (160 * 24 + i * 2) 0x20).put (160 * 24 + i * 2 + 1) 0x07)
      s).touched, k < screenSize := by
  refine List.foldlRecOn (motive := fun s : Screen => ∀ k ∈ s.touched, k < screenSize) l _ h
    fun s h i hi => ?_
  have hlt := hl i hi
  rw [Screen.put_touched, Screen.put_touched, List.forall_mem_cons, List.forall_mem_cons,
    screenSize]
  exact ⟨by omega, by omega, h⟩

/-- **Scrolling** moves every row up by one and empties the bottom row. -/
theorem scroll_memory (h : s.off ≥ 160 * 25) (i : ℕ) :
    (scroll s).memory i =
      if i < 3840 then s.memory (i + 160)
      else if i < screenSize then (if i % 2 = 0 then 0x20 else 0x07)
      else s.memory i := by
  rw [scroll, if_pos h, Screen.move_memory, emptyRow, emptyRow_memory, scrollRows,
    scrollRows_memory, screenSize]
  by_cases h1 : i < 3840
  · rw [if_neg (by omega), if_pos h1, if_pos h1]
  · rw [if_neg h1, if_neg h1]
    by_cases h2 : i < 4000
    · rw [if_pos (by omega), if_pos h2]
    · rw [if_neg (by omega), if_neg h2]

/-- What the end of the loop body does to the offset. -/
theorem scroll_off (s : Screen) :
    (scroll s).off = if s.off ≥ 160 * 25 then s.off - 160 else s.off := by
  rw [scroll]
  split
  · rw [Screen.move_off, emptyRow, foldl_put_off, scrollRows, foldl_copy_off]
  · rfl

/-- Scrolling stays inside. -/
theorem scroll_touched (h : ∀ k ∈ s.touched, k < screenSize) :
    ∀ k ∈ (scroll s).touched, k < screenSize := by
  rw [scroll]
  split
  · rw [Screen.move_touched]
    exact foldl_put_touched (fun i hi => List.mem_range.mp hi)
      (foldl_copy_touched (fun i hi => List.mem_range.mp hi) h)
  · exact h

end Scroll

/-! ## Staying on the screen -/

/-- The offset is that of a character, and all accesses were inside. -/
structure Screen.OnScreen (s : Screen) : Prop where
  even : s.off.toNat % 2 = 0
  off : s.off.toNat < screenSize
  touched : ∀ k ∈ s.touched, k < screenSize

/-- The next character does not go back from the start of the screen. -/
def StaysBehindStart (s : Screen) (c : UInt8) : Prop := ¬ (c = 8 ∧ s.off = 0)

section OnScreen
variable {s : Screen} {c : UInt8}

/-- The offset is that of a character on the screen or one row behind it, and all accesses were
inside. -/
structure Screen.NearScreen (s : Screen) : Prop where
  even : s.off.toNat % 2 = 0
  off : s.off.toNat < screenSize + 160
  touched : ∀ k ∈ s.touched, k < screenSize

/-- The end of the loop body brings the offset back. -/
theorem scroll_onScreen (h : s.NearScreen) : (scroll s).OnScreen := by
  obtain ⟨heven, hoff, htouched⟩ := h
  have hsize : (160 * 25 : UInt32).toNat = 4000 := rfl
  have hrow : (160 : UInt32).toNat = 160 := rfl
  rw [screenSize] at hoff
  have hval : (scroll s).off.toNat = if 4000 ≤ s.off.toNat then s.off.toNat - 160
      else s.off.toNat := by
    rw [scroll_off]
    simp only [ge_iff_le, UInt32.le_iff_toNat_le, hsize]
    split
    · rw [UInt32.toNat_sub_of_le _ _ (by rw [UInt32.le_iff_toNat_le, hrow]; omega), hrow]
    · rfl
  refine ⟨?_, ?_, scroll_touched htouched⟩
  · rw [hval]
    split <;> omega
  · rw [hval, screenSize]
    split <;> omega

/-- An offset that moves forward by a row at most. -/
theorem nearScreen_move (hs : s.OnScreen) {off : UInt32} (heven : off.toNat % 2 = 0)
    (hoff : off.toNat < screenSize + 160) : (s.move off).NearScreen :=
  ⟨heven, hoff, hs.touched⟩

/-- The offset of the start of the row. -/
theorem toNat_rowStart (hoff : s.off.toNat < screenSize) :
    (s.off / 160 * 160).toNat = s.off.toNat / 160 * 160 := by
  have h160 : (160 : UInt32).toNat = 160 := rfl
  rw [screenSize] at hoff
  rw [UInt32.toNat_mul, UInt32.toNat_div, h160]
  exact Nat.mod_eq_of_lt (by omega)

theorem nearScreen_newline (hs : s.OnScreen) :
    (s.move ((s.off / 160) * 160 + 160)).NearScreen := by
  have hoff := hs.off
  have hsize : screenSize = 4000 := rfl
  have h160 : (160 : UInt32).toNat = 160 := rfl
  have hrow := toNat_rowStart hoff
  have hval : (s.off / 160 * 160 + 160).toNat = s.off.toNat / 160 * 160 + 160 := by
    rw [Lib.toNat_add_of_lt (by omega), hrow, h160]
  apply nearScreen_move hs
  · rw [hval]
    omega
  · rw [hval]
    omega

theorem nearScreen_return (hs : s.OnScreen) : (s.move ((s.off / 160) * 160)).NearScreen := by
  have hoff := hs.off
  apply nearScreen_move hs
  · rw [toNat_rowStart hoff]
    omega
  · rw [toNat_rowStart hoff]
    omega

theorem nearScreen_tab (hs : s.OnScreen) : (s.move (s.off + 8)).NearScreen := by
  have heven := hs.even
  have hoff := hs.off
  have hsize : screenSize = 4000 := rfl
  have h8 : (8 : UInt32).toNat = 8 := rfl
  have hval : (s.off + 8).toNat = s.off.toNat + 8 := Lib.toNat_add_of_lt (by omega)
  apply nearScreen_move hs
  · rw [hval]
    omega
  · rw [hval]
    omega

/-- A backspace behind the start of the screen. -/
theorem nearScreen_backspace (hs : s.OnScreen) (hne : s.off ≠ 0) :
    ((s.move (s.off - 2)).put (s.off - 2).toNat 0x20).NearScreen := by
  obtain ⟨heven, hoff, htouched⟩ := hs
  have h2 : (2 : UInt32).toNat = 2 := rfl
  have hpos : s.off.toNat ≠ 0 := fun h => hne (UInt32.toNat_inj.mp h)
  have hval : (s.off - 2).toNat = s.off.toNat - 2 := by
    rw [UInt32.toNat_sub_of_le _ _ (by rw [UInt32.le_iff_toNat_le, h2]; omega), h2]
  refine ⟨?_, ?_, ?_⟩
  · rw [Screen.put_off, Screen.move_off, hval]
    omega
  · rw [Screen.put_off, Screen.move_off, hval]
    omega
  · rw [Screen.put_touched, Screen.move_touched, hval, List.forall_mem_cons]
    exact ⟨by omega, htouched⟩

/-- At the start of the screen the offset goes below 0, and scrolling does not bring it back. -/
theorem not_onScreen_backspace (hzero : s.off = 0) :
    ¬ (scroll ((s.move (s.off - 2)).put (s.off - 2).toNat 0x20)).OnScreen := by
  intro h
  have hback := h.off
  rw [scroll_off, Screen.put_off, Screen.move_off, hzero] at hback
  exact absurd hback (by decide)

/-- A normal character and its attribute. -/
theorem nearScreen_normal (hs : s.OnScreen) :
    ((((s.put s.off.toNat c).move (s.off + 1)).put (s.off + 1).toNat 0x07).move
      (s.off + 1 + 1)).NearScreen := by
  obtain ⟨heven, hoff, htouched⟩ := hs
  have hsize : screenSize = 4000 := rfl
  have hval : (s.off + 1).toNat = s.off.toNat + 1 := Lib.toNat_succ (by omega)
  have hval' : (s.off + 1 + 1).toNat = s.off.toNat + 2 := by
    rw [Lib.toNat_succ (by omega), hval]
  refine ⟨?_, ?_, ?_⟩
  · rw [Screen.move_off, hval']
    omega
  · rw [Screen.move_off, hval']
    omega
  · simp only [Screen.move_touched, Screen.put_touched, hval, List.forall_mem_cons]
    exact ⟨by omega, by omega, htouched⟩

/-- **One character** keeps the output on the screen, unless it is a backspace at the start. -/
theorem writeChar_onScreen_iff (hs : s.OnScreen) :
    (writeChar c s).OnScreen ↔ StaysBehindStart s c := by
  rw [writeChar, putChar, StaysBehindStart]
  by_cases hnl : c = 0x0a
  · rw [if_pos hnl]
    exact iff_of_true (scroll_onScreen (nearScreen_newline hs)) (by simp [hnl])
  by_cases hcr : c = 0x0d
  · rw [if_neg hnl, if_pos hcr]
    exact iff_of_true (scroll_onScreen (nearScreen_return hs)) (by simp [hcr])
  by_cases htab : c = 0x09
  · rw [if_neg hnl, if_neg hcr, if_pos htab]
    exact iff_of_true (scroll_onScreen (nearScreen_tab hs)) (by simp [htab])
  rw [if_neg hnl, if_neg hcr, if_neg htab]
  by_cases hbs : c = 8
  · rw [if_pos hbs]
    simp only [hbs, true_and]
    by_cases hzero : s.off = 0
    · exact iff_of_false (not_onScreen_backspace hzero) fun h => h hzero
    · exact iff_of_true (scroll_onScreen (nearScreen_backspace hs hzero)) hzero
  · rw [if_neg hbs]
    exact iff_of_true (scroll_onScreen (nearScreen_normal hs)) fun h => hbs h.1

end OnScreen

/-! ## The cursor -/

/-- The cursor is on the screen. -/
def Cursor.Valid (c : Cursor) : Prop := c.offset.toNat < screenSize

instance (c : Cursor) : Decidable c.Valid := inferInstanceAs (Decidable (_ < _))

section Cursor
variable {off : UInt32}

theorem Cursor.offset_toNat (c : Cursor) :
    c.offset.toNat = 2 * (256 * c.high.toNat + c.low.toNat) := by
  have hhigh := c.high.toNat_lt
  have hlow := c.low.toNat_lt
  have h8 : (8 : UInt32).toNat % 32 = 8 := rfl
  have h1 : (1 : UInt32).toNat % 32 = 1 := rfl
  simp only [Cursor.offset, UInt32.toNat_shiftLeft, UInt32.toNat_add, UInt8.toNat_toUInt32, h8, h1,
    Nat.shiftLeft_eq]
  omega

/-- The registers give an offset on the screen back. -/
theorem Cursor.offset_ofOffset (heven : off.toNat % 2 = 0) (hlt : off.toNat < screenSize) :
    (Cursor.ofOffset off).offset = off := by
  have hand : ∀ x, x &&& 255 = x % 256 := fun x => Nat.and_two_pow_sub_one_eq_mod x 8
  have h8 : (8 : UInt32).toNat % 32 = 8 := rfl
  have h1 : (1 : UInt32).toNat % 32 = 1 := rfl
  have hff : (0x0ff : UInt32).toNat = 255 := rfl
  rw [screenSize] at hlt
  rw [← UInt32.toNat_inj, Cursor.offset_toNat]
  simp only [Cursor.ofOffset, UInt32.toNat_toUInt8, UInt32.toNat_shiftRight, UInt32.toNat_and,
    h8, h1, hff, hand, Nat.shiftRight_eq_div_pow]
  omega

end Cursor

/-- **The strings that stay on the screen**, from a cursor on it: after every character the offset
is a position and all accesses were inside, exactly if no backspace comes at offset 0. Then the
next call finds the cursor where this one left it. -/
theorem consoleWrite_onScreen_iff {c : Cursor} (hc : c.Valid) (memory : ℕ → UInt8)
    (string : CharStr) :
    ((∀ pre, pre <+: string → (consoleMachine.exec pre (startScreen memory c)).OnScreen) ↔
      consoleMachine.Admits StaysBehindStart string (startScreen memory c)) ∧
    (consoleMachine.Admits StaysBehindStart string (startScreen memory c) →
      (consoleWrite string memory c).2.Valid ∧
        (consoleWrite string memory c).2.offset = (consoleWrite string memory c).1.off) := by
  have hstart : (startScreen memory c).OnScreen := by
    refine ⟨?_, hc, fun _ hk => absurd hk List.not_mem_nil⟩
    rw [startScreen, Cursor.offset_toNat]
    omega
  have hstep : ∀ (s : Screen) (c : UInt8), True → s.OnScreen →
      ((consoleMachine.step c s).2.OnScreen ↔ StaysBehindStart s c) :=
    fun _ _ _ hs => writeChar_onScreen_iff hs
  have hiff : (∀ pre, pre <+: string →
        (consoleMachine.exec pre (startScreen memory c)).OnScreen) ↔
      consoleMachine.Admits StaysBehindStart string (startScreen memory c) :=
    Lib.Machine.forall_exec_iff (fun _ _ h => h) hstep string _ trivial hstart
  refine ⟨hiff, fun hguard => ?_⟩
  have hend := hiff.mpr hguard string (List.prefix_refl string)
  have hoffset := Cursor.offset_ofOffset hend.even hend.off
  refine ⟨?_, hoffset⟩
  rw [Cursor.Valid, consoleWrite, hoffset]
  exact hend.off

/-- The cursor in the first column of the second row. -/
def secondRow : Cursor where
  high := 0
  low := 80

theorem consoleWrite_onScreen_secondRow :
    ((∀ pre, pre <+: [8, 0x0a, 0x61] →
        (consoleMachine.exec pre (startScreen (fun _ => 0x20) secondRow)).OnScreen) ↔
      consoleMachine.Admits StaysBehindStart [8, 0x0a, 0x61]
        (startScreen (fun _ => 0x20) secondRow)) ∧
    (consoleMachine.Admits StaysBehindStart [8, 0x0a, 0x61]
        (startScreen (fun _ => 0x20) secondRow) →
      (consoleWrite [8, 0x0a, 0x61] (fun _ => 0x20) secondRow).2.Valid ∧
        (consoleWrite [8, 0x0a, 0x61] (fun _ => 0x20) secondRow).2.offset =
          (consoleWrite [8, 0x0a, 0x61] (fun _ => 0x20) secondRow).1.off) :=
  consoleWrite_onScreen_iff (by decide) (fun _ => 0x20) [8, 0x0a, 0x61]

/-- The cursor in the upper left corner. -/
def upperLeft : Cursor where
  high := 0
  low := 0

/-- **A backspace in the upper left corner** leaves the screen. -/
theorem consoleWrite_backspace :
    upperLeft.Valid ∧
      ¬ ∀ pre, pre <+: [8] →
        (consoleMachine.exec pre (startScreen (fun _ => 0x20) upperLeft)).OnScreen := by
  have hstart : (startScreen (fun _ => 0x20) upperLeft).OnScreen :=
    ⟨by decide, by decide, fun _ hk => absurd hk List.not_mem_nil⟩
  refine ⟨by decide, fun h => ?_⟩
  have hwrite : (writeChar 8 (startScreen (fun _ => 0x20) upperLeft)).OnScreen :=
    h [8] (List.prefix_refl _)
  exact (writeChar_onScreen_iff hstart).mp hwrite ⟨rfl, by decide⟩

end OxKernel.Platform
