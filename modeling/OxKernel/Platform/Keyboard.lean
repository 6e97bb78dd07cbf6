import OxKernel.Lib.Machine
import Mathlib.Logic.Function.Basic

/-!
# The keyboard

A model of `chara/keyboard.c`: the handler of the keyboard interrupt, which keeps track of the
modifiers and puts characters into a buffer, and `keyboard_getch`, which takes them out.

An access outside of `scan2ascii_table` or `keyboard_buffer` is noted.

## Main definitions

* `Keyboard` — the static variables.
* `scan2asciiTable` — the characters of the keys.
* `keyboardHandler`, `keyboardGetch` — the calls.
-/
namespace OxKernel.Platform

/-- `LED_NUM_LOCK`, `LED_SCROLL_LOCK` and `LED_CAPS_LOCK`. -/
def ledNumLock : UInt8 := 2
def ledScrollLock : UInt8 := 1
def ledCapsLock : UInt8 := 4

/-- `CK_SHIFT`, `CK_ALT` and `CK_CTRL`. -/
def ckShift : UInt8 := 1
def ckAlt : UInt8 := 2
def ckCtrl : UInt8 := 4

/-- The static variables. -/
structure Keyboard where
  ledStatus : UInt8
  keyboardBuffer : ℕ → UInt8
  keyboardBufferSize : UInt8
  controlKeys : UInt8
  /-- An entry outside of the table or the buffer has been used. -/
  fault : Bool

/-- The state before the first key. -/
def Keyboard.zero : Keyboard := ⟨0, fun _ => 0, 0, 0, false⟩

/-- The number of entries of `keyboard_buffer`. -/
def keyboardBufferLen : ℕ := 255

/-- `scan2ascii_table`: a row for each key, with the columns ASCII, Shift, Ctrl, Alt, Num, Caps,
Shift Caps and Shift Num. -/
def scan2asciiTable : List (List UInt32) :=
  [[0, 0, 0, 0, 0, 0, 0, 0],
   [0x1B, 0x1B, 0x1B, 0, 0x1B, 0x1B, 0x1B, 0x1B],
   [0x31, 0x21, 0, 0x7800, 0x31, 0x31, 0x21, 0x21],
   [0x32, 0x40, 0x0300, 0x7900, 0x32, 0x32, 0x40, 0x40],
   [0x33, 0x23, 0, 0x7A00, 0x33, 0x33, 0x23, 0x23],
   [0x34, 0x24, 0, 0x7B00, 0x34, 0x34, 0x24, 0x24],
   [0x35, 0x25, 0, 0x7C00, 0x35, 0x35, 0x25, 0x25],
   [0x36, 0x5E, 0x1E, 0x7D00, 0x36, 0x36, 0x5E, 0x5E],
   [0x37, 0x26, 0, 0x7E00, 0x37, 0x37, 0x26, 0x26],
   [0x38, 0x2A, 0, 0x7F00, 0x38, 0x38, 0x2A, 0x2A],
   [0x39, 0x28, 0, 0x8000, 0x39, 0x39, 0x28, 0x28],
   [0x30, 0x29, 0, 0x8100, 0x30, 0x30, 0x29, 0x29],
   [0x2D, 0x5F, 0x1F, 0x8200, 0x2D, 0x2D, 0x5F, 0x5F],
   [0x3D, 0x2B, 0, 0x8300, 0x3D, 0x3D, 0x2B, 0x2B],
   [0x08, 0x08, 0x7F, 0, 0x08, 0x08, 0x08, 0x08],
   [0x09, 0x0F00, 0, 0, 0x09, 0x09, 0x0F00, 0x0F00],
   [0x71, 0x51, 0x11, 0x1000, 0x71, 0x51, 0x71, 0x51],
   [0x77, 0x57, 0x17, 0x1100, 0x77, 0x57, 0x77, 0x57],
   [0x65, 0x45, 0x05, 0x1200, 0x65, 0x45, 0x65, 0x45],
   [0x72, 0x52, 0x12, 0x1300, 0x72, 0x52, 0x72, 0x52],
   [0x74, 0x54, 0x14, 0x1400, 0x74, 0x54, 0x74, 0x54],
   [0x79, 0x59, 0x19, 0x1500, 0x79, 0x59, 0x79, 0x59],
   [0x75, 0x55, 0x15, 0x1600, 0x75, 0x55, 0x75, 0x55],
   [0x69, 0x49, 0x09, 0x1700, 0x69, 0x49, 0x69, 0x49],
   [0x6F, 0x4F, 0x0F, 0x1800, 0x6F, 0x4F, 0x6F, 0x4F],
   [0x70, 0x50, 0x10, 0x1900, 0x70, 0x50, 0x70, 0x50],
   [0x5B, 0x7B, 0x1B, 0, 0x5B, 0x5B, 0x7B, 0x7B],
   [0x5D, 0x7D, 0x1D, 0, 0x5D, 0x5D, 0x7D, 0x7D],
   [0x0A, 0x0A, 0x0D, 0, 0x0A, 0x0A, 0x0D, 0x0D],
   [0, 0, 0, 0, 0, 0, 0, 0],
   [0x61, 0x41, 0x01, 0x1E00, 0x61, 0x41, 0x61, 0x41],
   [0x73, 0x53, 0x13, 0x1F00, 0x73, 0x53, 0x73, 0x53],
   [0x64, 0x44, 0x04, 0x2000, 0x64, 0x44, 0x64, 0x44],
   [0x66, 0x46, 0x06, 0x2100, 0x66, 0x46, 0x66, 0x46],
   [0x67, 0x47, 0x07, 0x2200, 0x67, 0x47, 0x67, 0x47],
   [0x68, 0x48, 0x08, 0x2300, 0x68, 0x48, 0x68, 0x48],
   [0x6A, 0x4A, 0x0A, 0x2400, 0x6A, 0x4A, 0x6A, 0x4A],
   [0x6B, 0x4B, 0x0B, 0x3500, 0x6B, 0x4B, 0x6B, 0x4B],
   [0x6C, 0x4C, 0x0C, 0x2600, 0x6C, 0x4C, 0x6C, 0x4C],
   [0x3B, 0x3A, 0, 0, 0x3B, 0x3B, 0x3A, 0x3A],
   [0x27, 0x22, 0, 0, 0x27, 0x27, 0x22, 0x22],
   [0x60, 0x7E, 0, 0, 0x60, 0x60, 0x7E, 0x7E],
   [0x2A, 0, 0, 0, 0, 0, 0, 0],
   [0x5C, 0x7C, 0x1C, 0, 0x5C, 0x5C, 0x7C, 0x7C],
   [0x7A, 0x5A, 0x1A, 0x2C00, 0x7A, 0x5A, 0x7A, 0x5A],
   [0x78, 0x58, 0x18, 0x2D00, 0x78, 0x58, 0x78, 0x58],
   [0x63, 0x43, 0x03, 0x2E00, 0x63, 0x43, 0x63, 0x43],
   [0x76, 0x56, 0x16, 0x2F00, 0x76, 0x56, 0x76, 0x56],
   [0x62, 0x42, 0x02, 0x3000, 0x62, 0x42, 0x62, 0x42],
   [0x6E, 0x4E, 0x0E, 0x3100, 0x6E, 0x4E, 0x6E, 0x4E],
   [0x6D, 0x4D, 0x0D, 0x3200, 0x6D, 0x4D, 0x6D, 0x4D],
   [0x2C, 0x3C, 0, 0, 0x2C, 0x2C, 0x3C, 0x3C],
   [0x2E, 0x3E, 0, 0, 0x2E, 0x2E, 0x3E, 0x3E],
   [0x2F, 0x3F, 0, 0, 0x2F, 0x2F, 0x3F, 0x3F],
   [0, 0, 0, 0, 0, 0, 0, 0],
   [0, 0, 0, 0, 0, 0, 0, 0],
   [0, 0, 0, 0, 0, 0, 0, 0],
   [0x20, 0x20, 0x20, 0, 0x20, 0x20, 0x20, 0x20],
   [0, 0, 0, 0, 0, 0, 0, 0],
   [0x3B00, 0x5400, 0x5E00, 0x6800, 0x3B00, 0x3B00, 0x5400, 0x5400],
   [0x3C00, 0x5500, 0x5F00, 0x6900, 0x3C00, 0x3C00, 0x5500, 0x5500],
   [0x3D00, 0x5600, 0x6000, 0x6A00, 0x3D00, 0x3D00, 0x5600, 0x5600],
   [0x3E00, 0x5700, 0x6100, 0x6B00, 0x3E00, 0x3E00, 0x5700, 0x5700],
   [0x3F00, 0x5800, 0x6200, 0x6C00, 0x3F00, 0x3F00, 0x5800, 0x5800],
   [0x4000, 0x5900, 0x6300, 0x6D00, 0x4000, 0x4000, 0x5900, 0x5900],
   [0x4100, 0x5A00, 0x6400, 0x6E00, 0x4100, 0x4100, 0x5A00, 0x5A00],
   [0x4200, 0x5B00, 0x6500, 0x6F00, 0x4200, 0x4200, 0x5B00, 0x5B00],
   [0x4300, 0x5C00, 0x6600, 0x7000, 0x4300, 0x4300, 0x5C00, 0x5C00],
   [0x4400, 0x5D00, 0x6700, 0x7100, 0x4400, 0x4400, 0x5D00, 0x5D00],
   [0, 0, 0, 0, 0, 0, 0, 0],
   [0, 0, 0, 0, 0, 0, 0, 0],
   [0x4700, 0x37, 0x7700, 0, 0x37, 0x4700, 0x37, 0x4700],
   [0x4800, 0x38, 0, 0, 0x38, 0x4800, 0x38, 0x4800],
   [0x4900, 0x39, 0x8400, 0, 0x39, 0x4900, 0x39, 0x4900],
   [0x2D, 0x2D, 0, 0, 0x2D, 0x2D, 0x2D, 0x2D],
   [0x4B00, 0x34, 0x7300, 0, 0x34, 0x4B00, 0x34, 0x4B00],
   [0x4C00, 0x35, 0, 0, 0x35, 0x4C00, 0x35, 0x4C00],
   [0x4D00, 0x36, 0x7400, 0, 0x36, 0x4D00, 0x36, 0x4D00],
   [0x2B, 0x2B, 0, 0, 0x2B, 0x2B, 0x2B, 0x2B],
   [0x4F00, 0x31, 0x7500, 0, 0x31, 0x4F00, 0x31, 0x4F00],
   [0x5000, 0x32, 0, 0, 0x32, 0x5000, 0x32, 0x5000],
   [0x5100, 0x33, 0x7600, 0, 0x33, 0x5100, 0x33, 0x5100],
   [0x5200, 0x30, 0, 0, 0x30, 0x5200, 0x30, 0x5200],
   [0x5300, 0x2E, 0, 0, 0x2E, 0x5300, 0x2E, 0x5300]]

/-- An entry of the table, if there is one. -/
def tableEntry (key : UInt8) (column : ℕ) : Option UInt32 :=
  (scan2asciiTable[key.toNat]?).bind fun row => row[column]?

/-! ## The handler -/

namespace Keyboard
variable (s : Keyboard) (key : UInt8)

/-- Control, Alt and Del: the handler resets the machine and does not return. -/
def Resets : Prop := s.controlKeys &&& (ckCtrl + ckAlt) ≠ 0 ∧ key = 0x53

instance : Decidable (s.Resets key) := inferInstanceAs (Decidable (_ ∧ _))

/-- `led_status` after the keys that switch a LED. -/
def switchLeds (led : UInt8) : UInt8 :=
  let led := if key = 0x3A then led ^^^ ledCapsLock else led
  let led := if key = 0x45 then led ^^^ ledNumLock else led
  if key = 0x46 then led ^^^ ledScrollLock else led

/-- `control_keys` after the control keys that are pressed or released. -/
def pressControl (control : UInt8) : UInt8 :=
  let control := if key = 0x1D ∧ control &&& ckCtrl = 0 then control ||| ckCtrl else control
  let control := if key = 0x80 + 0x1D then control &&& (0xFF - ckCtrl) else control
  let control :=
    if (key = 0x2A ∨ key = 0x36) ∧ control &&& ckShift = 0 then control ||| ckShift else control
  let control :=
    if key = 0x80 + 0x2A ∨ key = 0x80 + 0x36 then control &&& (0xFF - ckShift) else control
  let control := if key = 0x38 ∧ control &&& ckAlt = 0 then control ||| ckAlt else control
  if key = 0x80 + 0x38 then control &&& (0xFF - ckAlt) else control

/-- The column of the table; Shift with Num is tested after Shift alone. -/
def column (control led : UInt8) : Option ℕ :=
  if control &&& ckShift ≠ 0 ∧ led &&& ledCapsLock ≠ 0 then some 6
  else if control &&& ckShift ≠ 0 then some 1
  else if control &&& ckCtrl ≠ 0 then some 2
  else if control &&& ckAlt ≠ 0 then some 3
  else if control &&& ckShift ≠ 0 ∧ led &&& ledNumLock ≠ 0 then some 7
  else if led &&& ledCapsLock ≠ 0 then some 5
  else if led &&& ledNumLock ≠ 0 then some 4
  else if control = 0 then some 0
  else none

/-- Put a character into the buffer, if it is one. -/
def enqueue (keyAscii : UInt32) : Keyboard :=
  if keyAscii ≠ 0 ∧ keyAscii ≤ 0xFF then
    { s with
      keyboardBuffer :=
        Function.update s.keyboardBuffer s.keyboardBufferSize.toNat keyAscii.toUInt8
      keyboardBufferSize := s.keyboardBufferSize + 1
      fault := s.fault || decide (keyboardBufferLen ≤ s.keyboardBufferSize.toNat) }
  else s

/-- The lookup in the table, and the rest of the handler. -/
def translateKey : Keyboard :=
  match column s.controlKeys s.ledStatus with
  | none => s.enqueue 0
  | some c =>
    match tableEntry key c with
    | none => { s with fault := true }
    | some keyAscii => s.enqueue keyAscii

end Keyboard

/-- `keyboard_handler`, for the scan code `key`; nothing if the machine is reset. -/
def keyboardHandler (key : UInt8) (s : Keyboard) : Option Keyboard :=
  if s.Resets key then none
  else
    some ({ s with
      ledStatus := Keyboard.switchLeds key s.ledStatus
      controlKeys := Keyboard.pressControl key s.controlKeys }.translateKey key)

/-- `keyboard_getch`; nothing as long as there is no character. -/
def keyboardGetch (s : Keyboard) : Option (UInt8 × Keyboard) :=
  if s.keyboardBufferSize = 0 then none
  else
    some (s.keyboardBuffer 0,
      { s with
        keyboardBufferSize := s.keyboardBufferSize - 1
        keyboardBuffer :=
          (List.range 254).foldl (fun b i => Function.update b i (b (i + 1))) s.keyboardBuffer })

end OxKernel.Platform
