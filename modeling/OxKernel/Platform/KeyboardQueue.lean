import OxKernel.Platform.Keyboard

/-!
# The queue of the keyboard

What a user types, against what `keyboard_getch` returns: the modifiers as they follow from the
keys, the characters of the keys that are pressed, and a queue of them that drops the newest when
it is full. The table has no row for most of the scan codes, among them those of the keys that are
released, and the counter of the buffer wraps; the runs without these are those in which the driver
is right.

## Main definitions

* `Modifiers`, `Modifiers.translate` — the modifiers, and the character of a key.
* `Typing` — what has been typed and returned.
* `KeyboardOk` — the driver is right.
* `keyboard_ok_iff` — the runs in which it is right.
-/
namespace OxKernel.Platform

open Lib (Machine)

/-! ## What is typed -/

/-- The keys that are held, and the locks that are on. -/
structure Modifiers where
  shift : Bool
  ctrl : Bool
  alt : Bool
  caps : Bool
  num : Bool
  scroll : Bool
  deriving DecidableEq

namespace Modifiers
variable (m : Modifiers) (key : UInt8)

/-- The modifiers after a key. -/
def after : Modifiers where
  shift :=
    if key = 0x2A ∨ key = 0x36 then true else if key = 0xAA ∨ key = 0xB6 then false else m.shift
  ctrl := if key = 0x1D then true else if key = 0x9D then false else m.ctrl
  alt := if key = 0x38 then true else if key = 0xB8 then false else m.alt
  caps := if key = 0x3A then !m.caps else m.caps
  num := if key = 0x45 then !m.num else m.num
  scroll := if key = 0x46 then !m.scroll else m.scroll

/-- The column of the table that they select. -/
def column : ℕ :=
  if m.shift then if m.caps then 6 else 1
  else if m.ctrl then 2
  else if m.alt then 3
  else if m.caps then 5
  else if m.num then 4
  else 0

/-- The character of a key: the single byte in the table, for a key that is pressed. -/
def translate : Option UInt8 :=
  if key < 0x80 then
    (tableEntry key m.column).bind fun a => if a ≠ 0 ∧ a ≤ 0xFF then some a.toUInt8 else none
  else none

/-- `control_keys` and `led_status` for the modifiers. -/
def controlKeys : UInt8 :=
  (if m.shift then ckShift else 0) ||| (if m.alt then ckAlt else 0) ||| if m.ctrl then ckCtrl else 0
def ledStatus : UInt8 :=
  (if m.caps then ledCapsLock else 0) ||| (if m.num then ledNumLock else 0) |||
    if m.scroll then ledScrollLock else 0

variable {m key}

theorem column_eq : Keyboard.column m.controlKeys m.ledStatus = some m.column := by
  obtain ⟨shift, ctrl, alt, caps, num, scroll⟩ := m
  revert shift ctrl alt caps num scroll
  decide

theorem switchLeds_eq : Keyboard.switchLeds key m.ledStatus = (m.after key).ledStatus := by
  obtain ⟨shift, ctrl, alt, caps, num, scroll⟩ := m
  by_cases hcaps : key = 0x3A
  · subst hcaps
    revert shift ctrl alt caps num scroll
    decide
  by_cases hnum : key = 0x45
  · subst hnum
    revert shift ctrl alt caps num scroll
    decide
  by_cases hscroll : key = 0x46
  · subst hscroll
    revert shift ctrl alt caps num scroll
    decide
  simp [Keyboard.switchLeds, after, ledStatus, hcaps, hnum, hscroll]

/-- The scan codes of the control keys, pressed and released. -/
def controlCodes : List UInt8 := [0x1D, 0x9D, 0x2A, 0x36, 0xAA, 0xB6, 0x38, 0xB8]

theorem pressControl_eq : Keyboard.pressControl key m.controlKeys = (m.after key).controlKeys := by
  by_cases hkey : key ∈ controlCodes
  · obtain ⟨shift, ctrl, alt, caps, num, scroll⟩ := m
    simp only [controlCodes, List.mem_cons, List.not_mem_nil, or_false] at hkey
    rcases hkey with rfl | rfl | rfl | rfl | rfl | rfl | rfl | rfl <;>
      (revert shift ctrl alt caps num scroll; decide)
  · simp only [controlCodes, List.mem_cons, List.not_mem_nil, or_false, not_or] at hkey
    obtain ⟨h1, h2, h3, h4, h5, h6, h7, h8⟩ := hkey
    have hctrl : key ≠ 0x80 + 0x1D := h2
    have hleft : key ≠ 0x80 + 0x2A := h5
    have hright : key ≠ 0x80 + 0x36 := h6
    have halt : key ≠ 0x80 + 0x38 := h8
    simp only [Keyboard.pressControl, after, controlKeys, h1, h2, h3, h4, h5, h6, h7, h8, hctrl,
      hleft, hright, halt, false_and, or_false, if_false]

end Modifiers

/-! ## The buffer -/

namespace Keyboard
variable {s : Keyboard}

/-- The characters in the buffer. -/
def unread (s : Keyboard) : List UInt8 :=
  (List.range s.keyboardBufferSize.toNat).map s.keyboardBuffer

@[simp] theorem length_unread : s.unread.length = s.keyboardBufferSize.toNat := by simp [unread]

/-- The loop in `keyboard_getch` moves the characters up. -/
theorem foldl_moveUp (b : ℕ → UInt8) (n i : ℕ) :
    (List.range n).foldl (fun b i => Function.update b i (b (i + 1))) b i =
      if i < n then b (i + 1) else b i := by
  induction n generalizing i with
  | zero => rfl
  | succ n ih =>
      rw [List.range_succ, List.foldl_append, List.foldl_cons, List.foldl_nil]
      by_cases hi : i = n
      · subst hi
        rw [Function.update_self, ih, if_neg (by omega), if_pos (by omega)]
      · rw [Function.update_of_ne hi, ih]
        by_cases hlt : i < n
        · rw [if_pos hlt, if_pos (by omega)]
        · rw [if_neg hlt, if_neg (by omega)]

/-- **A character is taken out** at the front. -/
theorem getch_eq (h : s.keyboardBufferSize ≠ 0) : ∃ c t, keyboardGetch s = some (c, t) ∧
    s.unread = c :: t.unread ∧ t.controlKeys = s.controlKeys ∧ t.ledStatus = s.ledStatus ∧
      t.fault = s.fault := by
  have hlt := s.keyboardBufferSize.toNat_lt
  have hpos : s.keyboardBufferSize.toNat ≠ 0 := fun h0 => h (UInt8.toNat_inj.mp h0)
  have hone : (1 : UInt8) ≤ s.keyboardBufferSize := by
    rw [UInt8.le_iff_toNat_le, show (1 : UInt8).toNat = 1 from rfl]
    omega
  have hsize : (s.keyboardBufferSize - 1).toNat = s.keyboardBufferSize.toNat - 1 :=
    UInt8.toNat_sub_of_le _ _ hone
  refine ⟨_, _, if_neg h, ?_, rfl, rfl, rfl⟩
  obtain ⟨n, hn⟩ := Nat.exists_eq_succ_of_ne_zero hpos
  rw [unread, unread, hn, hsize, hn, List.range_succ_eq_map, List.map_cons, List.map_map]
  congr 1
  apply List.map_congr_left
  intro i hi
  have hi' : i < n := List.mem_range.mp hi
  simp only [foldl_moveUp]
  rw [if_pos (by omega)]
  rfl

/-- **A character is put in** at the end, if there is room. -/
theorem unread_enqueue {a : UInt32} (ha : a ≠ 0 ∧ a ≤ 0xFF)
    (hroom : s.keyboardBufferSize.toNat < 255) :
    (s.enqueue a).unread = s.unread ++ [a.toUInt8] := by
  have hsize : (s.keyboardBufferSize + 1).toNat = s.keyboardBufferSize.toNat + 1 := by
    rw [UInt8.toNat_add, show (1 : UInt8).toNat = 1 from rfl]
    exact Nat.mod_eq_of_lt (by omega)
  rw [enqueue, if_pos ha, unread, unread, hsize, List.range_succ, List.map_append]
  congr 1
  · apply List.map_congr_left
    intro i hi
    exact Function.update_of_ne (Nat.ne_of_lt (List.mem_range.mp hi)) _ _
  · simp

theorem enqueue_of_not {a : UInt32} (ha : ¬ (a ≠ 0 ∧ a ≤ 0xFF)) : s.enqueue a = s := if_neg ha

end Keyboard

/-! ## Runs -/

/-- The modifiers, the characters that have been accepted so far, and those that have been
returned. -/
structure Typing where
  modifiers : Modifiers
  typed : List UInt8
  returned : List UInt8

/-- A character is accepted as long as there are fewer of them unread than the buffer has room
for. -/
def Typing.press (t : Typing) (key : UInt8) : Typing :=
  let m := t.modifiers.after key
  match m.translate key with
  | none => { t with modifiers := m }
  | some c =>
    if t.typed.length - t.returned.length < keyboardBufferLen then
      { t with modifiers := m, typed := t.typed ++ [c] }
    else { t with modifiers := m }

/-- The state of a run. -/
structure KeyboardRun where
  keyboard : Keyboard
  typing : Typing

/-- A scan code for the handler, or a call of `keyboard_getch`. -/
inductive KeyboardCall
  | handler (key : UInt8)
  | getch

/-- The calls; one that does not return leaves the state as it is. -/
def keyboardCalls : Machine KeyboardRun KeyboardCall (Option UInt8) where
  step
    | .handler key, s =>
      match keyboardHandler key s.keyboard with
      | none => (none, s)
      | some k => (none, ⟨k, s.typing.press key⟩)
    | .getch, s =>
      match keyboardGetch s.keyboard with
      | none => (none, s)
      | some r => (some r.1, ⟨r.2, { s.typing with returned := s.typing.returned ++ [r.1] }⟩)

/-- The state before the first key. -/
def KeyboardRun.zero : KeyboardRun :=
  ⟨.zero, ⟨⟨false, false, false, false, false, false⟩, [], []⟩⟩

/-- **The driver is right**: it has stayed inside the table and the buffer, and what has been
accepted has been returned or is still to be returned, in this order. -/
structure KeyboardOk (s : KeyboardRun) : Prop where
  inside : s.keyboard.fault = false
  queue : s.typing.typed = s.typing.returned ++ s.keyboard.unread

/-- The modifiers are what the keys say. -/
structure ModifiersOk (s : KeyboardRun) : Prop where
  control : s.keyboard.controlKeys = s.typing.modifiers.controlKeys
  led : s.keyboard.ledStatus = s.typing.modifiers.ledStatus

/-- **The condition for a call**: the scan code has a row in the table, and there is room in the
buffer if it is that of a character. A scan code that resets the machine is left out. -/
def InRange (s : KeyboardRun) : KeyboardCall → Prop
  | .handler key => s.keyboard.Resets key ∨ key < 84 ∧
      (((s.typing.modifiers.after key).translate key).isSome →
        s.keyboard.keyboardBufferSize ≠ 255)
  | .getch => True

section Runs
variable {s : KeyboardRun} {c : KeyboardCall}

theorem length_row {row : List UInt32} (h : row ∈ scan2asciiTable) : row.length = 8 := by
  have hall : (scan2asciiTable.all fun row => row.length == 8) = true := by decide
  exact beq_iff_eq.mp (List.all_eq_true.mp hall row h)

theorem column_lt (m : Modifiers) : m.column < 8 := by
  obtain ⟨shift, ctrl, alt, caps, num, scroll⟩ := m
  revert shift ctrl alt caps num scroll
  decide

/-- The rows of the table. -/
theorem tableEntry_of_lt {key : UInt8} (h : key < 84) (m : Modifiers) :
    ∃ a, tableEntry key m.column = some a := by
  have hlt : key.toNat < scan2asciiTable.length := UInt8.lt_iff_toNat_lt.mp h
  have hcol : m.column < (scan2asciiTable[key.toNat]).length := by
    rw [length_row (List.getElem_mem hlt)]
    exact column_lt m
  refine ⟨scan2asciiTable[key.toNat][m.column], ?_⟩
  rw [tableEntry, List.getElem?_eq_getElem hlt, Option.bind_some, List.getElem?_eq_getElem hcol]

theorem tableEntry_of_not_lt {key : UInt8} (h : ¬ key < 84) (column : ℕ) :
    tableEntry key column = none := by
  have hle : scan2asciiTable.length ≤ key.toNat := UInt8.le_iff_toNat_le.mp (UInt8.not_lt.mp h)
  rw [tableEntry, List.getElem?_eq_none hle, Option.bind_none]

/-- The handler, from the modifiers after the key. -/
theorem handler_eq (hm : ModifiersOk s) {key : UInt8} (hr : ¬ s.keyboard.Resets key) :
    ∃ k : Keyboard, k.controlKeys = (s.typing.modifiers.after key).controlKeys ∧
      k.ledStatus = (s.typing.modifiers.after key).ledStatus ∧
      k.keyboardBufferSize = s.keyboard.keyboardBufferSize ∧ k.unread = s.keyboard.unread ∧
      k.fault = s.keyboard.fault ∧
      keyboardHandler key s.keyboard = some (match tableEntry key
          (s.typing.modifiers.after key).column with
        | none => { k with fault := true }
        | some a => k.enqueue a) := by
  refine ⟨{ s.keyboard with
    ledStatus := Keyboard.switchLeds key s.keyboard.ledStatus
    controlKeys := Keyboard.pressControl key s.keyboard.controlKeys }, ?_, ?_, rfl, rfl, rfl, ?_⟩
  · rw [← Modifiers.pressControl_eq, hm.control]
  · rw [← Modifiers.switchLeds_eq, hm.led]
  · rw [keyboardHandler, if_neg hr, Keyboard.translateKey]
    cases h : tableEntry key (s.typing.modifiers.after key).column <;>
      simp [hm.control, hm.led, Modifiers.pressControl_eq, Modifiers.switchLeds_eq,
        Modifiers.column_eq, h]

@[simp] theorem controlKeys_enqueue {k : Keyboard} {a : UInt32} :
    (k.enqueue a).controlKeys = k.controlKeys := by
  rw [Keyboard.enqueue]
  split <;> rfl

@[simp] theorem ledStatus_enqueue {k : Keyboard} {a : UInt32} :
    (k.enqueue a).ledStatus = k.ledStatus := by
  rw [Keyboard.enqueue]
  split <;> rfl

@[simp] theorem modifiers_press {t : Typing} {key : UInt8} :
    (t.press key).modifiers = t.modifiers.after key := by
  simp only [Typing.press]
  split
  · rfl
  · split <;> rfl

/-- **The modifiers** follow the keys in every run. -/
theorem ModifiersOk.step (h : ModifiersOk s) : ModifiersOk (keyboardCalls.step c s).2 := by
  cases c with
  | handler key =>
      by_cases hr : s.keyboard.Resets key
      · have hnone : keyboardHandler key s.keyboard = none := if_pos hr
        simpa only [keyboardCalls, hnone] using h
      · obtain ⟨k, hcontrol, hled, -, -, -, hk⟩ := handler_eq h hr
        simp only [keyboardCalls, hk]
        constructor
        · rw [modifiers_press, ← hcontrol]
          cases tableEntry key (s.typing.modifiers.after key).column with
          | none => rfl
          | some a => exact controlKeys_enqueue
        · rw [modifiers_press, ← hled]
          cases tableEntry key (s.typing.modifiers.after key).column with
          | none => rfl
          | some a => exact ledStatus_enqueue
  | getch =>
      by_cases hsize : s.keyboard.keyboardBufferSize = 0
      · have hnone : keyboardGetch s.keyboard = none := if_pos hsize
        simpa only [keyboardCalls, hnone] using h
      · obtain ⟨c, t, hsome, -, hcontrol, hled, -⟩ := Keyboard.getch_eq hsize
        simp only [keyboardCalls, hsome]
        exact ⟨hcontrol.trans h.control, hled.trans h.led⟩

/-- What is unread has been accepted and not returned. -/
theorem KeyboardOk.length_sub (h : KeyboardOk s) :
    s.typing.typed.length - s.typing.returned.length = s.keyboard.keyboardBufferSize.toNat := by
  rw [h.queue, List.length_append, Keyboard.length_unread]
  omega

/-- **One call** keeps the driver right exactly under the condition. -/
theorem keyboardOk_step (hm : ModifiersOk s) (h : KeyboardOk s) :
    KeyboardOk (keyboardCalls.step c s).2 ↔ InRange s c := by
  cases c with
  | getch =>
      refine iff_of_true ?_ trivial
      by_cases hsize : s.keyboard.keyboardBufferSize = 0
      · have hnone : keyboardGetch s.keyboard = none := if_pos hsize
        simpa only [keyboardCalls, hnone] using h
      · obtain ⟨c, t, hsome, hunread, -, -, hfault⟩ := Keyboard.getch_eq hsize
        simp only [keyboardCalls, hsome]
        refine ⟨hfault.trans h.inside, ?_⟩
        rw [h.queue, hunread]
        simp
  | handler key =>
      by_cases hr : s.keyboard.Resets key
      · have hnone : keyboardHandler key s.keyboard = none := if_pos hr
        refine iff_of_true ?_ (.inl hr)
        simpa only [keyboardCalls, hnone] using h
      rw [InRange, or_iff_right hr]
      obtain ⟨k, -, -, hsize, hunread, hfault, hk⟩ := handler_eq hm hr
      simp only [keyboardCalls, hk]
      by_cases hkey : key < 84
      · obtain ⟨a, ha⟩ := tableEntry_of_lt hkey (s.typing.modifiers.after key)
        have hpress : key < 0x80 := UInt8.lt_trans hkey (by decide)
        rw [and_iff_right hkey, ha]
        by_cases hbyte : a ≠ 0 ∧ a ≤ 0xFF
        · have htranslate :
              (s.typing.modifiers.after key).translate key = some a.toUInt8 := by
            rw [Modifiers.translate, if_pos hpress, ha, Option.bind_some, if_pos hbyte]
          rw [htranslate, Option.isSome_some, imp_iff_right rfl]
          by_cases hfull : s.keyboard.keyboardBufferSize = 255
          · refine iff_of_false (fun hok => ?_) (not_not.mpr hfull)
            have hin : (k.enqueue a).fault = false := hok.inside
            have hwraps : (k.enqueue a).fault = true := by
              rw [Keyboard.enqueue, if_pos hbyte, hsize, hfull]
              exact Bool.or_true _
            rw [hwraps] at hin
            cases hin
          · have hlt : s.keyboard.keyboardBufferSize.toNat < 255 := by
              have hle := s.keyboard.keyboardBufferSize.toNat_lt
              have hne : s.keyboard.keyboardBufferSize.toNat ≠ 255 := fun h0 =>
                hfull (UInt8.toNat_inj.mp h0)
              omega
            have hroom : s.typing.typed.length - s.typing.returned.length < keyboardBufferLen := by
              rw [h.length_sub]
              exact hlt
            refine iff_of_true ⟨?_, ?_⟩ hfull
            · have hnot : ¬ keyboardBufferLen ≤ k.keyboardBufferSize.toNat := by
                rw [hsize]
                exact Nat.not_le.mpr hlt
              simp only [Keyboard.enqueue, if_pos hbyte, hnot, hfault, h.inside, decide_false,
                Bool.or_false]
            · simp only [Typing.press, htranslate, if_pos hroom]
              rw [Keyboard.unread_enqueue hbyte (hsize ▸ hlt), hunread, ← List.append_assoc, ← h.queue]
        · have htranslate : (s.typing.modifiers.after key).translate key = none := by
            rw [Modifiers.translate, if_pos hpress, ha, Option.bind_some, if_neg hbyte]
          rw [htranslate]
          refine iff_of_true ?_ (by simp)
          simp only [Keyboard.enqueue_of_not hbyte, Typing.press, htranslate]
          exact ⟨hfault.trans h.inside, by rw [hunread, ← h.queue]⟩
      · rw [tableEntry_of_not_lt hkey]
        exact iff_of_false (fun hok => by cases hok.inside) fun hin => hkey hin.1

theorem modifiersOk_zero : ModifiersOk .zero := ⟨rfl, rfl⟩

theorem keyboardOk_zero : KeyboardOk .zero := ⟨rfl, rfl⟩

end Runs

/-- **The driver is right exactly in the runs** whose calls all meet the condition. -/
theorem keyboard_ok_iff (cs : List KeyboardCall) :
    (∀ pre, pre <+: cs → KeyboardOk (keyboardCalls.exec pre .zero)) ↔
      keyboardCalls.Admits InRange cs .zero :=
  keyboardCalls.forall_exec_iff (fun _ _ hm => hm.step) (fun _ _ hm h => keyboardOk_step hm h) cs _
    modifiersOk_zero keyboardOk_zero

/-- The release of a key is looked up behind the table. -/
theorem release_outside_table : ¬ ∀ cs, KeyboardOk (keyboardCalls.exec cs .zero) := by
  intro h
  have hin := (h [.handler 0x1E, .handler 0x9E]).inside
  exact absurd hin (by decide +kernel)

end OxKernel.Platform
