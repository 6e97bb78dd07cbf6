import OxKernel.Libk.Vsprintk
import Mathlib.Data.List.TakeWhile

/-!
# Formats of `vsprintk`

A format is a list of characters and directives, and a directive is what stands between `%` and
its conversion, and the conversion. `vsprintk` takes them one after the other: between two of them
only the arguments that are left and the contents of `tmp` are carried on.

## Main definitions

* `Directive`, `Item` — the parts of a format.
* `emitAll` — what a format writes.

## Main results

* `printLoop_formatText` — the loop over a format writes what its parts write.
* `vsprintk_append` — one call for two formats, or two calls one after the other.
-/
namespace OxKernel.Libk

/-! ## Directives -/

/-- A character that may stand between `%` and a conversion. -/
def IsModifier (c : UInt8) : Prop :=
  isdigit c = true ∨ c ∈ [ch '.', ch '*', ch 'h', ch 'l', ch '-', ch '+', ch ' ', ch '#']

instance (c : UInt8) : Decidable (IsModifier c) := inferInstanceAs (Decidable (_ ∨ _))

/-- A directive that writes something. -/
structure Directive where
  mods : CharStr
  conv : Conversion
  mods_ok : ∀ c ∈ mods, IsModifier c
  conv_ne : conv ≠ .n

/-- The text of a directive. -/
def Directive.text (d : Directive) : CharStr := ch '%' :: (d.mods ++ [d.conv.char])

/-- A part of a format. -/
inductive Item
  | literal (c : UInt8) (h : c ≠ ch '%' ∧ c ≠ 0)
  | directive (d : Directive)

/-- The text of a part. -/
def Item.text : Item → CharStr
  | .literal c _ => [c]
  | .directive d => d.text

/-- The text of a format. -/
def formatText (f : List Item) : CharStr := f.flatMap Item.text

/-- The modifiers of a directive. -/
def Directive.modifiers (d : Directive) : List Modifier := (Libk.modifiers d.mods).1

section Parse
variable {p q rest : CharStr} {k : UInt8} {m : Modifier}

theorem nextModifier_of_not (h : ¬ IsModifier k) : nextModifier (k :: rest) = none := by
  simp only [IsModifier, List.mem_cons, List.not_mem_nil, or_false, not_or] at h
  have h0 : k ≠ ch '0' := fun h0 => h.1 (h0 ▸ rfl)
  simp [nextModifier, h, h0]

theorem takeWhile_digits_append (h : ¬ IsModifier k) :
    (p ++ k :: rest).takeWhile (isdigit ·) = p.takeWhile (isdigit ·) := by
  have hk : ¬ isdigit k = true := fun hd => h (Or.inl hd)
  induction p with
  | nil => exact List.takeWhile_cons_of_neg hk
  | cons c p ih =>
      by_cases hc : isdigit c = true
      · rw [List.cons_append, List.takeWhile_cons_of_pos hc, List.takeWhile_cons_of_pos hc, ih]
      · rw [List.cons_append, List.takeWhile_cons_of_neg hc, List.takeWhile_cons_of_neg hc]

theorem dropWhile_digits_append (h : ¬ IsModifier k) :
    (p ++ k :: rest).dropWhile (isdigit ·) = p.dropWhile (isdigit ·) ++ k :: rest := by
  have hk : ¬ isdigit k = true := fun hd => h (Or.inl hd)
  induction p with
  | nil => exact List.dropWhile_cons_of_neg hk
  | cons c p ih =>
      by_cases hc : isdigit c = true
      · rw [List.cons_append, List.dropWhile_cons_of_pos hc, List.dropWhile_cons_of_pos hc, ih]
      · rw [List.cons_append, List.dropWhile_cons_of_neg hc, List.dropWhile_cons_of_neg hc,
          List.cons_append]

/-- A modifier is read in front of any conversion as at the end. -/
theorem nextModifier_append (hk : ¬ IsModifier k) (hp : nextModifier p = some (m, q)) :
    nextModifier (p ++ k :: rest) = some (m, q ++ k :: rest) := by
  have hstar : ∀ l : CharStr, (l ++ k :: rest).head? = some (ch '*') ↔ l.head? = some (ch '*') := by
    intro l
    cases l with
    | nil =>
        refine iff_of_false (fun h => hk ?_) (by simp)
        rw [List.nil_append, List.head?_cons, Option.some.injEq] at h
        rw [h]
        decide
    | cons c l => rfl
  have htail : ∀ {l : CharStr}, l.head? = some (ch '*') →
      (l ++ k :: rest).tail = l.tail ++ k :: rest := by
    intro l hl
    cases l with
    | nil => cases hl
    | cons c l => rfl
  have htake : ∀ l : CharStr, (l ++ k :: rest).takeWhile (isdigit ·) = l.takeWhile (isdigit ·) :=
    fun l => takeWhile_digits_append hk
  have hdrop : ∀ l : CharStr,
      (l ++ k :: rest).dropWhile (isdigit ·) = l.dropWhile (isdigit ·) ++ k :: rest :=
    fun l => dropWhile_digits_append hk
  revert hp
  fun_cases nextModifier p with
  | case1 => exact fun hp => by cases hp
  | case3 p hp0 =>
      intro hp
      cases hp
      rw [List.cons_append, nextModifier, if_neg (by decide), if_pos rfl,
        if_pos ((hstar p).mpr hp0), htail hp0]
  | case4 p hp0 =>
      intro hp
      cases hp
      rw [List.cons_append, nextModifier, if_neg (by decide), if_pos rfl,
        if_neg (fun h => hp0 ((hstar p).mp h)), htake, hdrop]
  | case5 c p h0 hdot hdigit =>
      intro hp
      cases hp
      rw [List.cons_append, nextModifier, if_neg h0, if_neg hdot, if_pos hdigit,
        ← List.cons_append, htake, hdrop]
  | case13 => exact fun hp => by cases hp
  | _ =>
      intro hp
      cases hp
      rfl

theorem suffix_of_nextModifier (h : nextModifier p = some (m, q)) : q <:+ p := by
  revert h
  fun_cases nextModifier p with
  | case1 => exact fun h => by cases h
  | case3 p =>
      intro h
      cases h
      exact (List.tail_suffix p).trans (List.suffix_cons _ p)
  | case4 p =>
      intro h
      cases h
      exact (List.dropWhile_suffix _).trans (List.suffix_cons _ p)
  | case5 c p =>
      intro h
      cases h
      exact List.dropWhile_suffix _
  | case13 => exact fun h => by cases h
  | _ =>
      intro h
      cases h
      exact List.suffix_cons _ _

/-- Text without a modifier at its beginning does not begin with a modifier character. -/
theorem eq_nil_of_nextModifier (hp : ∀ c ∈ p, IsModifier c) (h : nextModifier p = none) :
    p = [] := by
  revert h
  fun_cases nextModifier p with
  | case1 => exact fun _ => rfl
  | case13 c p h0 hdot hdigit hstar hh hl hminus hplus hspace hsharp =>
      have hc := hp c List.mem_cons_self
      simp [IsModifier, hdot, hdigit, hstar, hh, hl, hminus, hplus, hspace, hsharp] at hc
  | _ => exact fun h => by cases h

/-- **The modifiers of a directive** are read up to its conversion. -/
theorem modifiers_append (hp : ∀ c ∈ p, IsModifier c) (hk : ¬ IsModifier k) :
    modifiers (p ++ k :: rest) = ((modifiers p).1, k :: rest) := by
  fun_induction modifiers p with
  | case1 p hnone =>
      rw [eq_nil_of_nextModifier hp hnone, List.nil_append,
        modifiers_of_none (nextModifier_of_not hk)]
  | case2 p m q hsome ih =>
      have hq := ih fun c hc => hp c ((suffix_of_nextModifier hsome).subset hc)
      rw [modifiers_of_some (nextModifier_append hk hsome), hq]

end Parse

@[simp] theorem conversionOf_char (conv : Conversion) : conversionOf conv.char = some conv := by
  cases conv <;> decide

theorem not_isModifier_char (conv : Conversion) : ¬ IsModifier conv.char := by
  cases conv <;> decide

/-! ## What a format writes -/

/-- What a part of a format writes, and the state behind it. -/
def Item.emit : Item → PrintState → Option (CharStr × PrintState)
  | .literal c _, σ => some ([c], σ)
  | .directive d, σ => do
    let σ ← applyModifiers d.modifiers σ
    let (b, σ) ← conversion d.conv 0 σ
    return (b, σ.reset)

/-- What a format writes. -/
def emitAll : List Item → PrintState → Option (CharStr × PrintState)
  | [], σ => some ([], σ)
  | i :: f, σ => do
    let (b, σ) ← i.emit σ
    let (bs, σ) ← emitAll f σ
    return (b ++ bs, σ)

section Emit
variable {f g : List Item} {i : Item} {σ : PrintState} {rest out : CharStr}

/-- Only `%n` looks at how much has been written. -/
theorem conversion_count {conv : Conversion} (h : conv ≠ .n) (count count' : ℕ) :
    conversion conv count σ = conversion conv count' σ := by
  cases conv <;> first | rfl | exact absurd rfl h

/-- The loop over one part of a format. -/
theorem printLoop_item : printLoop (i.text ++ rest) out σ =
    (i.emit σ).bind fun r => printLoop rest (out ++ r.1) r.2 := by
  cases i with
  | literal c h =>
      rw [Item.text, List.singleton_append, printLoop, if_pos h.1]
      rfl
  | directive d =>
      have hmods : modifiers (d.mods ++ d.conv.char :: rest) =
          ((modifiers d.mods).1, d.conv.char :: rest) :=
        modifiers_append d.mods_ok (not_isModifier_char d.conv)
      rw [Item.text, Directive.text, List.cons_append, List.append_assoc, List.singleton_append,
        printLoop, if_neg (not_not.mpr rfl)]
      split
      rename_i ms q hq
      rw [hmods, Prod.mk.injEq] at hq
      obtain ⟨rfl, rfl⟩ := hq
      rw [Item.emit, Directive.modifiers]
      rcases applyModifiers (modifiers d.mods).1 σ with _ | σ₁
      · rfl
      · simp only [conversionOf_char, Option.bind_eq_bind, Option.bind_some,
          conversion_count d.conv_ne out.length 0]
        rcases conversion d.conv 0 σ₁ with _ | ⟨b, σ₂⟩ <;> rfl

/-- **The loop over a format** writes what its parts write. -/
theorem printLoop_formatText : printLoop (formatText f ++ rest) out σ =
    (emitAll f σ).bind fun r => printLoop rest (out ++ r.1) r.2 := by
  induction f generalizing out σ with
  | nil => simp [formatText, emitAll]
  | cons i f ih =>
      have hcons : formatText (i :: f) ++ rest = i.text ++ (formatText f ++ rest) := by
        rw [formatText, List.flatMap_cons, List.append_assoc, formatText]
      rw [hcons, printLoop_item, emitAll]
      rcases i.emit σ with _ | ⟨b, σ₁⟩
      · rfl
      · simp only [Option.bind_some, Option.bind_eq_bind, ih]
        rcases emitAll f σ₁ with _ | ⟨bs, σ₂⟩
        · rfl
        · simp

theorem emitAll_append : emitAll (f ++ g) σ = (emitAll f σ).bind fun r =>
    (emitAll g r.2).map fun r' => (r.1 ++ r'.1, r'.2) := by
  induction f generalizing σ with
  | nil => rcases h : emitAll g σ with _ | ⟨b, σ₁⟩ <;> simp [emitAll, h]
  | cons i f ih =>
      rw [List.cons_append, emitAll, emitAll]
      rcases i.emit σ with _ | ⟨b, σ₁⟩
      · rfl
      · simp only [Option.bind_some, Option.bind_eq_bind, ih]
        rcases emitAll f σ₁ with _ | ⟨bs, σ₂⟩
        · rfl
        · rcases hg : emitAll g σ₂ with _ | ⟨bs', σ₃⟩
          · simp [hg]
          · simp [hg]

end Emit

/-! ## Between two parts -/

/-- The state in front of a directive is the one at the beginning of a call. -/
def PrintState.Fresh (σ : PrintState) : Prop := σ = .start σ.tmp σ.ap

section Fresh
variable {f g : List Item} {i : Item} {σ σ' : PrintState} {b : CharStr}

theorem PrintState.fresh_start (t : Scratch) (ap : List Arg) : (PrintState.start t ap).Fresh := rfl

theorem PrintState.fresh_reset (h : σ.stored = []) : σ.reset.Fresh := by
  rw [PrintState.Fresh, PrintState.start, PrintState.reset, h]

theorem stored_apply {m : Modifier} (h : m.apply σ = some σ') : σ'.stored = σ.stored := by
  cases m <;> simp only [Modifier.apply, Option.bind_eq_bind, Option.bind_eq_some_iff] at h
  case precArg | widthArg | prec | width =>
    obtain ⟨r, -, h⟩ := h
    cases h
    rfl
  all_goals
    cases h
    rfl

theorem stored_applyModifiers {ms : List Modifier} (h : applyModifiers ms σ = some σ') :
    σ'.stored = σ.stored := by
  induction ms generalizing σ with
  | nil => cases h; rfl
  | cons m ms ih =>
      rw [applyModifiers, Option.bind_eq_bind, Option.bind_eq_some_iff] at h
      obtain ⟨σ₁, hm, h⟩ := h
      rw [ih h, stored_apply hm]

theorem stored_setPrefix (conv : Conversion) (pp : CharStr) (σ : PrintState) :
    (setPrefix conv pp σ).2.stored = σ.stored := by
  cases conv <;> simp only [setPrefix] <;> split_ifs <;> rfl

theorem stored_convertChar (h : convertChar σ = some (b, σ')) : σ'.stored = σ.stored := by
  simp only [convertChar, Option.bind_eq_bind, Option.bind_eq_some_iff] at h
  obtain ⟨r, -, t, -, h⟩ := h
  cases h
  rfl

theorem stored_stringOf (h : stringOf σ = some (b, σ')) : σ'.stored = σ.stored := by
  simp only [stringOf] at h
  split at h <;> simp only [Option.bind_eq_bind, Option.bind_eq_some_iff] at h
  · obtain ⟨r, -, t, -, pp, -, h⟩ := h
    cases h
    rfl
  · obtain ⟨r, -, h⟩ := h
    cases h
    rfl

theorem stored_convertString (h : convertString σ = some (b, σ')) : σ'.stored = σ.stored := by
  simp only [convertString, Option.bind_eq_bind, Option.bind_eq_some_iff] at h
  obtain ⟨⟨pp, σ₁⟩, hpp, h⟩ := h
  have hstored := stored_stringOf hpp
  cases h
  exact hstored

theorem stored_convertInteger {conv : Conversion} (h : convertInteger conv σ = some (b, σ')) :
    σ'.stored = σ.stored := by
  simp only [convertInteger, Option.bind_eq_bind, Option.bind_eq_some_iff] at h
  obtain ⟨r, -, t, -, tmp, -, h⟩ := h
  cases h
  exact stored_setPrefix ..

theorem stored_conversion {conv : Conversion} {count : ℕ} (hconv : conv ≠ .n)
    (h : conversion conv count σ = some (b, σ')) : σ'.stored = σ.stored := by
  cases conv with
  | percent => cases h; rfl
  | c => exact stored_convertChar h
  | s => exact stored_convertString h
  | n => exact absurd rfl hconv
  | _ => exact stored_convertInteger h

/-- **Nothing leaks** out of a directive but the arguments that are left and `tmp`. -/
theorem fresh_emit (h : i.emit σ = some (b, σ')) (hσ : σ.Fresh) : σ'.Fresh := by
  have hstored : σ.stored = [] := by
    rw [PrintState.Fresh] at hσ
    rw [hσ]
    rfl
  cases i with
  | literal c _ =>
      cases h
      exact hσ
  | directive d =>
      simp only [Item.emit, Option.bind_eq_bind, Option.bind_eq_some_iff] at h
      obtain ⟨σ₁, hmods, ⟨b₂, σ₂⟩, hconv, h⟩ := h
      cases h
      apply PrintState.fresh_reset
      rw [stored_conversion d.conv_ne hconv, stored_applyModifiers hmods, hstored]

theorem fresh_emitAll (h : emitAll f σ = some (b, σ')) (hσ : σ.Fresh) : σ'.Fresh := by
  induction f generalizing σ b with
  | nil =>
      cases h
      exact hσ
  | cons i f ih =>
      simp only [emitAll, Option.bind_eq_bind, Option.bind_eq_some_iff] at h
      obtain ⟨⟨b₁, σ₁⟩, hi, ⟨b₂, σ₂⟩, hf, h⟩ := h
      cases h
      exact ih hf (fresh_emit hi hσ)

end Fresh

/-- A call with a format. -/
theorem vsprintk_formatText (f : List Item) (ap : List Arg) (t : Scratch) :
    vsprintk (formatText f) ap t = (emitAll f (.start t ap)).map fun r =>
      ⟨r.1, r.1.length, r.2.ap, r.2.tmp, r.2.stored⟩ := by
  have hloop : printLoop (formatText f ++ []) [] (.start t ap) =
      (emitAll f (.start t ap)).bind fun r => printLoop [] ([] ++ r.1) r.2 :=
    printLoop_formatText
  rw [List.append_nil] at hloop
  rw [vsprintk, hloop]
  rcases emitAll f (.start t ap) with _ | ⟨b, σ⟩
  · rfl
  · simp [printLoop]

/-- **Two formats in one call** write what two calls write one after the other, the second one
with the arguments and with the `tmp` that the first one has left. -/
theorem vsprintk_append (f g : List Item) (ap : List Arg) (t : Scratch) :
    vsprintk (formatText (f ++ g)) ap t = (vsprintk (formatText f) ap t).bind fun r =>
      (vsprintk (formatText g) r.ap r.tmp).map fun r' =>
        ⟨r.bytes ++ r'.bytes, r.ret + r'.ret, r'.ap, r'.tmp, r'.stored⟩ := by
  simp only [vsprintk_formatText, emitAll_append]
  rcases hf : emitAll f (.start t ap) with _ | ⟨b, σ⟩
  · rfl
  · have hfresh := fresh_emitAll hf (PrintState.fresh_start t ap)
    rw [PrintState.Fresh] at hfresh
    simp only [Option.bind_some, Option.map_some, ← hfresh]
    rcases emitAll g σ with _ | ⟨b', σ'⟩
    · rfl
    · simp

end OxKernel.Libk
