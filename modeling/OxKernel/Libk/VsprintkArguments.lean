import OxKernel.Libk.VsprintkFormats

/-!
# The arguments of formats

The kinds of the arguments that the parts of a format take, and that a part looks at its own
arguments only.

## Main results

* `emit_frame` — what a part writes does not depend on the arguments behind its own.
-/
namespace OxKernel.Libk

/-- The kinds of arguments. -/
inductive ArgKind
  | word
  | str
  | wide
  | cell
  deriving DecidableEq

/-- The kind of an argument. -/
def Arg.kind : Arg → ArgKind
  | .word _ => .word
  | .str _ => .str
  | .wide _ => .wide
  | .cell => .cell

/-- The type that modifiers leave. -/
def typeAfter : List Modifier → ArgType → ArgType
  | [], t => t
  | .type t :: ms, _ => typeAfter ms t
  | _ :: ms, t => typeAfter ms t

/-- The arguments of a modifier. -/
def Modifier.kinds : Modifier → List ArgKind
  | .precArg => [.word]
  | .widthArg => [.word]
  | _ => []

/-- The arguments of a conversion. -/
def Conversion.kinds (conv : Conversion) (t : ArgType) : List ArgKind :=
  match conv with
  | .percent => []
  | .n => [.cell]
  | .s => if t = .l then [.wide] else [.str]
  | _ => [.word]

/-- The type of a directive's argument. -/
def Directive.type (d : Directive) : ArgType := typeAfter d.modifiers .plain

/-- The arguments of a part of a format. -/
def Item.kinds : Item → List ArgKind
  | .literal _ _ => []
  | .directive d => d.modifiers.flatMap Modifier.kinds ++ d.conv.kinds d.type

/-- The arguments that a format takes. -/
def Matches (f : List Item) (args : List Arg) : Prop :=
  args.map Arg.kind = f.flatMap Item.kinds

/-- An argument of each kind. -/
def plainArg : ArgKind → Arg
  | .word => .word 0
  | .str => .str ⟨[], nonzero_nil⟩
  | .wide => .wide ⟨[], by simp⟩
  | .cell => .cell

theorem map_kind_plainArg (ks : List ArgKind) : (ks.map plainArg).map Arg.kind = ks := by
  rw [List.map_map]
  conv_rhs => rw [← List.map_id ks]
  exact List.map_congr_left fun k _ => by cases k <;> rfl

/-! ## Taking arguments from a list -/

/-- A list of arguments begins with the given kinds. -/
def Takes (ks : List ArgKind) (args rest : List Arg) : Prop :=
  ∃ a, args = a ++ rest ∧ a.map Arg.kind = ks

section Takes
variable {ks ks' : List ArgKind} {args rest : List Arg}

theorem takes_nil : Takes [] args rest ↔ args = rest := by
  constructor
  · rintro ⟨a, rfl, ha⟩
    rw [List.map_eq_nil_iff.mp ha, List.nil_append]
  · rintro rfl
    exact ⟨[], rfl, rfl⟩

theorem takes_append : Takes (ks ++ ks') args rest ↔
    ∃ mid, Takes ks args mid ∧ Takes ks' mid rest := by
  constructor
  · rintro ⟨a, rfl, ha⟩
    obtain ⟨a₁, a₂, rfl, h₁, h₂⟩ := List.map_eq_append_iff.mp ha
    exact ⟨a₂ ++ rest, ⟨a₁, List.append_assoc .., h₁⟩, a₂, rfl, h₂⟩
  · rintro ⟨mid, ⟨a₁, rfl, h₁⟩, a₂, rfl, h₂⟩
    exact ⟨a₁ ++ a₂, (List.append_assoc ..).symm, by rw [List.map_append, h₁, h₂]⟩

theorem exists_word {a : List Arg} (h : a.map Arg.kind = [.word]) : ∃ w, a = [.word w] := by
  obtain ⟨x, rfl, hx⟩ := List.map_eq_singleton_iff.mp h
  cases x <;> first | exact ⟨_, rfl⟩ | cases hx

theorem exists_str {a : List Arg} (h : a.map Arg.kind = [.str]) : ∃ s, a = [.str s] := by
  obtain ⟨x, rfl, hx⟩ := List.map_eq_singleton_iff.mp h
  cases x <;> first | exact ⟨_, rfl⟩ | cases hx

theorem exists_wide {a : List Arg} (h : a.map Arg.kind = [.wide]) : ∃ s, a = [.wide s] := by
  obtain ⟨x, rfl, hx⟩ := List.map_eq_singleton_iff.mp h
  cases x <;> first | exact ⟨_, rfl⟩ | cases hx

theorem Takes.word (h : Takes [.word] args rest) : ∃ w, args = .word w :: rest := by
  obtain ⟨a, rfl, ha⟩ := h
  obtain ⟨w, rfl⟩ := exists_word ha
  exact ⟨w, rfl⟩

theorem Takes.str (h : Takes [.str] args rest) : ∃ s, args = .str s :: rest := by
  obtain ⟨a, rfl, ha⟩ := h
  obtain ⟨s, rfl⟩ := exists_str ha
  exact ⟨s, rfl⟩

theorem Takes.wide (h : Takes [.wide] args rest) : ∃ s, args = .wide s :: rest := by
  obtain ⟨a, rfl, ha⟩ := h
  obtain ⟨s, rfl⟩ := exists_wide ha
  exact ⟨s, rfl⟩

end Takes

theorem typeAfter_cons (m : Modifier) (ms : List Modifier) (t : ArgType) :
    typeAfter (m :: ms) t = typeAfter ms (typeAfter [m] t) := by
  cases m <;> rfl

/-! ## The arguments of a directive -/

section Frame
variable {σ : PrintState} {a : List Arg} {t : Scratch} {i : Item}

/-- A state with other arguments. -/
def PrintState.withArgs (σ : PrintState) (args : List Arg) : PrintState := { σ with ap := args }

/-- A result with other arguments left. -/
def leave (rest : List Arg) (r : CharStr × PrintState) : CharStr × PrintState :=
  (r.1, r.2.withArgs rest)

/-- A modifier looks at its own arguments only. -/
theorem apply_frame {m : Modifier} (ha : a.map Arg.kind = m.kinds) (rest rest' : List Arg) :
    m.apply (σ.withArgs (a ++ rest')) =
      (m.apply (σ.withArgs (a ++ rest))).map (·.withArgs rest') := by
  cases m with
  | precArg =>
      obtain ⟨w, rfl⟩ := exists_word ha
      rfl
  | widthArg =>
      obtain ⟨w, rfl⟩ := exists_word ha
      rfl
  | prec digits =>
      obtain rfl : a = [] := List.map_eq_nil_iff.mp ha
      simp only [Modifier.apply, PrintState.withArgs]
      rcases σ.tmp.write (digits ++ [0]) with _ | u <;> rfl
  | width digits =>
      obtain rfl : a = [] := List.map_eq_nil_iff.mp ha
      simp only [Modifier.apply, PrintState.withArgs]
      rcases σ.tmp.write (digits ++ [0]) with _ | u <;> rfl
  | _ =>
      obtain rfl : a = [] := List.map_eq_nil_iff.mp ha
      rfl

theorem applyModifiers_frame {ms : List Modifier} (ha : a.map Arg.kind = ms.flatMap Modifier.kinds)
    (rest rest' : List Arg) : applyModifiers ms (σ.withArgs (a ++ rest')) =
      (applyModifiers ms (σ.withArgs (a ++ rest))).map (·.withArgs rest') := by
  induction ms generalizing σ a with
  | nil =>
      obtain rfl : a = [] := List.map_eq_nil_iff.mp ha
      rfl
  | cons m ms ih =>
      obtain ⟨a₁, a₂, rfl, h₁, h₂⟩ := List.map_eq_append_iff.mp ha
      have hself := apply_frame (σ := σ) h₁ (a₂ ++ rest) (a₂ ++ rest)
      rw [applyModifiers, applyModifiers, List.append_assoc, List.append_assoc,
        apply_frame h₁ (a₂ ++ rest)]
      rcases hm : m.apply (σ.withArgs (a₁ ++ (a₂ ++ rest))) with _ | σ₁
      · rfl
      · rw [hm, Option.map_some, Option.some.injEq] at hself
        have hrest := ih (σ := σ₁) h₂
        rw [← hself] at hrest
        exact hrest

/-- The formatting of an integer does not look at the arguments. -/
theorem mainFormatting_frame (conv : Conversion) (pp : CharStr) (σ : PrintState)
    (rest : List Arg) :
    mainFormatting conv pp (σ.withArgs rest) = leave rest (mainFormatting conv pp σ) := by
  have hprefix : setPrefix conv pp (σ.withArgs rest) = leave rest (setPrefix conv pp σ) := by
    cases conv <;> simp only [setPrefix, apply_ite (leave rest)] <;> rfl
  simp only [mainFormatting, hprefix]
  rfl

theorem convertInteger_frame (conv : Conversion) (w : UInt32) (rest rest' : List Arg) :
    convertInteger conv (σ.withArgs (.word w :: rest')) =
      (convertInteger conv (σ.withArgs (.word w :: rest))).map (leave rest') := by
  simp only [convertInteger, nextWord, PrintState.withArgs, Option.bind_eq_bind, Option.bind_some]
  rcases integerText conv σ.vflags.type w with _ | ⟨pp, n⟩
  · rfl
  · rcases hu : σ.tmp.write (pp ++ [0]) with _ | u
    · simp [hu]
    · have hmain := mainFormatting_frame conv pp
        { σ with tmp := u, ap := rest, n := n.toInt } rest'
      simp only [Option.bind_some, hu]
      exact congrArg some hmain

theorem stringOf_frame (ha : a.map Arg.kind = Conversion.kinds .s σ.vflags.type)
    (rest rest' : List Arg) : stringOf (σ.withArgs (a ++ rest')) =
      (stringOf (σ.withArgs (a ++ rest))).map (leave rest') := by
  rw [Conversion.kinds] at ha
  simp only [stringOf, PrintState.withArgs]
  by_cases htype : σ.vflags.type = .l
  · rw [if_pos htype] at ha
    obtain ⟨ws, rfl⟩ := exists_wide ha
    simp only [if_pos htype, List.singleton_append, nextWide, Option.bind_eq_bind, Option.bind_some]
    rcases σ.tmp.toCp ws.chars with _ | u
    · rfl
    · simp only [Option.bind_some]
      rcases u.str with _ | pp <;> rfl
  · rw [if_neg htype] at ha
    obtain ⟨str, rfl⟩ := exists_str ha
    simp [htype, nextStr, leave, PrintState.withArgs]

theorem convertString_frame (ha : a.map Arg.kind = Conversion.kinds .s σ.vflags.type)
    (rest rest' : List Arg) : convertString (σ.withArgs (a ++ rest')) =
      (convertString (σ.withArgs (a ++ rest))).map (leave rest') := by
  rw [convertString, convertString, stringOf_frame ha rest]
  rcases stringOf (σ.withArgs (a ++ rest)) with _ | ⟨pp, σ₁⟩ <;> rfl

/-- A conversion looks at its own arguments only. -/
theorem conversion_frame {conv : Conversion} (hconv : conv ≠ .n)
    (ha : a.map Arg.kind = conv.kinds σ.vflags.type) (rest rest' : List Arg) :
    conversion conv 0 (σ.withArgs (a ++ rest')) =
      (conversion conv 0 (σ.withArgs (a ++ rest))).map (leave rest') := by
  cases conv with
  | percent =>
      obtain rfl : a = [] := List.map_eq_nil_iff.mp ha
      rfl
  | c =>
      obtain ⟨w, rfl⟩ := exists_word ha
      simp only [conversion, convertChar, PrintState.withArgs]
      rcases hw : σ.tmp.write [w.toUInt8] with _ | u
      · simp [nextWord, hw]
      · simp only [List.singleton_append, nextWord, hw, Option.bind_eq_bind, Option.bind_some]
        rfl
  | s => exact convertString_frame ha rest rest'
  | n => exact absurd rfl hconv
  | _ =>
      obtain ⟨w, rfl⟩ := exists_word ha
      exact convertInteger_frame ..

theorem type_apply {m : Modifier} {σ₁ : PrintState} (h : m.apply σ = some σ₁) :
    σ₁.vflags.type = typeAfter [m] σ.vflags.type := by
  cases m <;> simp only [Modifier.apply, Option.bind_eq_bind, Option.bind_eq_some_iff] at h
  case precArg | widthArg | prec | width =>
    obtain ⟨r, -, h⟩ := h
    cases h
    rfl
  all_goals
    cases h
    rfl

theorem type_applyModifiers {ms : List Modifier} {σ₁ : PrintState}
    (h : applyModifiers ms σ = some σ₁) : σ₁.vflags.type = typeAfter ms σ.vflags.type := by
  induction ms generalizing σ with
  | nil => cases h; rfl
  | cons m ms ih =>
      rw [applyModifiers, Option.bind_eq_bind, Option.bind_eq_some_iff] at h
      obtain ⟨σ₂, hm, h⟩ := h
      rw [ih h, type_apply hm, ← typeAfter_cons]

/-- What the modifiers of a directive leave of the arguments. -/
theorem withArgs_applyModifiers {ms : List Modifier} {σ₁ : PrintState} {rest : List Arg}
    (ha : a.map Arg.kind = ms.flatMap Modifier.kinds)
    (h : applyModifiers ms (σ.withArgs (a ++ rest)) = some σ₁) : σ₁.withArgs rest = σ₁ := by
  have hself := applyModifiers_frame (σ := σ) ha rest rest
  rw [h, Option.map_some, Option.some.injEq] at hself
  exact hself.symm

/-- **A part of a format** looks at its own arguments only. -/
theorem emit_frame (ha : a.map Arg.kind = i.kinds) (t : Scratch) (rest rest' : List Arg) :
    i.emit (.start t (a ++ rest')) = (i.emit (.start t (a ++ rest))).map (leave rest') := by
  cases i with
  | literal c hc =>
      obtain rfl : a = [] := List.map_eq_nil_iff.mp ha
      rfl
  | directive d =>
      obtain ⟨a₁, a₂, rfl, h₁, h₂⟩ := List.map_eq_append_iff.mp ha
      have hmods := applyModifiers_frame (σ := .start t []) h₁ (a₂ ++ rest) (a₂ ++ rest')
      rw [Item.emit, Item.emit, List.append_assoc, List.append_assoc]
      change applyModifiers d.modifiers (.start t (a₁ ++ (a₂ ++ rest'))) =
        (applyModifiers d.modifiers (.start t (a₁ ++ (a₂ ++ rest)))).map _ at hmods
      rcases happly : applyModifiers d.modifiers (.start t (a₁ ++ (a₂ ++ rest))) with _ | σ₁
      · rw [happly] at hmods
        rw [hmods]
        rfl
      · have hself : σ₁.withArgs (a₂ ++ rest) = σ₁ :=
          withArgs_applyModifiers (σ := .start t []) h₁ happly
        have htype : σ₁.vflags.type = d.type := type_applyModifiers happly
        rw [← htype] at h₂
        have hconv := conversion_frame (σ := σ₁) d.conv_ne h₂ rest rest'
        rw [hself] at hconv
        rw [happly, Option.map_some] at hmods
        simp only [hmods, hconv, Option.bind_eq_bind, Option.bind_some]
        rcases conversion d.conv 0 σ₁ with _ | ⟨b, σ₂⟩ <;> rfl

end Frame

/-- The modifiers and the conversion of a directive that writes something. -/
theorem emit_directive {d : Directive} {σ σ' : PrintState} {b : CharStr}
    (h : (Item.directive d).emit σ = some (b, σ')) : ∃ σ₁ σ₂, applyModifiers d.modifiers σ = some σ₁ ∧
      conversion d.conv 0 σ₁ = some (b, σ₂) ∧ σ' = σ₂.reset := by
  simp only [Item.emit, Option.bind_eq_bind, Option.bind_eq_some_iff] at h
  obtain ⟨σ₁, happly, ⟨b', σ₂⟩, hconv, h⟩ := h
  cases h
  exact ⟨σ₁, σ₂, happly, hconv, rfl⟩

end OxKernel.Libk
