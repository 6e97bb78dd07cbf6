import OxKernel.Libk.VsprintkScratch

/-!
# Formats one after the other

Two formats print the same in one call and in two if in each of them `%ls` does not see what is
in the scratch buffer. The other formats do not: in a buffer without zeros `%ls` does not come to
an end, and there are arguments for which the directives before it put no zero where it looks.

## Main definitions

* `Compositional` — two formats print in one call what they print in two.

## Main results

* `compositional_iff` — two formats are compositional exactly if both are guarded.
-/
namespace OxKernel.Libk

/-- **Two formats are compositional** if one call prints what two calls print, whatever is in
`tmp` at the beginning of each call. -/
def Compositional (f g : List Item) : Prop :=
  ∀ args, Matches (f ++ g) args → ∀ t t₁ t₂, ∃ r r₁ r₂,
    vsprintk (formatText (f ++ g)) args t = some r ∧
    vsprintk (formatText f) args t₁ = some r₁ ∧
    vsprintk (formatText g) r₁.ap t₂ = some r₂ ∧
    r.bytes = r₁.bytes ++ r₂.bytes ∧ r.ret = r.bytes.length

/-! ## Formats that are not guarded -/

/-- No even place holds a zero, except those of a list. -/
def Filled (E : List ℕ) (t : Scratch) : Prop :=
  ∀ e, e % 2 = 0 → e ∉ E → t.bytes[e]? ≠ some 0

section Filled
variable {σ σ₁ : PrintState} {t u : Scratch} {E : List ℕ} {l : CharStr} {b : CharStr}

/-- A text leaves a zero at most at its end. -/
theorem filled_text (hE : Filled E t) (hl : ∀ c ∈ l, c ≠ 0) (h : t.write (l ++ [0]) = some u) :
    Filled (guardsAfter l.length E) u := by
  intro e heven he
  rw [guardsAfter, List.mem_append, not_or] at he
  rcases Nat.lt_trichotomy e l.length with hlt | rfl | hgt
  · rw [getElem?_write_lt h (by rw [List.length_append]; omega), List.getElem?_append_left hlt]
    exact fun hz => hl 0 (List.mem_of_getElem? hz) rfl
  · rw [if_pos heven] at he
    exact absurd (List.mem_singleton_self _) he.1
  · rw [getElem?_write h (by rw [List.length_append]; exact hgt)]
    refine hE e heven fun hmem => he.2 (List.mem_filter.mpr ⟨hmem, ?_⟩)
    exact decide_eq_true hgt

theorem digit_ne_zero {c : UInt8} (h : isdigit c = true) : c ≠ 0 := by
  rintro rfl
  revert h
  decide

/-- The digits of a modifier are digits. -/
def Modifier.Digits : Modifier → Prop
  | .prec digits => ∀ c ∈ digits, c ≠ 0
  | .width digits => ∀ c ∈ digits, c ≠ 0
  | _ => True

theorem digits_of_nextModifier {p q : CharStr} {m : Modifier}
    (h : nextModifier p = some (m, q)) : m.Digits := by
  have hdigits : ∀ {l : CharStr}, ∀ c ∈ l.takeWhile (isdigit ·), c ≠ 0 := fun c hc =>
    digit_ne_zero (List.mem_takeWhile_imp hc)
  revert h
  fun_cases nextModifier p with
  | case1 => exact fun h => by cases h
  | case4 p =>
      intro h
      cases h
      exact hdigits
  | case5 c p =>
      intro h
      cases h
      exact hdigits
  | case13 => exact fun h => by cases h
  | _ =>
      intro h
      cases h
      trivial

theorem digits_of_modifiers {p : CharStr} : ∀ m ∈ (modifiers p).1, m.Digits := by
  fun_induction modifiers p with
  | case1 p h => exact fun m hm => absurd hm List.not_mem_nil
  | case2 p m q h ih =>
      intro m' hm'
      rcases List.mem_cons.mp hm' with rfl | hm'
      · exact digits_of_nextModifier h
      · exact ih m' hm'

theorem fits_apply {m : Modifier} (h : m.apply σ = some σ₁) : m.Fits := by
  have hfits : ∀ {digits : CharStr} {u : Scratch}, σ.tmp.write (digits ++ [0]) = some u →
      digits.length < maxBuffer := by
    intro digits u hu
    have hle := (write_eq_some_iff.mp hu).1
    rwa [List.length_append] at hle
  cases m with
  | prec digits =>
      simp only [Modifier.apply, Option.bind_eq_bind, Option.bind_eq_some_iff] at h
      obtain ⟨u, hu, -⟩ := h
      exact hfits hu
  | width digits =>
      simp only [Modifier.apply, Option.bind_eq_bind, Option.bind_eq_some_iff] at h
      obtain ⟨u, hu, -⟩ := h
      exact hfits hu
  | _ => trivial

theorem filled_apply {m : Modifier} (hm : m.Digits) (hE : Filled E σ.tmp)
    (h : m.apply σ = some σ₁) : Filled (m.guards E) σ₁.tmp := by
  cases m with
  | prec digits =>
      simp only [Modifier.apply, Option.bind_eq_bind, Option.bind_eq_some_iff] at h
      obtain ⟨u, hu, h⟩ := h
      cases h
      exact filled_text hE hm hu
  | width digits =>
      simp only [Modifier.apply, Option.bind_eq_bind, Option.bind_eq_some_iff] at h
      obtain ⟨u, hu, h⟩ := h
      cases h
      exact filled_text hE hm hu
  | precArg =>
      simp only [Modifier.apply, Option.bind_eq_bind, Option.bind_eq_some_iff] at h
      obtain ⟨r, -, h⟩ := h
      cases h
      exact hE
  | widthArg =>
      simp only [Modifier.apply, Option.bind_eq_bind, Option.bind_eq_some_iff] at h
      obtain ⟨r, -, h⟩ := h
      cases h
      exact hE
  | _ =>
      cases h
      exact hE

/-- The modifiers of a directive that is reached have room in `tmp`, and leave no other zeros. -/
theorem filled_applyModifiers {ms : List Modifier} (hms : ∀ m ∈ ms, m.Digits)
    (hE : Filled E σ.tmp) (h : applyModifiers ms σ = some σ₁) :
    (∀ m ∈ ms, m.Fits) ∧ Filled (modifiersGuards ms E) σ₁.tmp := by
  induction ms generalizing σ E with
  | nil =>
      cases h
      exact ⟨fun m hm => absurd hm List.not_mem_nil, hE⟩
  | cons m ms ih =>
      rw [applyModifiers, Option.bind_eq_bind, Option.bind_eq_some_iff] at h
      obtain ⟨σ₂, hm, h⟩ := h
      obtain ⟨hfits, hfilled⟩ := ih (fun x hx => hms x (List.mem_cons_of_mem _ hx))
        (filled_apply (hms m List.mem_cons_self) hE hm) h
      refine ⟨fun x hx => ?_, hfilled⟩
      rcases List.mem_cons.mp hx with rfl | hx
      · exact fits_apply hm
      · exact hfits x hx

/-! ### Arguments with long texts -/

/-- A number whose text has the greatest odd length. -/
def longWord (conv : Conversion) (t : ArgType) : UInt32 :=
  match conv, t with
  | .c, _ => 0x41
  | .u, .h => 12345
  | .u, _ => 123456789
  | .o, .h => 0xffff
  | .o, _ => 0x3fffffff
  | .d, .h => 12345
  | .d, _ => 0x80000000
  | .i, .h => 12345
  | .i, _ => 0x80000000
  | .x, .h => 0xfff
  | .X, .h => 0xfff
  | _, _ => 0xfffffff

theorem length_longWord {conv : Conversion} (h : conv ∈ integerConversions) (t : ArgType) :
    (integerString conv t (longWord conv t)).length = oddLength conv t ∧
      ∀ c ∈ integerString conv t (longWord conv t), c ≠ 0 := by
  have heval : (integerText conv t (longWord conv t)).map
      (fun r => (r.1.length, r.1.all (· ≠ 0))) = some (oddLength conv t, true) := by
    cases conv <;> first | exact absurd h (by decide) | (cases t <;> decide)
  obtain ⟨n, htext, -⟩ := integerText_eq h t (longWord conv t)
  rw [htext, Option.map_some, Option.some.injEq, Prod.mk.injEq] at heval
  exact ⟨heval.1, by simpa using heval.2⟩

theorem oddLength_odd (conv : Conversion) (t : ArgType) : oddLength conv t % 2 = 1 := by
  cases conv <;> cases t <;> rfl

/-- The arguments of a conversion, a long one if it is an integer. -/
def longArgs (conv : Conversion) (t : ArgType) : List Arg :=
  (conv.kinds t).map fun k => if k = .word then .word (longWord conv t) else plainArg k

theorem map_kind_longArgs (conv : Conversion) (t : ArgType) :
    (longArgs conv t).map Arg.kind = conv.kinds t := by
  rw [longArgs, List.map_map]
  conv_rhs => rw [← List.map_id (conv.kinds t)]
  exact List.map_congr_left fun k _ => by cases k <;> rfl

theorem filled_write_char (hE : Filled E t) {c : UInt8} (hc : c ≠ 0)
    (h : t.write [c] = some u) : Filled (E.filter (0 < ·)) u := by
  intro e heven he
  cases e with
  | zero =>
      rw [getElem?_write_lt h (by simp)]
      simpa using hc
  | succ e =>
      rw [getElem?_write h (by simp)]
      refine hE _ heven fun hmem => he (List.mem_filter.mpr ⟨hmem, ?_⟩)
      exact decide_eq_true (Nat.succ_pos e)

theorem filled_convertInteger {conv : Conversion} {rest : List Arg}
    (hconv : conv ∈ integerConversions) (hE : Filled E σ.tmp)
    (hap : σ.ap = .word (longWord conv σ.vflags.type) :: rest)
    (h : convertInteger conv σ = some (b, σ₁)) :
    Filled (E.filter (oddLength conv σ.vflags.type < ·)) σ₁.tmp := by
  obtain ⟨n, htext, -⟩ := integerText_eq hconv σ.vflags.type (longWord conv σ.vflags.type)
  obtain ⟨hlen, hnonzero⟩ := length_longWord hconv σ.vflags.type
  have hodd := oddLength_odd conv σ.vflags.type
  simp only [convertInteger, hap, nextWord, htext, Option.bind_eq_bind, Option.bind_some,
    Option.bind_eq_some_iff] at h
  obtain ⟨u, hu, h⟩ := h
  have htmp : σ₁.tmp = u := by
    rw [Option.pure_def, Option.some.injEq] at h
    have hstate := congrArg (fun r => r.2.tmp) h
    rw [tmp_mainFormatting] at hstate
    exact hstate.symm
  have hfilled := filled_text hE hnonzero hu
  rw [guardsAfter, hlen, if_neg (by omega), List.nil_append] at hfilled
  rwa [htmp]

theorem filled_convertString {rest : List Arg} (hE : Filled E σ.tmp)
    (hap : σ.ap = longArgs .s σ.vflags.type ++ rest)
    (h : convertString σ = some (b, σ₁)) : Filled E σ₁.tmp := by
  simp only [convertString, Option.bind_eq_bind, Option.bind_eq_some_iff] at h
  obtain ⟨⟨pp, σ₂⟩, hpp, h⟩ := h
  have htmp : σ₁.tmp = σ₂.tmp := by
    cases h
    rfl
  rw [htmp]
  by_cases htype : σ.vflags.type = .l
  · have hargs : σ.ap = .wide ⟨[], by simp⟩ :: rest := by
      rw [hap, longArgs, Conversion.kinds, if_pos htype]
      rfl
    obtain ⟨u, hu, hbytes⟩ := exists_scratch_toCp (toCp.eq_1 σ.tmp.bytes)
    simp only [stringOf, if_pos htype, hargs, nextWide, hu, Option.bind_eq_bind, Option.bind_some,
      Option.bind_eq_some_iff] at hpp
    obtain ⟨s, -, hpp⟩ := hpp
    cases hpp
    intro e heven he
    rw [hbytes]
    exact hE e heven he
  · have hargs : σ.ap = .str ⟨[], by simp⟩ :: rest := by
      rw [hap, longArgs, Conversion.kinds, if_neg htype]
      rfl
    simp only [stringOf, if_neg htype, hargs, nextStr, Option.bind_eq_bind, Option.bind_some] at hpp
    cases hpp
    exact hE

/-- A conversion with a long argument leaves no other zeros. -/
theorem filled_conversion {conv : Conversion} {rest : List Arg} (hconv : conv ≠ .n)
    (hE : Filled E σ.tmp) (hap : σ.ap = longArgs conv σ.vflags.type ++ rest)
    (h : conversion conv 0 σ = some (b, σ₁)) : Filled (conv.guards σ.vflags.type E) σ₁.tmp := by
  cases conv with
  | percent =>
      cases h
      exact hE
  | c =>
      have hargs : σ.ap = .word 0x41 :: rest := hap
      simp only [conversion, convertChar, hargs, nextWord, Option.bind_eq_bind, Option.bind_some,
        Option.bind_eq_some_iff] at h
      obtain ⟨u, hu, h⟩ := h
      cases h
      exact filled_write_char hE (by decide) hu
  | s => exact filled_convertString hE hap h
  | n => exact absurd rfl hconv
  | _ => exact filled_convertInteger (by decide) hE hap h

/-! ### `%ls` without a zero -/

/-- `to_cp` fills a buffer without zeros at even places. -/
theorem toCp_full {bs : CharStr} {m : ℕ} (hlen : bs.length = 2 * m)
    (h : ∀ e, e % 2 = 0 → bs[e]? ≠ some 0) :
    toCp bs (List.replicate m 0x4141) = some (List.replicate (2 * m) 0x41) := by
  induction m generalizing bs with
  | zero =>
      rw [List.length_eq_zero_iff.mp hlen]
      rfl
  | succ m ih =>
      rcases bs with _ | ⟨b, _ | ⟨b', bs⟩⟩
      · simp at hlen
      · simp at hlen
        omega
      · have hb : b ≠ 0 := by simpa using h 0 rfl
        have hlen' : bs.length = 2 * m := by
          simp at hlen
          omega
        have hrest := ih hlen' fun e he => by simpa using h (e + 2) (by omega)
        have hdouble : 2 * (m + 1) = 2 * m + 1 + 1 := by omega
        rw [List.replicate_succ, toCp, if_neg hb, hrest, hdouble, List.replicate_succ,
          List.replicate_succ]
        rfl

/-- A wide string as long as the buffer. -/
def wideFull : WString where
  chars := List.replicate (maxBuffer / 2) 0x4141
  nonzero c hc := by
    rw [List.eq_of_mem_replicate hc]
    decide

/-- The string that `%ls` should print has no end in the buffer. -/
theorem convertString_full {rest : List Arg} (hE : Filled [] σ.tmp) (htype : σ.vflags.type = .l)
    (hap : σ.ap = .wide wideFull :: rest) : convertString σ = none := by
  have hlen : σ.tmp.bytes.length = 2 * (maxBuffer / 2) := σ.tmp.length_eq
  have hfull := toCp_full hlen fun e he => hE e he List.not_mem_nil
  obtain ⟨u, hu, hbytes⟩ := exists_scratch_toCp hfull
  have hstr : u.str = none := by
    rw [Scratch.str, hbytes, if_neg]
    intro hz
    exact absurd (List.eq_of_mem_replicate hz) (by decide)
  have hchars : wideFull.chars = List.replicate (maxBuffer / 2) 0x4141 := rfl
  simp only [convertString, stringOf, if_pos htype, hap, nextWide, hchars, hu, hstr,
    Option.bind_eq_bind, Option.bind_some, Option.bind_none]

end Filled

section Unguarded
variable {f g : List Item} {E : List ℕ} {t : Scratch}

/-- The first part of a format that always prints, and what is behind it. -/
theorem exists_emit_of_emitAll {i : Item} {a args behind : List Arg}
    (h : ∀ args, Matches (i :: f) args → (emitAll (i :: f) (.start t (args ++ behind))).isSome)
    (ha : a.map Arg.kind = i.kinds) (hargs : Matches f args) :
    ∃ b σ, i.emit (.start t (a ++ (args ++ behind))) = some (b, σ) ∧ (emitAll f σ).isSome := by
  have hall := h (a ++ args) (by
    rw [Matches, List.map_append, ha, hargs, List.flatMap_cons])
  rw [List.append_assoc, emitAll] at hall
  rcases hi : i.emit (.start t (a ++ (args ++ behind))) with _ | ⟨b, σ⟩
  · simp [hi] at hall
  · refine ⟨b, σ, rfl, ?_⟩
    rcases hf : emitAll f σ with _ | r
    · simp [hi, hf] at hall
    · rfl

section Directive
variable {d : Directive} {a₁ a rest : List Arg}

/-- The state in front of a conversion. -/
theorem filled_front (hE : Filled E t) (ha₁ : a₁.map Arg.kind = d.modifiers.flatMap Modifier.kinds)
    {σ₁ : PrintState} (h : applyModifiers d.modifiers (.start t (a₁ ++ rest)) = some σ₁) :
    (∀ m ∈ d.modifiers, m.Fits) ∧ Filled (modifiersGuards d.modifiers E) σ₁.tmp ∧
      σ₁.vflags.type = d.type ∧ σ₁.ap = rest := by
  obtain ⟨hfits, hfilled⟩ := filled_applyModifiers (σ := .start t (a₁ ++ rest))
    digits_of_modifiers hE h
  have hself : σ₁.withArgs rest = σ₁ := withArgs_applyModifiers (σ := .start t []) ha₁ h
  refine ⟨hfits, hfilled, type_applyModifiers h, ?_⟩
  rw [← hself]
  rfl

/-- A directive with long arguments leaves no other zeros. -/
theorem filled_emit (hE : Filled E t) (ha₁ : a₁.map Arg.kind = d.modifiers.flatMap Modifier.kinds)
    {b : CharStr} {σ : PrintState} (h : (Item.directive d).emit
      (.start t (a₁ ++ (longArgs d.conv d.type ++ rest))) = some (b, σ)) :
    (∀ m ∈ d.modifiers, m.Fits) ∧
      Filled (d.conv.guards d.type (modifiersGuards d.modifiers E)) σ.tmp := by
  obtain ⟨σ₁, σ₂, happly, hconv, rfl⟩ := emit_directive h
  obtain ⟨hfits, hfilled, htype, hap⟩ := filled_front hE ha₁ happly
  rw [← htype] at hap
  have hnext := filled_conversion d.conv_ne hfilled hap hconv
  rw [htype] at hnext
  exact ⟨hfits, hnext⟩

/-- `%ls` that is not guarded does not come to an end for a string as long as the buffer. -/
theorem emit_wide_none (hE : Filled E t)
    (ha₁ : a₁.map Arg.kind = d.modifiers.flatMap Modifier.kinds) (hwide : d.Wide)
    (hnil : modifiersGuards d.modifiers E = []) :
    (Item.directive d).emit (.start t (a₁ ++ (.wide wideFull :: rest))) = none := by
  rcases hi : (Item.directive d).emit (.start t (a₁ ++ (.wide wideFull :: rest))) with _ | ⟨b, σ⟩
  · rfl
  · obtain ⟨σ₁, σ₂, happly, hconv, -⟩ := emit_directive hi
    obtain ⟨-, hfilled, htype, hap⟩ := filled_front hE ha₁ happly
    rw [hnil] at hfilled
    rw [hwide.1, conversion, convertString_full hfilled (htype.trans hwide.2) hap] at hconv
    cases hconv

end Directive

/-- The state behind a part does not depend on the arguments behind its own. -/
theorem start_of_emit {i : Item} {a rest rest' : List Arg} (ha : a.map Arg.kind = i.kinds)
    {b b' : CharStr} {σ σ' : PrintState} (h : i.emit (.start t (a ++ rest)) = some (b, σ))
    (h' : i.emit (.start t (a ++ rest')) = some (b', σ')) : σ' = .start σ.tmp rest' := by
  have hframe := emit_frame ha t rest rest'
  rw [h, h', Option.map_some, Option.some.injEq] at hframe
  have hsnd : σ' = σ.withArgs rest' := congrArg Prod.snd hframe
  have hfresh := fresh_emit h (PrintState.fresh_start t _)
  rw [PrintState.Fresh] at hfresh
  rw [hsnd, hfresh]
  rfl

/-- **A format that always prints** is guarded. -/
theorem guarded_of_emitAll (hE : Filled E t) (behind : List Arg)
    (h : ∀ args, Matches f args → (emitAll f (.start t (args ++ behind))).isSome) :
    Guarded f E := by
  induction f generalizing E t with
  | nil => trivial
  | cons i f ih =>
      cases i with
      | literal c hc =>
          refine ih hE fun args hargs => ?_
          obtain ⟨b, σ, hi, hf⟩ := exists_emit_of_emitAll (a := []) h rfl hargs
          cases hi
          exact hf
      | directive d =>
          have ha₁ := map_kind_plainArg (d.modifiers.flatMap Modifier.kinds)
          generalize (d.modifiers.flatMap Modifier.kinds).map plainArg = a₁ at ha₁
          have hkinds : ∀ {a : List Arg}, a.map Arg.kind = d.conv.kinds d.type →
              (a₁ ++ a).map Arg.kind = (Item.directive d).kinds := by
            intro a ha
            rw [List.map_append, ha₁, ha]
            rfl
          have hlong := hkinds (map_kind_longArgs d.conv d.type)
          -- A first run, with some arguments for the rest.
          have hrest : Matches f ((f.flatMap Item.kinds).map plainArg) := map_kind_plainArg _
          obtain ⟨b, σ, hi, -⟩ := exists_emit_of_emitAll h hlong hrest
          rw [List.append_assoc] at hi
          obtain ⟨hfits, hfilled⟩ := filled_emit hE ha₁ hi
          rw [← List.append_assoc] at hi
          refine ⟨hfits, fun hwide hnil => ?_, ih hfilled fun args hargs => ?_⟩
          · have hkind : [Arg.wide wideFull].map Arg.kind = d.conv.kinds d.type := by
              rw [hwide.1, Conversion.kinds, if_pos hwide.2]
              rfl
            obtain ⟨b', σ', hi', -⟩ := exists_emit_of_emitAll h (hkinds hkind) hrest
            rw [List.append_assoc, List.singleton_append, emit_wide_none hE ha₁ hwide hnil] at hi'
            cases hi'
          · obtain ⟨b', σ', hi', hf⟩ := exists_emit_of_emitAll h hlong hargs
            rwa [start_of_emit hlong hi hi'] at hf

/-- A buffer without zeros. -/
def Scratch.full : Scratch := ⟨List.replicate maxBuffer 0x41, List.length_replicate⟩

theorem filled_full : Filled [] Scratch.full := by
  intro e _ _ hz
  exact absurd (List.eq_of_mem_replicate (List.mem_of_getElem? hz)) (by decide)

/-- Nothing is known about the buffers at the beginning of two calls. -/
theorem guards_nil (t t' : Scratch) : Guards [] t t' := fun _ he => absurd he List.not_mem_nil

/-- Calls that end for every buffer are guarded: one without zeros may be there. -/
theorem guarded_of_compositional (h : Compositional f g) : Guarded f [] ∧ Guarded g [] := by
  have hmatch : ∀ {a a'}, Matches f a → Matches g a' → Matches (f ++ g) (a ++ a') := by
    intro a a' ha ha'
    rw [Matches, List.map_append, ha, ha', List.flatMap_append]
  have hf : Guarded f [] := by
    refine guarded_of_emitAll filled_full ((g.flatMap Item.kinds).map plainArg) ?_
    intro args hargs
    obtain ⟨r, r₁, r₂, -, hr₁, -⟩ := h _ (hmatch hargs (map_kind_plainArg _)) .full .full .full
    rw [vsprintk_formatText, Option.map_eq_some_iff] at hr₁
    obtain ⟨p, hp, -⟩ := hr₁
    rw [hp]
    rfl
  refine ⟨hf, guarded_of_emitAll filled_full [] ?_⟩
  intro args hargs
  rw [List.append_nil]
  have hplain : Matches f ((f.flatMap Item.kinds).map plainArg) := map_kind_plainArg _
  obtain ⟨r, r₁, r₂, -, hr₁, hr₂, -⟩ := h _ (hmatch hplain hargs) .full .full .full
  obtain ⟨b, u, u', hrun, -⟩ := emitAll_guarded hf (guards_nil .full .full) ⟨_, rfl, hplain⟩
  rw [vsprintk_formatText, hrun, Option.map_some, Option.some.injEq] at hr₁
  rw [← hr₁, vsprintk_formatText, Option.map_eq_some_iff] at hr₂
  obtain ⟨p, hp, -⟩ := hr₂
  have hap : emitAll g (.start .full args) = some p := hp
  rw [hap]
  rfl

/-- Guarded formats write the same from any buffer. -/
theorem compositional_of_guarded (hf : Guarded f []) (hg : Guarded g []) : Compositional f g := by
  intro args hargs t t₁ t₂
  have htakes := takes_of_matches hargs
  rw [List.flatMap_append, takes_append] at htakes
  obtain ⟨mid, hmid, hlast⟩ := htakes
  obtain ⟨b, u, u', hrun, hrun'⟩ := emitAll_guarded hf (guards_nil t t₁) hmid
  obtain ⟨b₂, v, v', hrun₂, hrun₂'⟩ := emitAll_guarded hg (guards_nil u t₂) hlast
  have hall : emitAll (f ++ g) (.start t args) = some (b ++ b₂, .start v []) := by
    simp [emitAll_append, hrun, hrun₂]
  have hall' : vsprintk (formatText (f ++ g)) args t =
      some ⟨b ++ b₂, (b ++ b₂).length, [], v, []⟩ := by
    rw [vsprintk_formatText, hall]
    rfl
  have hfirst : vsprintk (formatText f) args t₁ = some ⟨b, b.length, mid, u', []⟩ := by
    rw [vsprintk_formatText, hrun']
    rfl
  have hsecond : vsprintk (formatText g) mid t₂ = some ⟨b₂, b₂.length, [], v', []⟩ := by
    rw [vsprintk_formatText, hrun₂']
    rfl
  exact ⟨_, _, _, hall', hfirst, hsecond, rfl, rfl⟩

end Unguarded

/-- **Formats are compositional** exactly if in each of them every `%ls` has a zero at an even
place of `tmp` in front of it, and the digits of every width and precision have room there. -/
theorem compositional_iff (f g : List Item) :
    Compositional f g ↔ Guarded f [] ∧ Guarded g [] :=
  ⟨guarded_of_compositional, fun h => compositional_of_guarded h.1 h.2⟩

/-- `%d` and `%ls`. -/
def decimalItem : Item := .directive ⟨[], .d, by simp, by decide⟩
def wideItem : Item := .directive ⟨[ch 'l'], .s, by simp [IsModifier], by decide⟩

/-- The wide string of an `a`. -/
def wideA : WString := ⟨[0x61], by simp⟩

section Leak
variable {t : Scratch}

theorem modifiers_l : modifiers [ch 'l'] = ([.type .l], []) := by
  have hnext : nextModifier [ch 'l'] = some (.type .l, []) := rfl
  rw [modifiers_of_some hnext, modifiers_of_none rfl]

/-- What `%ls` writes for the one letter, behind another one and its terminator. -/
theorem emit_wide {bs : CharStr} {c : UInt8} (hc : c ≠ 0) (ht : t.bytes = c :: 0 :: bs) :
    (wideItem.emit (.start t [.wide wideA])).map Prod.fst = some [0x61] := by
  have hcp : toCp t.bytes wideA.chars = some (0x61 :: 0 :: bs) := by
    rw [ht, wideA, toCp, if_neg hc, toCp.eq_1]
    rfl
  obtain ⟨u, hu, hbytes⟩ := exists_scratch_toCp hcp
  have hstr : u.str = some [0x61] := by
    rw [Scratch.str, hbytes, if_pos (by simp)]
    simp
  simp [Item.emit, wideItem, Directive.modifiers, modifiers_l, applyModifiers, Modifier.apply,
    conversion, convertString, stringOf, nextWide, PrintState.start, hu, hstr]
  rfl

/-- Alone, with a zero at the beginning of `tmp`, it writes nothing. -/
theorem emit_wide_zero {bs : CharStr} (ht : t.bytes = 0 :: 0 :: bs) :
    (wideItem.emit (.start t [.wide wideA])).map Prod.fst = some [] := by
  have hcp : toCp t.bytes wideA.chars = some t.bytes := by
    rw [ht, wideA, toCp, if_pos rfl]
  obtain ⟨u, hu, hbytes⟩ := exists_scratch_toCp hcp
  have hstr : u.str = some [] := by
    rw [Scratch.str, hbytes, ht, if_pos (by simp)]
    simp
  simp [Item.emit, wideItem, Directive.modifiers, modifiers_l, applyModifiers, Modifier.apply,
    conversion, convertString, stringOf, nextWide, PrintState.start, hu, hstr]
  exact ⟨rfl, rfl⟩

/-- `%d` for one digit. -/
theorem emit_decimal (t : Scratch) (args : List Arg) : ∃ u,
    decimalItem.emit (.start t (.word 7 :: args)) = some ([0x37], .start u args) ∧
      u.bytes = 0x37 :: 0 :: t.bytes.drop 2 := by
  have hle : ([0x37] ++ [0] : CharStr).length ≤ maxBuffer := by
    rw [maxBuffer]
    simp
  obtain ⟨u, hu⟩ := exists_write t hle
  have htext : integerText .d .plain 7 = some ([0x37], 1) := rfl
  have htype : (PrintState.start t (.word 7 :: args)).vflags.type = .plain := rfl
  have hap : (PrintState.start t (.word 7 :: args)).ap = .word 7 :: args := rfl
  have htmp : (PrintState.start t (.word 7 :: args)).tmp = t := rfl
  refine ⟨u, ?_, (write_eq_some_iff.mp hu).2⟩
  have hmods : Libk.modifiers [] = ([], []) := modifiers_of_none rfl
  simp only [Item.emit, decimalItem, Directive.modifiers, hmods, applyModifiers, conversion,
    convertInteger, hap, nextWord, htype, htext, htmp, hu, Option.bind_eq_bind, Option.bind_some]
  rfl

theorem matches_decimal_wide :
    Matches ([decimalItem] ++ [wideItem]) [.word 7, .wide wideA] := by
  have hmods : Libk.modifiers [] = ([], []) := modifiers_of_none rfl
  simp [Matches, decimalItem, wideItem, Item.kinds, Directive.type, Directive.modifiers, hmods,
    modifiers_l, Modifier.kinds, Conversion.kinds, typeAfter, Arg.kind]

end Leak

/-- **`%ls` sees what `%d` has left**: behind it the letter is written, and alone it is not. -/
theorem wide_after_decimal :
    (vsprintk (formatText [decimalItem, wideItem]) [.word 7, .wide wideA] .zeros).map
        Printed.bytes = some [0x37, 0x61] ∧
      (vsprintk (formatText [wideItem]) [.wide wideA] .zeros).map Printed.bytes = some [] ∧
      ¬ Compositional [decimalItem] [wideItem] := by
  have hzeros : Scratch.zeros.bytes = 0 :: 0 :: List.replicate (maxBuffer - 2) 0 := rfl
  obtain ⟨u, hfirst, hu⟩ := emit_decimal .zeros [.wide wideA]
  have hbehind := emit_wide (by decide) hu
  have halone := emit_wide_zero hzeros
  rcases hrun : wideItem.emit (.start u [.wide wideA]) with _ | ⟨b, σ⟩
  · simp [hrun] at hbehind
  · obtain rfl : b = [0x61] := by simpa [hrun] using hbehind
    rcases hrun' : wideItem.emit (.start .zeros [.wide wideA]) with _ | ⟨b, σ'⟩
    · simp [hrun'] at halone
    · obtain rfl : b = [] := by simpa [hrun'] using halone
      have hboth : emitAll [decimalItem, wideItem] (.start .zeros [.word 7, .wide wideA]) =
          some ([0x37, 0x61], σ) := by
        simp [emitAll, hfirst, hrun]
      have hone : emitAll [decimalItem] (.start .zeros [.word 7, .wide wideA]) =
          some ([0x37], .start u [.wide wideA]) := by
        simp [emitAll, hfirst]
      have hlast : emitAll [wideItem] (.start .zeros [.wide wideA]) = some ([], σ') := by
        simp [emitAll, hrun']
      refine ⟨by simp [vsprintk_formatText, hboth], by simp [vsprintk_formatText, hlast], ?_⟩
      intro h
      obtain ⟨r, r₁, r₂, hr, hr₁, hr₂, hbytes, -⟩ :=
        h _ matches_decimal_wide .zeros .zeros .zeros
      rw [List.singleton_append, vsprintk_formatText, hboth, Option.map_some,
        Option.some.injEq] at hr
      rw [vsprintk_formatText, hone, Option.map_some, Option.some.injEq] at hr₁
      subst hr hr₁
      rw [vsprintk_formatText] at hr₂
      have hap : emitAll [wideItem] (.start .zeros [.wide wideA]) = some ([], σ') := hlast
      change (emitAll [wideItem] (.start .zeros [.wide wideA])).map _ = _ at hr₂
      rw [hap, Option.map_some, Option.some.injEq] at hr₂
      subst hr₂
      cases hbytes

end OxKernel.Libk
