import OxKernel.Libk.VsprintkArguments
import OxKernel.Libk.VsprintkIntegers

/-!
# What formats leave in the scratch buffer

The conversion `%ls` writes to `tmp` as long as it finds characters that are not zero there, and
puts no terminator behind what it has written: it sees what the conversions before it, of the
same call or of an earlier one, have left. It looks at every second character, so a zero at an
even place stops it, and the string that it prints does not go beyond that place either.

The texts of widths and of precisions are written to `tmp`, too, so some formats put a zero at an
even place in front of `%ls`. The places where there certainly is one are followed through the
format.

## Main definitions

* `Guarded` — there is a zero in front of every `%ls`.

## Main results

* `emitAll_guarded` — a guarded format prints the same whatever is in `tmp`.
-/
namespace OxKernel.Libk

/-! ## Zeros at even places -/

/-- The even places that hold a zero when a text of `k` characters and its terminator have been
written. -/
def guardsAfter (k : ℕ) (E : List ℕ) : List ℕ :=
  (if k % 2 = 0 then [k] else []) ++ E.filter (k < ·)

/-- The same behind a modifier. -/
def Modifier.guards : Modifier → List ℕ → List ℕ
  | .prec digits, E => guardsAfter digits.length E
  | .width digits, E => guardsAfter digits.length E
  | _, E => E

/-- The same behind several modifiers. -/
def modifiersGuards : List Modifier → List ℕ → List ℕ
  | [], E => E
  | m :: ms, E => modifiersGuards ms (m.guards E)

/-- The even places that hold a zero behind a conversion, whatever it converts. -/
def Conversion.guards (conv : Conversion) (t : ArgType) (E : List ℕ) : List ℕ :=
  match conv with
  | .percent => E
  | .s => E
  | .n => E
  | .c => E.filter (0 < ·)
  | conv => E.filter (oddLength conv t < ·)

/-- The text of a width or of a precision has room in `tmp`. -/
def Modifier.Fits : Modifier → Prop
  | .prec digits => digits.length < maxBuffer
  | .width digits => digits.length < maxBuffer
  | _ => True

/-- `%ls`. -/
def Directive.Wide (d : Directive) : Prop := d.conv = .s ∧ d.type = .l

/-- **Every `%ls` is guarded**: its own modifiers and the directives before it leave a zero at an
even place of `tmp`, when there were zeros at the places `E`. -/
def Guarded : List Item → List ℕ → Prop
  | [], _ => True
  | .literal _ _ :: f, E => Guarded f E
  | .directive d :: f, E =>
    (∀ m ∈ d.modifiers, m.Fits) ∧ (d.Wide → modifiersGuards d.modifiers E ≠ []) ∧
      Guarded f (d.conv.guards d.type (modifiersGuards d.modifiers E))

/-! ## Writing to the scratch buffer -/

/-- Both buffers have a zero at an even place and the same bytes before it. -/
structure SameTo (e : ℕ) (t t' : Scratch) : Prop where
  even : e % 2 = 0
  zero : t.bytes[e]? = some 0
  zero' : t'.bytes[e]? = some 0
  same : t.bytes.take e = t'.bytes.take e

section Write
variable {t t' u u' : Scratch} {l : CharStr} {e : ℕ}

theorem getElem?_write (h : t.write l = some u) (he : l.length ≤ e) :
    u.bytes[e]? = t.bytes[e]? := by
  rw [(write_eq_some_iff.mp h).2, List.getElem?_append_right he, List.getElem?_drop,
    Nat.add_sub_cancel' he]

theorem getElem?_write_lt (h : t.write l = some u) (he : e < l.length) :
    u.bytes[e]? = l[e]? := by
  rw [(write_eq_some_iff.mp h).2, List.getElem?_append_left he]

/-- What is written before a zero leaves it alone. -/
theorem SameTo.write (hs : SameTo e t t') (h : t.write l = some u) (h' : t'.write l = some u')
    (he : l.length ≤ e) : SameTo e u u' := by
  have htake : ∀ {t u : Scratch}, t.write l = some u →
      u.bytes.take e = l ++ (t.bytes.take e).drop l.length := by
    intro t u h
    rw [(write_eq_some_iff.mp h).2, List.take_append, List.take_of_length_le he, List.drop_take]
  exact ⟨hs.even, by rw [getElem?_write h he, hs.zero], by rw [getElem?_write h' he, hs.zero'],
    by rw [htake h, htake h', hs.same]⟩

/-- A text and its terminator, written to both buffers. -/
theorem sameTo_text (h : t.write (l ++ [0]) = some u) (h' : t'.write (l ++ [0]) = some u')
    (he : l.length % 2 = 0) : SameTo l.length u u' := by
  have hlt : l.length < (l ++ [0]).length := by simp
  have hzero : ∀ {t u : Scratch}, t.write (l ++ [0]) = some u → u.bytes[l.length]? = some 0 := by
    intro t u h
    rw [getElem?_write_lt h hlt]
    simp
  have htake : ∀ {t u : Scratch}, t.write (l ++ [0]) = some u → u.bytes.take l.length = l := by
    intro t u h
    rw [(write_eq_some_iff.mp h).2, List.append_assoc, List.take_left]
  exact ⟨he, hzero h, hzero h', by rw [htake h, htake h']⟩

/-- A text that ends at a zero or before it, and its terminator. -/
theorem SameTo.write_text (hs : SameTo e t t') (h : t.write (l ++ [0]) = some u)
    (h' : t'.write (l ++ [0]) = some u') (he : l.length ≤ e) : SameTo e u u' := by
  rcases Nat.eq_or_lt_of_le he with rfl | hlt
  · exact sameTo_text h h' hs.even
  · exact hs.write h h' (by rw [List.length_append]; exact hlt)

/-- A string in a buffer ends at a zero or before it. -/
theorem takeWhile_of_zero {bs : CharStr} (h : bs[e]? = some 0) :
    bs.takeWhile (· ≠ 0) = (bs.take e).takeWhile (· ≠ 0) := by
  induction bs generalizing e with
  | nil => cases h
  | cons b bs ih =>
      cases e with
      | zero =>
          rw [List.getElem?_cons_zero, Option.some.injEq] at h
          rw [h, List.take_zero, List.takeWhile_nil, List.takeWhile_cons_of_neg (by simp)]
      | succ e =>
          rw [List.getElem?_cons_succ] at h
          by_cases hb : b = 0
          · rw [hb, List.take_succ_cons, List.takeWhile_cons_of_neg (by simp),
              List.takeWhile_cons_of_neg (by simp)]
          · rw [List.take_succ_cons, List.takeWhile_cons_of_pos (by simpa using hb),
              List.takeWhile_cons_of_pos (by simpa using hb), ih h]

theorem str_of_zero (h : t.bytes[e]? = some 0) :
    t.str = some ((t.bytes.take e).takeWhile (· ≠ 0)) := by
  rw [Scratch.str, if_pos (List.mem_of_getElem? h), takeWhile_of_zero h]

theorem SameTo.str_eq (hs : SameTo e t t') : ∃ s, t.str = some s ∧ t'.str = some s :=
  ⟨_, str_of_zero hs.zero, by rw [str_of_zero hs.zero', hs.same]⟩

/-- `to_cp` does not get beyond a zero at an even place. -/
theorem toCp_of_zero {bs bs' : CharStr} (ws : List UInt16) (heven : e % 2 = 0)
    (h : bs[e]? = some 0) (h' : bs'[e]? = some 0) (hsame : bs.take e = bs'.take e) :
    ∃ r r', toCp bs ws = some r ∧ toCp bs' ws = some r' ∧ r[e]? = some 0 ∧ r'[e]? = some 0 ∧
      r.take e = r'.take e := by
  induction ws generalizing bs bs' e with
  | nil => exact ⟨bs, bs', toCp.eq_1 bs, toCp.eq_1 bs', h, h', hsame⟩
  | cons w ws ih =>
      have hstop : ∀ {bs : CharStr}, bs.head? = some 0 → toCp bs (w :: ws) = some bs := by
        intro bs hb
        cases bs with
        | nil => cases hb
        | cons b bs =>
            obtain rfl : b = 0 := by simpa using hb
            cases bs <;> simp [toCp]
      by_cases hz : bs.head? = some 0
      · have hz' : bs'.head? = some 0 := by
          cases e with
          | zero => rwa [List.head?_eq_getElem?]
          | succ e =>
              have hhead := congrArg List.head? hsame
              rw [List.head?_take, List.head?_take, if_neg (by omega), if_neg (by omega)] at hhead
              rw [← hhead, hz]
        exact ⟨bs, bs', hstop hz, hstop hz', h, h', hsame⟩
      · cases e with
        | zero =>
            rw [← List.head?_eq_getElem?] at h
            exact absurd h hz
        | succ e =>
            obtain ⟨e, rfl⟩ : ∃ k, e = k + 1 := ⟨e - 1, by omega⟩
            rcases bs with _ | ⟨b, _ | ⟨b₂, bs⟩⟩
            · cases h
            · cases h
            · rcases bs' with _ | ⟨b', _ | ⟨b₂', bs'⟩⟩
              · cases h'
              · cases h'
              · simp only [List.getElem?_cons_succ] at h h'
                simp only [List.take_succ_cons, List.cons.injEq] at hsame
                obtain ⟨rfl, rfl, hsame⟩ := hsame
                have hb : b ≠ 0 := fun h0 => hz (by rw [h0]; rfl)
                obtain ⟨r, r', hr, hr', hzero, hzero', htake⟩ := ih (by omega) h h' hsame
                refine ⟨w.toUInt8 :: (w >>> 8).toUInt8 :: r,
                  w.toUInt8 :: (w >>> 8).toUInt8 :: r', ?_, ?_, ?_, ?_, ?_⟩
                · simp [toCp, hb, hr]
                · simp [toCp, hb, hr']
                · simpa using hzero
                · simpa using hzero'
                · simp [htake]

end Write

/-! ## Two runs of a directive -/

/-- The buffers of two runs have zeros at the places of a list and are the same before them. -/
def Guards (E : List ℕ) (t t' : Scratch) : Prop := ∀ e ∈ E, SameTo e t t'

section Runs
variable {σ σ₁ : PrintState} {t t' u u' : Scratch} {E : List ℕ} {rest : List Arg} {l : CharStr}

/-- A text in both buffers. -/
theorem guards_text (hE : Guards E t t') (h : t.write (l ++ [0]) = some u)
    (h' : t'.write (l ++ [0]) = some u') : Guards (guardsAfter l.length E) u u' := by
  intro e he
  rw [guardsAfter, List.mem_append] at he
  rcases he with he | he
  · split at he
    · rename_i heven
      rw [List.mem_singleton.mp he]
      exact sameTo_text h h' heven
    · cases he
  · have hlt : l.length < e := by simpa using (List.mem_filter.mp he).2
    exact (hE e (List.mem_of_mem_filter he)).write_text h h' hlt.le

/-- A modifier in both runs. -/
theorem apply_guards {m : Modifier} (hm : m.Fits) (hE : Guards E σ.tmp t')
    (hargs : Takes m.kinds σ.ap rest) : ∃ σ₁ t₁', m.apply σ = some σ₁ ∧
      m.apply { σ with tmp := t' } = some { σ₁ with tmp := t₁' } ∧
      Guards (m.guards E) σ₁.tmp t₁' ∧ σ₁.ap = rest ∧
      σ₁.vflags.type = typeAfter [m] σ.vflags.type := by
  have hwrite : ∀ {digits : CharStr}, digits.length < maxBuffer →
      ∃ u u', σ.tmp.write (digits ++ [0]) = some u ∧ t'.write (digits ++ [0]) = some u' := by
    intro digits hlt
    have hle : (digits ++ [0]).length ≤ maxBuffer := by
      rw [List.length_append]
      exact hlt
    obtain ⟨u, hu⟩ := exists_write σ.tmp hle
    obtain ⟨u', hu'⟩ := exists_write t' hle
    exact ⟨u, u', hu, hu'⟩
  cases m with
  | precArg =>
      obtain ⟨w, hw⟩ := Takes.word hargs
      exact ⟨{ σ with ap := rest, vflags.prec := w.toUInt8.toInt8 }, t',
        by simp [Modifier.apply, hw, nextWord], by simp [Modifier.apply, hw, nextWord], hE, rfl, rfl⟩
  | widthArg =>
      obtain ⟨w, hw⟩ := Takes.word hargs
      exact ⟨{ σ with ap := rest, vflags.width := w.toUInt8.toInt8 }, t',
        by simp [Modifier.apply, hw, nextWord], by simp [Modifier.apply, hw, nextWord], hE, rfl, rfl⟩
  | prec digits =>
      obtain ⟨u, u', hu, hu'⟩ := hwrite hm
      exact ⟨{ σ with tmp := u, vflags.prec := (atoi digits).toInt8 }, u',
        by simp [Modifier.apply, hu], by simp [Modifier.apply, hu'], guards_text hE hu hu',
        takes_nil.mp hargs, rfl⟩
  | width digits =>
      obtain ⟨u, u', hu, hu'⟩ := hwrite hm
      exact ⟨{ σ with tmp := u, vflags.width := (atoi digits).toInt8 }, u',
        by simp [Modifier.apply, hu], by simp [Modifier.apply, hu'], guards_text hE hu hu',
        takes_nil.mp hargs, rfl⟩
  | _ => exact ⟨_, t', rfl, rfl, hE, takes_nil.mp hargs, rfl⟩

/-- The modifiers of a directive in both runs. -/
theorem applyModifiers_guards {ms : List Modifier} (hms : ∀ m ∈ ms, m.Fits)
    (hE : Guards E σ.tmp t') (hargs : Takes (ms.flatMap Modifier.kinds) σ.ap rest) :
    ∃ σ₁ t₁', applyModifiers ms σ = some σ₁ ∧
      applyModifiers ms { σ with tmp := t' } = some { σ₁ with tmp := t₁' } ∧
      Guards (modifiersGuards ms E) σ₁.tmp t₁' ∧ σ₁.ap = rest ∧
      σ₁.vflags.type = typeAfter ms σ.vflags.type := by
  induction ms generalizing σ t' E with
  | nil => exact ⟨σ, t', rfl, rfl, hE, takes_nil.mp hargs, rfl⟩
  | cons m ms ih =>
      rw [List.flatMap_cons, takes_append] at hargs
      obtain ⟨mid, hm, hrest⟩ := hargs
      obtain ⟨σ₁, t₁', happly, happly', hE₁, hap, htype⟩ :=
        apply_guards (hms m List.mem_cons_self) hE hm
      rw [← hap] at hrest
      obtain ⟨σ₂, t₂', hall, hall', hE₂, hap₂, htype₂⟩ :=
        ih (fun x hx => hms x (List.mem_cons_of_mem _ hx)) hE₁ hrest
      refine ⟨σ₂, t₂', ?_, ?_, hE₂, hap₂, ?_⟩
      · rw [applyModifiers, happly]
        exact hall
      · rw [applyModifiers, happly']
        exact hall'
      · rw [htype₂, htype, ← typeAfter_cons]

/-- The formatting of an integer does not look at `tmp`. -/
theorem mainFormatting_tmp (conv : Conversion) (pp : CharStr) (σ : PrintState) (t : Scratch) :
    mainFormatting conv pp { σ with tmp := t } =
      ((mainFormatting conv pp σ).1, { (mainFormatting conv pp σ).2 with tmp := t }) := by
  have hprefix : setPrefix conv pp { σ with tmp := t } =
      ((setPrefix conv pp σ).1, { (setPrefix conv pp σ).2 with tmp := t }) := by
    cases conv <;> simp only [setPrefix] <;> split_ifs <;> rfl
  simp only [mainFormatting, hprefix]

theorem ap_mainFormatting (conv : Conversion) (pp : CharStr) (σ : PrintState) :
    (mainFormatting conv pp σ).2.ap = σ.ap := by
  have hprefix : (setPrefix conv pp σ).2.ap = σ.ap := by
    cases conv <;> simp only [setPrefix] <;> split_ifs <;> rfl
  exact hprefix

theorem tmp_mainFormatting (conv : Conversion) (pp : CharStr) (σ : PrintState) :
    (mainFormatting conv pp σ).2.tmp = σ.tmp := by
  have hprefix : (setPrefix conv pp σ).2.tmp = σ.tmp := by
    cases conv <;> simp only [setPrefix] <;> split_ifs <;> rfl
  exact hprefix

/-- A character in both runs. -/
theorem convertChar_guards (hE : Guards E σ.tmp t') (hargs : Takes [.word] σ.ap rest) :
    ∃ b σ₁ t₁', convertChar σ = some (b, σ₁) ∧
      convertChar { σ with tmp := t' } = some (b, { σ₁ with tmp := t₁' }) ∧
      Guards (E.filter (0 < ·)) σ₁.tmp t₁' ∧ σ₁.ap = rest := by
  obtain ⟨w, hw⟩ := hargs.word
  have hle : [w.toUInt8].length ≤ maxBuffer := by
    rw [List.length_singleton, maxBuffer]
    omega
  obtain ⟨u, hu⟩ := exists_write σ.tmp hle
  obtain ⟨u', hu'⟩ := exists_write t' hle
  refine ⟨σ.vflags.padRight 1 σ.vflags.fillChar ++ [w.toUInt8] ++ σ.vflags.padLeft 1,
    { σ with tmp := u, ap := rest }, u', ?_, ?_, ?_, rfl⟩
  · simp only [convertChar, hw, nextWord, hu, Option.bind_eq_bind, Option.bind_some]
    rfl
  · simp only [convertChar, hw, nextWord, hu', Option.bind_eq_bind, Option.bind_some]
    rfl
  · intro e he
    have hpos : 0 < e := by simpa using (List.mem_filter.mp he).2
    exact (hE e (List.mem_of_mem_filter he)).write hu hu' hpos

/-- An integer in both runs. -/
theorem convertInteger_guards {conv : Conversion} (hconv : conv ∈ integerConversions)
    (hE : Guards E σ.tmp t') (hargs : Takes [.word] σ.ap rest) :
    ∃ b σ₁ t₁', convertInteger conv σ = some (b, σ₁) ∧
      convertInteger conv { σ with tmp := t' } = some (b, { σ₁ with tmp := t₁' }) ∧
      Guards (E.filter (oddLength conv σ.vflags.type < ·)) σ₁.tmp t₁' ∧ σ₁.ap = rest := by
  obtain ⟨w, hw⟩ := hargs.word
  obtain ⟨n, htext, -⟩ := integerText_eq hconv σ.vflags.type w
  have hlen := length_integerString_le hconv σ.vflags.type w
  have hodd : oddLength conv σ.vflags.type ≤ 11 := by
    generalize σ.vflags.type = ty
    cases conv <;> cases ty <;> decide
  generalize integerString conv σ.vflags.type w = pp at htext hlen
  have hle : (pp ++ [0]).length ≤ maxBuffer := by
    rw [List.length_append, List.length_singleton, maxBuffer]
    omega
  obtain ⟨u, hu⟩ := exists_write σ.tmp hle
  obtain ⟨u', hu'⟩ := exists_write t' hle
  have hmain := mainFormatting_tmp conv pp { σ with tmp := u, ap := rest, n := n.toInt } u'
  refine ⟨(mainFormatting conv pp { σ with tmp := u, ap := rest, n := n.toInt }).1,
    (mainFormatting conv pp { σ with tmp := u, ap := rest, n := n.toInt }).2, u',
    ?_, ?_, ?_, ap_mainFormatting ..⟩
  · simp only [convertInteger, hw, nextWord, htext, hu, Option.bind_eq_bind, Option.bind_some]
    rfl
  · simp only [convertInteger, hw, nextWord, htext, hu', Option.bind_eq_bind, Option.bind_some]
    exact congrArg some hmain
  · intro e he
    rw [tmp_mainFormatting]
    have hlt : oddLength conv σ.vflags.type < e := by simpa using (List.mem_filter.mp he).2
    exact (hE e (List.mem_of_mem_filter he)).write_text hu hu' (by omega)

theorem exists_scratch_toCp {ws : List UInt16} {bs : CharStr}
    (h : toCp t.bytes ws = some bs) : ∃ u, t.toCp ws = some u ∧ u.bytes = bs := by
  rw [Scratch.toCp]
  split
  · rename_i hnone
    rw [hnone] at h
    cases h
  · rename_i bs' hsome
    rw [hsome] at h
    cases h
    exact ⟨_, rfl, rfl⟩

/-- `to_cp` in both runs: a zero at an even place stops it and ends the string. -/
theorem toCp_guards (hE : Guards E t t') (hne : E ≠ []) (ws : List UInt16) :
    ∃ u u' pp, t.toCp ws = some u ∧ t'.toCp ws = some u' ∧ Guards E u u' ∧
      u.str = some pp ∧ u'.str = some pp := by
  obtain ⟨e, he⟩ := List.exists_mem_of_ne_nil E hne
  have hs := hE e he
  obtain ⟨r, r', hr, hr', -⟩ := toCp_of_zero ws hs.even hs.zero hs.zero' hs.same
  obtain ⟨u, hu, rfl⟩ := exists_scratch_toCp hr
  obtain ⟨u', hu', rfl⟩ := exists_scratch_toCp hr'
  have hguards : Guards E u u' := by
    intro e' he'
    have hs' := hE e' he'
    obtain ⟨r, r', h, h', hz, hz', htake⟩ :=
      toCp_of_zero ws hs'.even hs'.zero hs'.zero' hs'.same
    rw [hr] at h
    rw [hr'] at h'
    cases h
    cases h'
    exact ⟨hs'.even, hz, hz', htake⟩
  obtain ⟨pp, hpp, hpp'⟩ := (hguards e he).str_eq
  exact ⟨u, u', pp, hu, hu', hguards, hpp, hpp'⟩

theorem stringOf_guards (hE : Guards E σ.tmp t')
    (hargs : Takes (Conversion.kinds .s σ.vflags.type) σ.ap rest)
    (hwide : σ.vflags.type = .l → E ≠ []) :
    ∃ pp u u', stringOf σ = some (pp, { σ with tmp := u, ap := rest }) ∧
      stringOf { σ with tmp := t' } = some (pp, { σ with tmp := u', ap := rest }) ∧
      Guards E u u' := by
  by_cases htype : σ.vflags.type = .l
  · rw [Conversion.kinds, if_pos htype] at hargs
    obtain ⟨ws, hws⟩ := hargs.wide
    obtain ⟨u, u', pp, hu, hu', hguards, hpp, hpp'⟩ := toCp_guards hE (hwide htype) ws.chars
    refine ⟨pp, u, u', ?_, ?_, hguards⟩
    · simp only [stringOf, if_pos htype, hws, nextWide, hu, hpp, Option.bind_eq_bind,
        Option.bind_some]
      rfl
    · simp only [stringOf, if_pos htype, hws, nextWide, hu', hpp', Option.bind_eq_bind,
        Option.bind_some]
      rfl
  · rw [Conversion.kinds, if_neg htype] at hargs
    obtain ⟨str, hstr⟩ := hargs.str
    refine ⟨str.chars, σ.tmp, t', ?_, ?_, hE⟩
    · simp only [stringOf, if_neg htype, hstr, nextStr, Option.bind_eq_bind, Option.bind_some]
      rfl
    · simp only [stringOf, if_neg htype, hstr, nextStr, Option.bind_eq_bind, Option.bind_some]
      rfl

/-- A string in both runs. -/
theorem convertString_guards (hE : Guards E σ.tmp t')
    (hargs : Takes (Conversion.kinds .s σ.vflags.type) σ.ap rest)
    (hwide : σ.vflags.type = .l → E ≠ []) :
    ∃ b σ₁ t₁', convertString σ = some (b, σ₁) ∧
      convertString { σ with tmp := t' } = some (b, { σ₁ with tmp := t₁' }) ∧
      Guards E σ₁.tmp t₁' ∧ σ₁.ap = rest := by
  obtain ⟨pp, u, u', hrun, hrun', hguards⟩ := stringOf_guards hE hargs hwide
  let n : ℤ := if σ.vflags.prec.toInt > 0 then min pp.length σ.vflags.prec.toInt else pp.length
  refine ⟨σ.vflags.padRight n σ.vflags.fillChar ++ pp.take n.toNat ++ σ.vflags.padLeft n,
    { σ with tmp := u, ap := rest, n := n, x := n }, u', ?_, ?_, hguards, rfl⟩
  · simp only [convertString, hrun, Option.bind_eq_bind, Option.bind_some]
    rfl
  · simp only [convertString, hrun', Option.bind_eq_bind, Option.bind_some]
    rfl

/-- **A conversion in both runs**: what is written is the same, and the zeros that are certain
are there again. -/
theorem conversion_guards {conv : Conversion} (hconv : conv ≠ .n) (hE : Guards E σ.tmp t')
    (hargs : Takes (conv.kinds σ.vflags.type) σ.ap rest)
    (hwide : conv = .s → σ.vflags.type = .l → E ≠ []) :
    ∃ b σ₁ t₁', conversion conv 0 σ = some (b, σ₁) ∧
      conversion conv 0 { σ with tmp := t' } = some (b, { σ₁ with tmp := t₁' }) ∧
      Guards (conv.guards σ.vflags.type E) σ₁.tmp t₁' ∧ σ₁.ap = rest := by
  cases conv with
  | percent => exact ⟨[ch '%'], σ, t', rfl, rfl, hE, takes_nil.mp hargs⟩
  | c => exact convertChar_guards hE hargs
  | s => exact convertString_guards hE hargs (hwide rfl)
  | n => exact absurd rfl hconv
  | _ => exact convertInteger_guards (by decide) hE hargs

end Runs

/-! ## Guarded formats -/

section Guarded
variable {f : List Item} {E : List ℕ} {t t' : Scratch} {args rest : List Arg}

/-- **A guarded format** prints the same whatever is in `tmp`. -/
theorem emitAll_guarded (hf : Guarded f E) (hE : Guards E t t')
    (hargs : Takes (f.flatMap Item.kinds) args rest) :
    ∃ b u u', emitAll f (.start t args) = some (b, .start u rest) ∧
      emitAll f (.start t' args) = some (b, .start u' rest) := by
  induction f generalizing E t t' args with
  | nil =>
      rw [takes_nil.mp hargs]
      exact ⟨[], t, t', rfl, rfl⟩
  | cons i f ih =>
      rw [List.flatMap_cons, takes_append] at hargs
      obtain ⟨mid, hi, hrest⟩ := hargs
      cases i with
      | literal c hc =>
          rw [takes_nil.mp hi]
          obtain ⟨b, u, u', hrun, hrun'⟩ := ih hf hE hrest
          exact ⟨[c] ++ b, u, u', by simp [emitAll, Item.emit, hrun],
            by simp [emitAll, Item.emit, hrun']⟩
      | directive d =>
          obtain ⟨hfits, hwide, hnext⟩ := hf
          rw [Item.kinds, takes_append] at hi
          obtain ⟨mid', hmods, hconv⟩ := hi
          obtain ⟨σ₁, t₁', happly, happly', hE₁, hap₁, htype₁⟩ :=
            applyModifiers_guards (σ := .start t args) hfits hE hmods
          have htype : σ₁.vflags.type = d.type := htype₁
          rw [← hap₁, ← htype] at hconv
          obtain ⟨b₁, σ₂, t₂', hrun₁, hrun₁', hE₂, hap₂⟩ :=
            conversion_guards d.conv_ne hE₁ hconv fun hs hl => hwide ⟨hs, htype ▸ hl⟩
          have hstored : σ₂.stored = [] := by
            rw [stored_conversion d.conv_ne hrun₁, stored_applyModifiers happly]
            rfl
          have hreset : σ₂.reset = .start σ₂.tmp mid := by
            rw [← hap₂]
            exact PrintState.fresh_reset hstored
          have hreset' : { σ₂ with tmp := t₂' }.reset = .start t₂' mid := by
            rw [← hap₂]
            exact PrintState.fresh_reset (σ := { σ₂ with tmp := t₂' }) hstored
          rw [htype] at hE₂
          obtain ⟨b₂, u, u', hrun₂, hrun₂'⟩ := ih hnext hE₂ hrest
          refine ⟨b₁ ++ b₂, u, u', ?_, ?_⟩
          · simp only [emitAll, Item.emit, happly, hrun₁, hreset, hrun₂, Option.bind_eq_bind,
              Option.bind_some, Option.pure_def]
          · have happly₂ : applyModifiers d.modifiers (.start t' args) =
                some { σ₁ with tmp := t₁' } := happly'
            simp only [emitAll, Item.emit, happly₂, hrun₁', hreset', hrun₂', Option.bind_eq_bind,
              Option.bind_some, Option.pure_def]

theorem takes_of_matches (h : Matches f args) : Takes (f.flatMap Item.kinds) args [] :=
  ⟨args, (List.append_nil args).symm, h⟩

end Guarded

end OxKernel.Libk
