import OxKernel.Libk.RoundTrip
import OxKernel.Libk.Compare

/-!
# Formatted printing

`vsprintk` of `vsprintk.c`, with `to_cp`. A pointer into a string is what is left of it. The flags
are `char`s that are compared with one value each, so they are `Bool`s here, except the precision
and the width, which are numbers of eight bits. The static `tmp` is a list of `MAX_BUFFER` bytes;
what is written or read behind its end has no result, and neither has an argument of the wrong
kind.

The text between a `%` and its conversion is read first, and takes effect then. The variables
that every directive sets back, `n`, `x`, `s`, `prefix` and `vflags`, are carried from one to the
next as the code carries them.

## Main definitions

* `Scratch` — the contents of `tmp`.
* `Modifier` — what stands between `%` and a conversion.
* `conversion` — the conversions.
* `vsprintk` — the function.
-/
namespace OxKernel.Libk

/-! ## Characters -/

/-- The code of a character. -/
def ch (c : Char) : UInt8 := c.toUInt8

/-- `isalpha`. -/
def isalpha (c : UInt8) : Bool := isupper c || islower c

/-- `tolower`. -/
def tolower (c : UInt8) : UInt8 := if isupper c then c + 0x20 else c

/-! ## The scratch buffer -/

/-- `MAX_BUFFER`. -/
def maxBuffer : ℕ := 4096

/-- The contents of `tmp`. -/
structure Scratch where
  bytes : CharStr
  length_eq : bytes.length = maxBuffer

/-- A buffer of zeros, as it is at the beginning. -/
def Scratch.zeros : Scratch := ⟨List.replicate maxBuffer 0, List.length_replicate⟩

/-- Write from the start of the buffer on. -/
def Scratch.write (t : Scratch) (l : CharStr) : Option Scratch :=
  if h : l.length ≤ maxBuffer then
    some ⟨l ++ t.bytes.drop l.length, by
      rw [List.length_append, List.length_drop, t.length_eq]
      omega⟩
  else none

theorem write_eq_some_iff {t u : Scratch} {l : CharStr} :
    t.write l = some u ↔ l.length ≤ maxBuffer ∧ u.bytes = l ++ t.bytes.drop l.length := by
  rw [Scratch.write]
  split
  · rename_i hle
    obtain ⟨bytes, hlen⟩ := u
    simp [hle, eq_comm]
  · rename_i hle
    simp [hle]

theorem exists_write {l : CharStr} (t : Scratch) (h : l.length ≤ maxBuffer) :
    ∃ u, t.write l = some u := by
  rw [Scratch.write, dif_pos h]
  exact ⟨_, rfl⟩

/-- The string at the start of the buffer. -/
def Scratch.str (t : Scratch) : Option CharStr :=
  if 0 ∈ t.bytes then some (t.bytes.takeWhile (· ≠ 0)) else none

/-- `to_cp`, over the bytes of its buffer. -/
def toCp : CharStr → List UInt16 → Option CharStr
  | bs, [] => some bs
  | b :: b' :: bs, w :: ws =>
    if b = 0 then some (b :: b' :: bs)
    else do
      let bs ← toCp bs ws
      return w.toUInt8 :: (w >>> 8).toUInt8 :: bs
  | b :: [], _ :: _ => if b = 0 then some [b] else none
  | [], _ :: _ => none

theorem length_toCp {bs bs' : CharStr} {ws : List UInt16} (h : toCp bs ws = some bs') :
    bs'.length = bs.length := by
  fun_induction toCp bs ws generalizing bs' with
  | case1 bs => cases h; rfl
  | case2 b' bs w ws => cases h; rfl
  | case3 b b' bs w ws hb ih =>
      simp only [Option.bind_eq_bind, Option.bind_eq_some_iff] at h
      obtain ⟨r, hr, hdone⟩ := h
      cases hdone
      simp [ih hr]
  | case4 w ws => cases h; rfl
  | case5 => cases h
  | case6 => cases h

/-- `to_cp(tmp, w)`. -/
def Scratch.toCp (t : Scratch) (ws : List UInt16) : Option Scratch :=
  match h : Libk.toCp t.bytes ws with
  | none => none
  | some bs => some ⟨bs, (length_toCp h).trans t.length_eq⟩

/-! ## Arguments -/

/-- A wide string: the terminator is none of its characters. -/
structure WString where
  chars : List UInt16
  nonzero : ∀ c ∈ chars, c ≠ 0

/-- An argument: a word, a string, a wide string, or a place for a number. -/
inductive Arg
  | word (w : UInt32)
  | str (s : CString)
  | wide (s : WString)
  | cell

/-- `va_arg(ap, int)`, or another type that a word is promoted to. -/
def nextWord : List Arg → Option (UInt32 × List Arg)
  | .word w :: ap => some (w, ap)
  | _ => none

/-- `va_arg(ap, char *)`. -/
def nextStr : List Arg → Option (CString × List Arg)
  | .str s :: ap => some (s, ap)
  | _ => none

/-- `va_arg(ap, wchar_t *)`. -/
def nextWide : List Arg → Option (WString × List Arg)
  | .wide s :: ap => some (s, ap)
  | _ => none

/-- `va_arg(ap, int *)`. -/
def nextCell : List Arg → Option (List Arg)
  | .cell :: ap => some ap
  | _ => none

/-! ## Flags -/

/-- `vflags.type`: what `h` and `l` say about the argument. -/
inductive ArgType
  | plain
  | h
  | l
  deriving DecidableEq

/-- `struct vflags`. -/
structure Vflags where
  type : ArgType
  sign : Bool
  ljust : Bool
  sharp : Bool
  space : Bool
  fill : Bool
  prec : Int8
  width : Int8
  deriving DecidableEq

/-- `reset_vflags`. -/
def Vflags.zero : Vflags := ⟨.plain, false, false, false, false, false, 0, 0⟩

/-- What may stand between `%` and a conversion. -/
inductive Modifier
  | fill
  | precArg
  | prec (digits : CharStr)
  | width (digits : CharStr)
  | widthArg
  | type (t : ArgType)
  | ljust
  | sign
  | space
  | sharp
  deriving DecidableEq

/-- The text from `READ_FLAGS` on: a modifier and what is behind it, unless there is a conversion
or the end. -/
def nextModifier : CharStr → Option (Modifier × CharStr)
  | [] => none
  | c :: p =>
    if c = ch '0' then some (.fill, p)
    else if c = ch '.' then
      if p.head? = some (ch '*') then some (.precArg, p.tail)
      else some (.prec (p.takeWhile (isdigit ·)), p.dropWhile (isdigit ·))
    else if isdigit c then
      some (.width ((c :: p).takeWhile (isdigit ·)), (c :: p).dropWhile (isdigit ·))
    else if c = ch '*' then some (.widthArg, p)
    else if c = ch 'h' then some (.type .h, p)
    else if c = ch 'l' then some (.type .l, p)
    else if c = ch '-' then some (.ljust, p)
    else if c = ch '+' then some (.sign, p)
    else if c = ch ' ' then some (.space, p)
    else if c = ch '#' then some (.sharp, p)
    else none

theorem length_of_nextModifier {p q : CharStr} {m : Modifier} (h : nextModifier p = some (m, q)) :
    q.length < p.length := by
  have hdrop : ∀ l : CharStr, (l.dropWhile (isdigit ·)).length ≤ l.length := fun l =>
    (List.dropWhile_suffix _).length_le
  revert h
  fun_cases nextModifier p with
  | case1 => exact fun h => by cases h
  | case3 p =>
      intro h
      cases h
      rw [List.length_tail, List.length_cons]
      omega
  | case4 p =>
      intro h
      cases h
      exact Nat.lt_succ_of_le (hdrop p)
  | case5 c p _ _ hdigit =>
      intro h
      cases h
      rw [List.dropWhile_cons_of_pos hdigit]
      exact Nat.lt_succ_of_le (hdrop p)
  | case13 => exact fun h => by cases h
  | _ =>
      intro h
      cases h
      exact Nat.lt_succ_self _

/-- The modifiers from `READ_FLAGS` on, and the text from the conversion on. -/
def modifiers (p : CharStr) : List Modifier × CharStr :=
  match _h : nextModifier p with
  | none => ([], p)
  | some (m, q) => (m :: (modifiers q).1, (modifiers q).2)
termination_by p.length
decreasing_by all_goals exact length_of_nextModifier (by assumption)

theorem modifiers_of_none {p : CharStr} (h : nextModifier p = none) : modifiers p = ([], p) := by
  rw [modifiers]
  split
  · rfl
  · rename_i hsome
    rw [h] at hsome
    cases hsome

theorem modifiers_of_some {p q : CharStr} {m : Modifier} (h : nextModifier p = some (m, q)) :
    modifiers p = (m :: (modifiers q).1, (modifiers q).2) := by
  rw [modifiers]
  split
  · rename_i hnone
    rw [h] at hnone
    cases hnone
  · rename_i hsome
    rw [h] at hsome
    cases hsome
    rfl

theorem length_modifiers_le (p : CharStr) : (modifiers p).2.length ≤ p.length := by
  fun_induction modifiers p with
  | case1 => exact le_rfl
  | case2 p m q h ih => exact ih.trans (length_of_nextModifier h).le

/-! ## The state -/

/-- The variables of `vsprintk` except the pointers, the arguments that are left, and the numbers
that `%n` has stored. -/
structure PrintState where
  tmp : Scratch
  ap : List Arg
  vflags : Vflags
  n : ℤ
  x : ℤ
  s : ℤ
  /-- `prefix`, which is empty for NULL. -/
  pfx : CharStr
  stored : List ℤ

/-- The state at the beginning. -/
def PrintState.start (tmp : Scratch) (ap : List Arg) : PrintState :=
  ⟨tmp, ap, .zero, 0, 0, 0, [], []⟩

/-- What is set back behind every directive. -/
def PrintState.reset (σ : PrintState) : PrintState :=
  { σ with vflags := .zero, n := 0, x := 0, s := 0, pfx := [] }

/-- The effect of a modifier. -/
def Modifier.apply : Modifier → PrintState → Option PrintState
  | .fill, σ => some { σ with vflags.fill := true }
  | .precArg, σ => do
    let (w, ap) ← nextWord σ.ap
    return { σ with ap := ap, vflags.prec := w.toUInt8.toInt8 }
  | .prec digits, σ => do
    let tmp ← σ.tmp.write (digits ++ [0])
    return { σ with tmp := tmp, vflags.prec := (atoi digits).toInt8 }
  | .width digits, σ => do
    let tmp ← σ.tmp.write (digits ++ [0])
    return { σ with tmp := tmp, vflags.width := (atoi digits).toInt8 }
  | .widthArg, σ => do
    let (w, ap) ← nextWord σ.ap
    return { σ with ap := ap, vflags.width := w.toUInt8.toInt8 }
  | .type t, σ => some { σ with vflags.type := t }
  | .ljust, σ => some { σ with vflags.ljust := true }
  | .sign, σ => some { σ with vflags.sign := true }
  | .space, σ => some { σ with vflags.space := true }
  | .sharp, σ => some { σ with vflags.sharp := true }

/-- The modifiers of a directive, one after the other. -/
def applyModifiers : List Modifier → PrintState → Option PrintState
  | [], σ => some σ
  | m :: ms, σ => do
    let σ ← m.apply σ
    applyModifiers ms σ

/-! ## Conversions -/

/-- The characters that the `switch` knows. -/
inductive Conversion
  | percent
  | c
  | s
  | u
  | o
  | x
  | X
  | p
  | d
  | i
  | n
  deriving DecidableEq

/-- The character of a conversion. -/
def Conversion.char : Conversion → UInt8
  | .percent => ch '%'
  | .c => ch 'c'
  | .s => ch 's'
  | .u => ch 'u'
  | .o => ch 'o'
  | .x => ch 'x'
  | .X => ch 'X'
  | .p => ch 'p'
  | .d => ch 'd'
  | .i => ch 'i'
  | .n => ch 'n'

/-- The conversions. -/
def conversions : List Conversion := [.percent, .c, .s, .u, .o, .x, .X, .p, .d, .i, .n]

/-- The conversion of a character, if there is one. -/
def conversionOf (c : UInt8) : Option Conversion := conversions.find? (·.char = c)

/-- The fill character. -/
def Vflags.fillChar (v : Vflags) : UInt8 := if v.fill then ch '0' else ch ' '

/-- The loop `while(pad--) *bp++ = c`, for a `char` that has been set to `pad`. -/
def padding (pad : ℤ) (c : UInt8) : CharStr := List.replicate (Int8.ofInt pad).toUInt8.toNat c

/-- The width, right justified, around `n` characters. -/
def Vflags.padRight (v : Vflags) (n : ℤ) (fill : UInt8) : CharStr :=
  if !v.ljust && v.width.toInt > n then padding (v.width.toInt - n) fill else []

/-- The width, left justified, around `n` characters. -/
def Vflags.padLeft (v : Vflags) (n : ℤ) : CharStr :=
  if v.ljust && v.width.toInt > n then padding (v.width.toInt - n) (ch ' ') else []

/-- The case of `c`. -/
def convertChar (σ : PrintState) : Option (CharStr × PrintState) := do
  let (w, ap) ← nextWord σ.ap
  let tmp ← σ.tmp.write [w.toUInt8]
  let v := σ.vflags
  return (v.padRight 1 v.fillChar ++ [w.toUInt8] ++ v.padLeft 1, { σ with tmp := tmp, ap := ap })

/-- The string of the case of `s`, with what is left of the arguments and in `tmp`. -/
def stringOf (σ : PrintState) : Option (CharStr × PrintState) :=
  if σ.vflags.type = .l then do
    let (ws, ap) ← nextWide σ.ap
    let tmp ← σ.tmp.toCp ws.chars
    let pp ← tmp.str
    return (pp, { σ with tmp := tmp, ap := ap })
  else do
    let (s, ap) ← nextStr σ.ap
    return (s.chars, { σ with ap := ap })

/-- The case of `s`. -/
def convertString (σ : PrintState) : Option (CharStr × PrintState) := do
  let (pp, σ) ← stringOf σ
  let v := σ.vflags
  let n : ℤ := pp.length
  let n := if v.prec.toInt > 0 then min n v.prec.toInt else n
  return (v.padRight n v.fillChar ++ pp.take n.toNat ++ v.padLeft n,
    { σ with n := n, x := n })

/-- An unsigned argument. -/
def unsignedArg (t : ArgType) (w : UInt32) : UInt32 :=
  match t with
  | .h => w.toUInt16.toUInt32
  | _ => w

/-- A signed argument. -/
def signedArg (t : ArgType) (w : UInt32) : Int32 :=
  match t with
  | .h => w.toUInt16.toInt16.toInt32
  | _ => w.toInt32

/-- The text of an integer and the result of the function that writes it; for the other
conversions there is none. -/
def integerText (conv : Conversion) (t : ArgType) (w : UInt32) : Option (CharStr × Int32) :=
  match conv with
  | .u => ultostr (unsignedArg t w) DEC
  | .o => ultostr (unsignedArg t w) OCT
  | .x => do
    let (pp, n) ← ultostr (unsignedArg t w) HEX
    return (pp.map fun c => if isalpha c then tolower c else c, n)
  | .X => ultostr (unsignedArg t w) HEX
  | .p => ultostr w HEX
  | .d => ltostr (signedArg t w) DEC
  | .i => ltostr (signedArg t w) DEC
  | _ => none

/-- The prefix of an integer: where its text goes on, and `n`, `s` and `prefix`. -/
def setPrefix (conv : Conversion) (pp : CharStr) (σ : PrintState) : CharStr × PrintState :=
  match conv with
  | .d | .i =>
    if pp.head? = some (ch '-') then (pp.tail, { σ with pfx := [ch '-'], s := 1 })
    else if σ.vflags.sign then (pp, { σ with pfx := [ch '+'], n := σ.n + 1, s := 1 })
    else if σ.vflags.space then (pp, { σ with pfx := [ch ' '], n := σ.n + 1, s := 1 })
    else (pp, σ)
  | .o =>
    if σ.vflags.sharp then (pp.tail, { σ with pfx := [ch '0'], s := 1 })
    else (pp.tail, { σ with n := σ.n - 1 })
  | .x | .p =>
    if σ.vflags.sharp then (pp.drop 2, { σ with pfx := [ch '0', ch 'x'], s := 2 })
    else (pp.drop 2, { σ with n := σ.n - 2 })
  | .X =>
    if σ.vflags.sharp then (pp.drop 2, { σ with pfx := [ch '0', ch 'X'], s := 2 })
    else (pp.drop 2, { σ with n := σ.n - 2 })
  | _ => (pp, σ)

/-- What is written behind `MAIN_FORMATTING`, when the prefix is known. -/
def integerBytes (pp : CharStr) (v : Vflags) (n x s : ℤ) (pfx : CharStr) : CharStr :=
  (if !v.ljust && v.fill then pfx else []) ++ v.padRight x v.fillChar ++
    (if v.ljust || !v.fill then pfx else []) ++
    (if v.prec.toInt > n - s then padding (v.prec.toInt - (n - s)) (ch '0') else []) ++ pp ++
    v.padLeft x

/-- The code behind `MAIN_FORMATTING`. -/
def mainFormatting (conv : Conversion) (pp : CharStr) (σ : PrintState) : CharStr × PrintState :=
  let (pp, σ) := setPrefix conv pp σ
  let x := max σ.n (σ.vflags.prec.toInt + σ.s)
  (integerBytes pp σ.vflags σ.n x σ.s σ.pfx, { σ with x := x })

/-- The cases of the integers. -/
def convertInteger (conv : Conversion) (σ : PrintState) : Option (CharStr × PrintState) := do
  let (w, ap) ← nextWord σ.ap
  let (pp, n) ← integerText conv σ.vflags.type w
  let tmp ← σ.tmp.write (pp ++ [0])
  return mainFormatting conv pp { σ with tmp := tmp, ap := ap, n := n.toInt }

/-- The `switch`, after `count` bytes: what is written, and the state behind it. -/
def conversion (conv : Conversion) (count : ℕ) (σ : PrintState) : Option (CharStr × PrintState) :=
  match conv with
  | .percent => some ([ch '%'], σ)
  | .c => convertChar σ
  | .s => convertString σ
  | .n => do
    let ap ← nextCell σ.ap
    return ([], { σ with ap := ap, stored := σ.stored ++ [(count : ℤ)] })
  | conv => convertInteger conv σ

/-! ## The function -/

/-- The loop of `vsprintk`, where `out` has been written. -/
def printLoop (p : CharStr) (out : CharStr) (σ : PrintState) : Option (CharStr × PrintState) :=
  match p with
  | [] => some (out, σ)
  | c :: p =>
    if c ≠ ch '%' then printLoop p (out ++ [c]) σ
    else
      match _h : modifiers p with
      | (ms, q) =>
        match applyModifiers ms σ with
        | none => none
        | some σ =>
          match q with
          -- The text ends in a directive, or this is no conversion: it is written as it stands.
          | [] => some (out ++ c :: p, σ)
          | k :: q =>
            match conversionOf k with
            | none => some (out ++ c :: p, σ)
            | some conv =>
              match conversion conv out.length σ with
              | none => none
              | some (b, σ) => printLoop q (out ++ b) σ.reset
termination_by p.length
decreasing_by
  · simp
  · have hle := length_modifiers_le p
    rw [_h] at hle
    simp only [List.length_cons] at hle ⊢
    omega

/-- What a call of `vsprintk` writes, its result, and what it leaves behind. -/
structure Printed where
  bytes : CharStr
  ret : ℤ
  ap : List Arg
  tmp : Scratch
  stored : List ℤ

/-- `vsprintk`. -/
def vsprintk (fmt : CharStr) (ap : List Arg) (tmp : Scratch) : Option Printed := do
  let (out, σ) ← printLoop fmt [] (.start tmp ap)
  return ⟨out, out.length, σ.ap, σ.tmp, σ.stored⟩

end OxKernel.Libk
