import OxKernel.Lib.Numeral

/-!
# Numbers and strings

A model of `strtoul.c` and `ultostr.c`, with the tests of `ctype.h` that they use. A string is
the list of its characters without the terminating zero, and a pointer into a string is what
is left of it: the empty list is the pointer to the terminator. The macros compare a `char`
with codes below 128, so a character from 128 on, which is a negative `char`, fails them as
it does here.

`long` and `unsigned long` have 32 bits. The buffers that `ultostr` writes to are large
enough, except `tbuf`, its own: a conversion that runs past the end of it has no result.

## Main definitions

* `strtoul`, `strtol`, `atoi` — from strings to numbers.
* `ultostr`, `ltostr`, `itoa` — from numbers to strings.
-/
namespace OxKernel.Libk

/-- The characters of a string before its terminator. -/
abbrev CharStr := List UInt8

/-! ### Characters -/

/-- `isdigit`. -/
def isdigit (c : UInt8) : Bool := 0x30 ≤ c && c ≤ 0x39

/-- `islower`. -/
def islower (c : UInt8) : Bool := 0x61 ≤ c && c ≤ 0x7a

/-- `isupper`. -/
def isupper (c : UInt8) : Bool := 0x41 ≤ c && c ≤ 0x5a

/-- `isxdigit`. -/
def isxdigit (c : UInt8) : Bool :=
  isdigit c || ((0x41 ≤ c && c ≤ 0x46) || (0x61 ≤ c && c ≤ 0x66))

/-- `'0'`. -/
def char0 : UInt8 := 0x30

/-- `'A'`. -/
def charA : UInt8 := 0x41

/-- `'F'`. -/
def charF : UInt8 := 0x46

/-- `'a'`. -/
def chara : UInt8 := 0x61

/-- `'f'`. -/
def charf : UInt8 := 0x66

/-- `'x'`. -/
def charx : UInt8 := 0x78

/-- `'-'`. -/
def charMinus : UInt8 := 0x2d

/-! ### Bases -/

/-- `DEC`. -/
def DEC : Int32 := 0xA

/-- `OCT`. -/
def OCT : Int32 := 0x8

/-- `HEX`. -/
def HEX : Int32 := 0x10

/-! ### From strings to numbers -/

/-- The loop of `strtoul` that accumulates the result, and where it stops. -/
def accumulate (base : Int32) : CharStr → UInt32 → UInt32 × CharStr
  | [], res => (res, [])
  | c :: cs, res =>
    if isdigit c then accumulate base cs (res * base.toUInt32 + (c - char0).toUInt32)
    else if islower c && (chara ≤ c && c ≤ charf) then
      accumulate base cs (res * base.toUInt32 + ((c - chara).toUInt32 + 10))
    else if isupper c && (charA ≤ c && c ≤ charF) then
      accumulate base cs (res * base.toUInt32 + ((c - charA).toUInt32 + 10))
    else if c = char0 || c = charx then accumulate base cs res
    else (res, c :: cs)

/-- The base that `strtoul` goes on with, and where it starts to accumulate. -/
def strtoulBase (charp : CharStr) (base : Int32) : Int32 × CharStr :=
  if base = 0 then
    match charp with
    | [] => (DEC, charp)
    | c :: cs =>
      if c = char0 then
        match cs with
        | c₁ :: c₂ :: cs' => if c₁ = charx && isxdigit c₂ then (HEX, c₂ :: cs') else (OCT, cs)
        | _ => (OCT, cs)
      else (DEC, charp)
  else (base, charp)

/-- `strtoul`, with what it stores in `*endptr`. -/
def strtoul (charp : CharStr) (base : Int32) : UInt32 × CharStr :=
  let (base, charp) := strtoulBase charp base
  accumulate base charp 0

/-- `strtol`. -/
def strtol (charp : CharStr) (base : Int32) : Int32 × CharStr :=
  match charp with
  | c :: cs =>
    if c = charMinus then
      let (res, endptr) := strtoul cs base
      ((-res).toInt32, endptr)
    else
      let (res, endptr) := strtoul charp base
      (res.toInt32, endptr)
  | [] =>
    let (res, endptr) := strtoul charp base
    (res.toInt32, endptr)

/-- `atoi`. -/
def atoi (charp : CharStr) : Int32 := (strtol charp DEC).1

/-! ### From numbers to strings -/

/-- `Nr_DIGITS`. -/
def nrDigits : ℕ := 11

/-- The character of a digit. -/
def digitChar (tmp : UInt8) : UInt8 := if tmp ≥ 0xA then tmp - 0xA + charA else tmp + char0

/-- The loop that does the conversion: the characters it writes to `tbuf`, where there is
room for the given number of them. -/
def convert (base : Int32) : ℕ → UInt32 → Option CharStr
  | room, val =>
    if val = 0 then some []
    else
      match room with
      | 0 => none
      | room + 1 => do
        let tbuf ← convert base room (val / base.toUInt32)
        return digitChar (val % base.toUInt32).toUInt8 :: tbuf

/-- What is put in front of a number in a base. -/
def formatting (base : Int32) : CharStr :=
  (if base = OCT then [char0] else []) ++ (if base = HEX then [char0, charx] else [])

/-- `ultostr`: the string it writes to `buf`, and its result. -/
def ultostr (val : UInt32) (base : Int32) : Option (CharStr × Int32) :=
  let base := if base = 0 then DEC else base
  if val = 0 then
    let t := formatting base ++ [char0]
    some (t, Int32.ofNat t.length)
  else do
    let tbuf ← convert base (nrDigits + 2) val
    -- Copy back, the last digit first.
    let t := formatting base ++ tbuf.reverse
    return (t, Int32.ofNat t.length)

/-- `ltostr`. Only negative decimal numbers have a sign. -/
def ltostr (val : Int32) (base : Int32) : Option (CharStr × Int32) :=
  if val < 0 && (base = DEC || base = 0) then do
    let (t, n) ← ultostr (-val).toUInt32 DEC
    return (charMinus :: t, n + 1)
  else ultostr val.toUInt32 base

/-- `itoa`. -/
def itoa (val : Int32) : Option (CharStr × Int32) := ltostr val DEC

end OxKernel.Libk
