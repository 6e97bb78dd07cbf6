import OxKernel.Lib.Calendar
import OxKernel.Lib.Checked
import Mathlib.Tactic.IntervalCases
import Mathlib.Tactic.Ring
import Mathlib.Algebra.Order.Group.Nat

/-!
# Unix time

A model of `kmktime` in `mktime.c`, over words that keep track of overflow. The function
counts a leap day for every fourth year, which is right from 1901 to 2099.

## Main definitions

* `kmktime` — the Unix time of a broken-down time.
* `unixTime` — the seconds from 1970-01-01 00:00:00 in the Gregorian calendar.

## Main results

* `kmktime_holds` — the function from 1970 to 2037.
* `kmktime_exact` — it is exact and increasing.
-/
namespace OxKernel.Kernel

open Lib (Civil Checked)
open Lib.Checked (Holds Wraps InRange)

/-! ### The function -/

/-- `struct tm`. -/
structure Tm where
  tm_sec : Int32
  tm_min : Int32
  tm_hour : Int32
  tm_mday : Int32
  tm_mon : Int32
  tm_year : Int32

/-- `MINUTE`. -/
def MINUTE : Int32 := 60

/-- `HOUR`. -/
def HOUR : Int32 := 60 * MINUTE

/-- `DAY`. -/
def DAY : Int32 := 24 * HOUR

/-- `YEAR`. -/
def YEAR : Int32 := 365 * DAY

/-- `month`, for leap years. -/
def month : List Int32 :=
  [0,
   DAY * (31),
   DAY * (31+29),
   DAY * (31+29+31),
   DAY * (31+29+31+30),
   DAY * (31+29+31+30+31),
   DAY * (31+29+31+30+31+30),
   DAY * (31+29+31+30+31+30+31),
   DAY * (31+29+31+30+31+30+31+31),
   DAY * (31+29+31+30+31+30+31+31+30),
   DAY * (31+29+31+30+31+30+31+31+30+31),
   DAY * (31+29+31+30+31+30+31+31+30+31+30)]

/-- `month[tm_mon]`, which has no value outside the table. -/
def monthAt (tm_mon : Int32) : Option Int32 :=
  if 0 ≤ tm_mon then month[tm_mon.toInt.toNat]? else none

/-- If it was not a leap year, the table is a day ahead from March on. -/
def adjust (tm_mon : Int32) (year res : Checked) : Checked :=
  if tm_mon > 1 then
    let rest := (year + 2) % 4
    (if rest.val ≠ 0 then res - DAY else res).after rest
  else res

/-- `kmktime`. -/
def kmktime (tm : Tm) : Option Checked := do
  let year := (tm.tm_year : Checked) - 70
  let res := YEAR * year + DAY * ((year + 1) / 4)
  let before ← monthAt tm.tm_mon
  let res := res + before
  let res := adjust tm.tm_mon year res
  let res := res + DAY * ((tm.tm_mday : Checked) - 1)
  let res := res + HOUR * tm.tm_hour
  let res := res + MINUTE * tm.tm_min
  let res := res + tm.tm_sec
  return res

/-! ### The calendar -/

/-- The start of Unix time. -/
def epoch : Civil :=
  { year := 1970, month := 0, day := 1, hour := 0, minute := 0, second := 0
    month_lt := by decide, one_le_day := by decide, day_le := by decide
    hour_lt := by decide, minute_lt := by decide, second_lt := by decide }

/-- The seconds from the start of Unix time. -/
def unixTime (c : Civil) : ℤ := c.since epoch

/-- A date from 1970 to 2037. -/
def InEra (c : Civil) : Prop := 1970 ≤ c.year ∧ c.year ≤ 2037

instance (c : Civil) : Decidable (InEra c) := inferInstanceAs (Decidable (_ ∧ _))

/-- A date and time in a `struct tm` that has `tm_year` for its year. -/
def tmWith (tm_year : ℤ) (c : Civil) : Tm where
  tm_sec := Int32.ofNat c.second
  tm_min := Int32.ofNat c.minute
  tm_hour := Int32.ofNat c.hour
  tm_mday := Int32.ofNat c.day
  tm_mon := Int32.ofNat c.month
  tm_year := Int32.ofInt tm_year

/-- A date and time in a `struct tm`. -/
def tmOf (c : Civil) : Tm := tmWith (c.year - 1900) c

/-- The days that the function counts up to a date. -/
def countedDays (tm_year : ℤ) (c : Civil) : ℤ :=
  365 * (tm_year - 70) + (tm_year - 70 + 1).tdiv 4 + Lib.daysBeforeMonth 2000 c.month -
    (if 1 < c.month ∧ (tm_year - 70 + 2).tmod 4 ≠ 0 then 1 else 0) + (c.day - 1)

variable {c c' : Civil} {tm_year : ℤ}

theorem day_le_thirtyOne (c : Civil) : c.day ≤ 31 := by
  have hle := c.day_le
  simp only [Lib.daysInMonth] at hle
  grind

/-- The days before a month, from the table for leap years. -/
theorem daysBeforeMonth_table (y : ℕ) {m : ℕ} (h : m < 12) :
    Lib.daysBeforeMonth y m + (if 1 < m ∧ ¬ Lib.isLeap y then 1 else 0) =
      Lib.daysBeforeMonth 2000 m := by
  have h2000 : Lib.isLeap 2000 := by decide
  by_cases hleap : Lib.isLeap y <;> interval_cases m <;>
    simp [Lib.daysBeforeMonth, Finset.sum_range_succ, Lib.daysInMonth, hleap, h2000]

/-- A leap day every fourth year. -/
theorem daysBeforeYear_since {y : ℕ} (h : 1970 ≤ y) (hy : y ≤ 2100) :
    Lib.daysBeforeYear y = Lib.daysBeforeYear 1970 + 365 * (y - 1970) + (y - 1970 + 1) / 4 := by
  induction y, h using Nat.le_induction with
  | base => omega
  | succ y h ih =>
      rw [Lib.daysBeforeYear_succ, ih (by omega), Lib.daysInYear_eq]
      split
      · rename_i hleap
        rw [Lib.isLeap] at hleap
        omega
      · rename_i hleap
        rw [Lib.isLeap] at hleap
        omega

theorem epoch_days : epoch.days = Lib.daysBeforeYear 1970 := by
  have hfirst : epoch.dayOfYear = 0 := by decide
  have hyear : epoch.year = 1970 := rfl
  rw [Civil.days, hfirst, hyear, Nat.add_zero]

/-- **The days are counted right** through the century. -/
theorem countedDays_eq (h : 1970 ≤ c.year) (hy : c.year < 2100) :
    countedDays (c.year - 1900) c = c.days - epoch.days := by
  have hyear := daysBeforeYear_since h hy.le
  have hmonth := daysBeforeMonth_table c.year c.month_lt
  have hleap : Lib.isLeap c.year ↔ ((c.year : ℤ) - 1900 - 70 + 2).tmod 4 = 0 := by
    rw [Lib.isLeap, Int.tmod_eq_emod_of_nonneg (by omega)]
    omega
  have hepoch := epoch_days
  have hday := c.one_le_day
  rw [countedDays, Int.tdiv_eq_ediv_of_nonneg (by omega), hepoch, Civil.days, Civil.dayOfYear,
    hyear, ← hmonth]
  simp only [← hleap, ne_eq]
  split <;> push_cast <;> omega

theorem daysBeforeMonth_le (c : Civil) : Lib.daysBeforeMonth 2000 c.month ≤ 335 := by
  have hall : ∀ m < 12, Lib.daysBeforeMonth 2000 m ≤ 335 := by decide
  exact hall c.month c.month_lt

/-! ### The sum -/

theorem one_holds : Holds 1 1 := ⟨rfl, rfl⟩
theorem four_holds : Holds 4 4 := ⟨rfl, rfl⟩
theorem MINUTE_holds : Holds MINUTE 60 := ⟨rfl, rfl⟩
theorem HOUR_holds : Holds HOUR 3600 := ⟨rfl, rfl⟩
theorem DAY_holds : Holds DAY 86400 := ⟨rfl, rfl⟩
theorem YEAR_holds : Holds YEAR 31536000 := ⟨rfl, rfl⟩

theorem monthAt_tmWith (c : Civil) :
    ∃ before, monthAt (tmWith tm_year c).tm_mon = some before ∧
      before.toInt = 86400 * Lib.daysBeforeMonth 2000 c.month := by
  have hall : ∀ m < 12, ∃ before ∈ month, monthAt (Int32.ofNat m) = some before ∧
      before.toInt = 86400 * Lib.daysBeforeMonth 2000 m := by decide
  obtain ⟨before, -, h⟩ := hall c.month c.month_lt
  exact ⟨before, h⟩

section Sum
variable {year res : Checked} {Y n : ℤ}

theorem tm_mon_gt_one (c : Civil) : (tmWith tm_year c).tm_mon > 1 ↔ 1 < c.month := by
  have hm := c.month_lt
  have hmon : (tmWith tm_year c).tm_mon.toInt = c.month :=
    Int32.toInt_ofNat_of_lt (by omega)
  rw [gt_iff_lt, Int32.lt_iff_toInt_lt, hmon]
  exact @Int.ofNat_lt 1 c.month

theorem rest_holds (h : Holds year Y) (hY : Y < 2 ^ 31 - 2) :
    Holds ((year + 2) % 4) ((Y + 2).tmod 4) := by
  have hrange := h.inRange
  have htwo : InRange (Y + 2) := ⟨by have := hrange.1; omega, by omega⟩
  exact (h.add (Holds.coe 2) htwo).mod (Holds.coe 4)

theorem rest_ne_zero (h : Holds year Y) (hY : Y < 2 ^ 31 - 2) :
    ((year + 2) % 4).val ≠ 0 ↔ (Y + 2).tmod 4 ≠ 0 := by
  rw [← (rest_holds h hY).2]
  exact not_congr Int32.toInt_inj.symm

theorem adjust_holds (h : Holds year Y) (hY : Y < 2 ^ 31 - 2) (hres : Holds res n)
    (hn : InRange (n - 86400)) :
    Holds (adjust (tmWith tm_year c).tm_mon year res)
      (n - if 1 < c.month ∧ (Y + 2).tmod 4 ≠ 0 then 86400 else 0) := by
  simp only [adjust, tm_mon_gt_one, rest_ne_zero h hY]
  by_cases hm : 1 < c.month
  · by_cases hr : (Y + 2).tmod 4 ≠ 0
    · simpa [hm, hr] using (hres.sub (DAY_holds) hn).after (rest_holds h hY)
    · simpa [hm, hr] using hres.after (rest_holds h hY)
  · simpa [hm] using hres

end Sum

/-- The fields of a date, as words. -/
theorem tmWith_holds (c : Civil) (tm_year : ℤ) :
    Holds (tmWith tm_year c).tm_sec c.second ∧ Holds (tmWith tm_year c).tm_min c.minute ∧
      Holds (tmWith tm_year c).tm_hour c.hour ∧ Holds (tmWith tm_year c).tm_mday c.day := by
  have hs := c.second_lt
  have hm := c.minute_lt
  have hh := c.hour_lt
  have hd := day_le_thirtyOne c
  exact ⟨⟨rfl, Int32.toInt_ofNat_of_lt (by omega)⟩, ⟨rfl, Int32.toInt_ofNat_of_lt (by omega)⟩,
    ⟨rfl, Int32.toInt_ofNat_of_lt (by omega)⟩, ⟨rfl, Int32.toInt_ofNat_of_lt (by omega)⟩⟩

theorem year_holds (c : Civil) (h : 0 ≤ tm_year) (h' : tm_year < 1000) :
    Holds ((tmWith tm_year c).tm_year - 70) (tm_year - 70) := by
  have hyear : Holds (tmWith tm_year c).tm_year tm_year :=
    ⟨rfl, Int32.toInt_ofInt_of_le (by omega) (by omega)⟩
  exact hyear.sub (Holds.coe 70) ⟨by omega, by omega⟩

/-- The terms that the function adds. -/
theorem terms_eq (tm_year : ℤ) (c : Civil) :
    31536000 * (tm_year - 70) + 86400 * (tm_year - 70 + 1).tdiv 4 +
      86400 * Lib.daysBeforeMonth 2000 c.month -
      (if 1 < c.month ∧ (tm_year - 70 + 2).tmod 4 ≠ 0 then 86400 else 0) +
      86400 * (c.day - 1) + 3600 * c.hour + 60 * c.minute + c.second =
    86400 * countedDays tm_year c + c.secondOfDay := by
  rw [countedDays, Civil.secondOfDay]
  split <;> push_cast <;> ring

/-- **The result of `kmktime` from 1970 to 2037**, where no intermediate value overflows. -/
theorem kmktime_holds (c : Civil) (h : 70 ≤ tm_year) (h' : tm_year ≤ 137) :
    ∃ r, kmktime (tmWith tm_year c) = some r ∧
      Holds r (86400 * countedDays tm_year c + c.secondOfDay) := by
  obtain ⟨before, hbefore, hvalue⟩ := @monthAt_tmWith tm_year c
  obtain ⟨hsec, hmin, hhour, hday⟩ := tmWith_holds c tm_year
  have hs := c.second_lt
  have hm := c.minute_lt
  have hh := c.hour_lt
  have h1 := c.one_le_day
  have hd := day_le_thirtyOne c
  have hB := daysBeforeMonth_le c
  have hyear := @year_holds tm_year c (by omega) (by omega)
  have hleap := (hyear.add one_holds ⟨by omega, by omega⟩).div four_holds (by decide)
  have hbefore' : Holds (before : Checked) (86400 * Lib.daysBeforeMonth 2000 c.month) :=
    hvalue ▸ Holds.coe before
  have hL : (tm_year - 70 + 1).tdiv 4 = (tm_year - 70 + 1) / 4 :=
    Int.tdiv_eq_ediv_of_nonneg (by omega)
  have hyears := YEAR_holds.mul hyear ⟨by omega, by omega⟩
  have hleaps := DAY_holds.mul hleap ⟨by omega, by omega⟩
  have hmonths := (hyears.add hleaps ⟨by omega, by omega⟩).add hbefore' ⟨by omega, by omega⟩
  have hadjusted := @adjust_holds c tm_year _ _ _ _ hyear (by omega) hmonths ⟨by omega, by omega⟩
  have hdays := hadjusted.add
    (DAY_holds.mul (hday.sub one_holds ⟨by omega, by omega⟩) ⟨by omega, by omega⟩)
    ⟨by split <;> omega, by split <;> omega⟩
  have hhours := hdays.add (HOUR_holds.mul hhour ⟨by omega, by omega⟩)
    ⟨by split <;> omega, by split <;> omega⟩
  have hminutes := hhours.add (MINUTE_holds.mul hmin ⟨by omega, by omega⟩)
    ⟨by split <;> omega, by split <;> omega⟩
  have hsum := hminutes.add hsec ⟨by split <;> omega, by split <;> omega⟩
  exact ⟨_, by rw [kmktime, hbefore]; rfl, terms_eq tm_year c ▸ hsum⟩

/-! ### Exactness -/

theorem unixTime_eq (h : 1970 ≤ c.year) (hy : c.year < 2100) :
    unixTime c = 86400 * countedDays (c.year - 1900) c + c.secondOfDay := by
  have hepoch : epoch.secondOfDay = 0 := rfl
  rw [countedDays_eq h hy, unixTime, Civil.since, Civil.seconds, Civil.seconds, hepoch]
  push_cast
  ring

theorem kmktime_unixTime (h : InEra c) : ∃ r, kmktime (tmOf c) = some r ∧ Holds r (unixTime c) := by
  rw [unixTime_eq h.1 (h.2.trans_lt (by decide))]
  exact kmktime_holds c (by have := h.1; omega) (by have := h.2; omega)

/-- **`kmktime` is exact**: no intermediate value overflows, the result is the Unix time, and
later dates have greater results. -/
theorem kmktime_exact (h : InEra c) :
    ∃ r, kmktime (tmOf c) = some r ∧ r.exact = true ∧ r.val.toInt = unixTime c ∧
      ∀ c', InEra c' → c < c' → ∃ r', kmktime (tmOf c') = some r' ∧ r.val < r'.val := by
  obtain ⟨r, hr, hexact, hvalue⟩ := kmktime_unixTime h
  refine ⟨r, hr, hexact, hvalue, fun c' h' hlt => ?_⟩
  obtain ⟨r', hr', -, hvalue'⟩ := kmktime_unixTime h'
  refine ⟨r', hr', ?_⟩
  rw [Int32.lt_iff_toInt_lt, hvalue, hvalue']
  exact Civil.since_lt hlt epoch

theorem kmktime_exact_epoch :
    InEra epoch ∧ ∃ r, kmktime (tmOf epoch) = some r ∧ r.exact = true ∧
      r.val.toInt = unixTime epoch ∧
      ∀ c', InEra c' → epoch < c' → ∃ r', kmktime (tmOf c') = some r' ∧ r.val < r'.val :=
  ⟨by decide, kmktime_exact (by decide)⟩

end OxKernel.Kernel
