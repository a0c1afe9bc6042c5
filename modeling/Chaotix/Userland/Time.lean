/-
Module: Chaotix.Userland.Time
Layer: Userland
Purpose: `gmtime_r`: the broken-down time of an instant. It goes forward from 1970 year by year and then month by month,
  as long as the rest of the time is as long as the next one.
Imports: Chaotix.Kernel.Time
Trusted boundary: human-reviewed model of `gmtime_r` of `userland/lib/time.c`
Main exports: Tm, gmtimeR
-/
import Chaotix.Kernel.Time

namespace Chaotix

/-- `struct tm`. -/
structure Tm where
  tmSec : Int := 0
  tmMin : Int := 0
  tmHour : Int := 0
  tmMday : Int := 0
  tmMon : Int := 0
  tmYear : Int := 0
  tmWday : Int := 0
  tmYday : Int := 0
  tmIsdst : Int := 0
deriving DecidableEq, Repr

/-- `seconds_per_day`. -/
abbrev secondsPerDay : Nat := 60 * 60 * 24

/-- `divmodi64`: the quotient and the remainder of `idivl`, which faults where the quotient is no `int32_t`. -/
def divmodi64 (a b : Int) : Option (Int × Int) :=
  if b ≠ 0 ∧ -2 ^ 31 ≤ a.tdiv b ∧ a.tdiv b < 2 ^ 31 then some (a.tdiv b, a.tmod b) else none

/-- The loop of `gmtime_r` over the years: the year, and what is left of the time. -/
def gmtimeYear (time : Int) (year : Nat) : Nat × Int :=
  let secondsInThisYear : Int := daysInYear year * secondsPerDay
  if time < secondsInThisYear then (year, time)
  else gmtimeYear (time - secondsInThisYear) (wordSucc year)
termination_by time.toNat
decreasing_by
  have hpos : 0 < daysInYear year * secondsPerDay := Nat.mul_pos (daysInYear_pos year) (by decide)
  omega

/-- The loop of `gmtime_r` over the months: the month, and what is left of the days. -/
def gmtimeMonth (year month : Nat) (days : Int) : Nat × Int :=
  if month < 12 then
    let daysInThisMonth : Int := daysInMonth year month
    if days < daysInThisMonth then (month, days)
    else gmtimeMonth year (month + 1) (days - daysInThisMonth)
  else (month, days)
termination_by 12 - month

/-- A `uint32_t` of an `int`. -/
def toUnsigned (x : Int) : Nat := (x % wordSize).toNat

/-- `gmtime_r`, for the contents of the structure it fills. There is no value where the division faults. -/
def gmtimeR (t : Int) (tm : Tm) : Option Tm := do
  let (year, time) := gmtimeYear t 1970
  let (days, seconds) ← divmodi64 time secondsPerDay
  let minutes := seconds.tdiv 60
  let (month, rest) := gmtimeMonth year 1 days
  some { tm with
    tmYear := (year : Int) - 1900
    tmYday := days
    tmSec := seconds.tmod 60
    tmHour := minutes.tdiv 60
    tmMin := minutes.tmod 60
    tmMon := (month : Int) - 1
    tmMday := rest + 1
    tmWday := dayOfWeek year month (toUnsigned (rest + 1)) }

end Chaotix
