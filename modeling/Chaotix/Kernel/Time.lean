/-
Module: Chaotix.Kernel.Time
Layer: Kernel
Purpose: The calendar that the kernel and the userland share, and the real-time clock. `rtc_now` waits until the clock
  is not updating its registers, reads them, and turns what it has read into the seconds since the epoch; a clock that
  does not finish its update counts as the epoch.
Imports: Chaotix.Kernel.Base
Trusted boundary: human-reviewed model of `common/calendar.h` and of `kernel/time.c` up to `rtc_now`
Main exports: isLeapYear, daysInYear, daysInMonth, dayOfYear, dayOfWeek, daysSinceEpoch, bcdToBin, rtcNow
-/
import Chaotix.Kernel.Base

namespace Chaotix

/-! ### `common/calendar.h` -/

/-- `is_leap_year`. -/
def isLeapYear (year : Nat) : Bool := year % 4 = 0 ∧ (year % 100 ≠ 0 ∨ year % 400 = 0)

/-- `days_in_year`. -/
def daysInYear (year : Nat) : Nat := if isLeapYear year then 366 else 365

theorem daysInYear_pos (year : Nat) : 0 < daysInYear year := by
  unfold daysInYear
  split <;> decide

/-- The `table` of `days_in_month`. -/
def daysInMonthTable : List Nat := [31, 28, 31, 30, 31, 30, 31, 31, 30, 31, 30, 31]

/-- `days_in_month`, of one of the months that are in the table. -/
def daysInMonth (year month : Nat) : Nat :=
  if month = 2 ∧ isLeapYear year then 29 else daysInMonthTable.getD (month - 1) 0

/-- `day_of_year`. The first day of a year is zero, the first month is one. -/
def dayOfYear (year month day : Nat) : Nat :=
  (List.range' 1 (month - 1)).foldl (fun result m => (result + daysInMonth year m) % wordSize) (wordSub day 1)

/-- `day_of_week`, by Zeller's congruence. -/
def dayOfWeek (year month day : Nat) : Nat :=
  let y := if month ≤ 2 then wordPred year else year
  let m := if month ≤ 2 then month + 12 else month
  let sum := (day + (13 * m + 8) % wordSize / 5 + y + y / 4) % wordSize
  (wordSub sum (y / 100) + y / 400) % wordSize % 7

/-! ### `kernel/time.c` -/

/-- `days_since_epoch`. There is no value where the assertion fails. -/
def daysSinceEpoch (year month day : Nat) : Option Nat :=
  if 1970 ≤ year then
    some ((List.range' 1970 (year - 1970)).foldl (fun days y => (days + daysInYear y) % wordSize)
      (dayOfYear year month day))
  else none

/-- `bcd_to_bin`. -/
def bcdToBin (bcd : BitVec 8) : BitVec 8 := (bcd &&& 0xf) + (bcd >>> 4) * 10

/-- What `rtc_now` reads of the clock. -/
structure ClockFields where
  year : Nat := 1970
  month : Nat := 1
  day : Nat := 1
  hour : Nat := 0
  minute : Nat := 0
  second : Nat := 0

/-- The registers of the clock, `cmos_read(idx)` for each of them, as `rtc_now` decodes them. -/
def readClock (cmos : BitVec 8 → BitVec 8) : ClockFields :=
  let status := cmos 0xb
  -- without this bit, the registers hold binary coded decimals
  let decode : BitVec 8 → Nat := fun data => if status &&& 0x4 = 0 then (bcdToBin data).toNat else data.toNat
  let hour := if status &&& 0x4 = 0 then (bcdToBin (cmos 0x4 &&& 0x7f)).toNat else (cmos 0x4).toNat
  { second := decode (cmos 0x0)
    minute := decode (cmos 0x2)
    hour := if status &&& 0x2 = 0 then
        let hour := hour % 12
        if hour &&& 0x80 ≠ 0 then hour + 12 else hour
      else hour
    day := decode (cmos 0x7)
    month := decode (cmos 0x8)
    year := decode (cmos 0x9) + 2000 }

/-- `rtc_now`, where the `n`-th reading of the register `0x0a` gives `updating n`, and the other registers are read when
    the update has finished. There is no value where the assertion of `days_since_epoch` fails. -/
def rtcNow (updating : Nat → BitVec 8) (cmos : BitVec 8 → BitVec 8) : Option Nat := do
  let updateFinished := (List.range 100).any fun n => updating n &&& 0x80 = 0
  let now : ClockFields := if updateFinished then readClock cmos else {}
  let days ← daysSinceEpoch now.year now.month now.day
  let hours := days * 24 + now.hour
  let minutes := hours * 60 + now.minute
  some (minutes * 60 + now.second)

end Chaotix
