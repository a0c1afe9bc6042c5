/-
Module: Chaotix.Proofs.CalendarRoundTrip
Layer: Proofs
Purpose: The kernel's number of a day, the userland's broken-down time, and the weekday are about one calendar: the
  years from 1970 on, each divided into its months. `days_since_epoch` adds up the lengths of the years and the months
  before a day, `gmtime_r` takes them off again.
Imports: Mathlib.Tactic, Chaotix.Lib.Periods, Chaotix.Userland.Time
Trusted boundary: none
Main exports: CivilDate, TimeOfDay, instant, brokenDown, calendar_round_trip
-/
import Mathlib.Tactic
import Chaotix.Lib.Periods
import Chaotix.Userland.Time

namespace Chaotix

/-! ### Dates -/

/-- A day of the calendar, from the year 1970 on. -/
structure CivilDate where
  year : Nat
  month : Nat
  day : Nat
  year_ge : 1970 ≤ year
  month_pos : 1 ≤ month
  month_le : month ≤ 12
  day_pos : 1 ≤ day
  day_le : day ≤ daysInMonth year month

/-- A time of a day. -/
structure TimeOfDay where
  hour : Nat
  minute : Nat
  second : Nat
  hour_lt : hour < 24
  minute_lt : minute < 60
  second_lt : second < 60

/-- The last year for which the round trip is stated. -/
abbrev lastYear : Nat := 1000000

/-- The days of the year before a day of the year. -/
def CivilDate.yearDay (date : CivilDate) : Nat :=
  ∑ m ∈ Finset.Ico 1 date.month, daysInMonth date.year m + (date.day - 1)

/-- The days since the epoch before a day. -/
def CivilDate.dayNumber (date : CivilDate) : Nat := ∑ y ∈ Finset.Ico 1970 date.year, daysInYear y + date.yearDay

/-- The seconds of the day before a time of the day. -/
def TimeOfDay.seconds (time : TimeOfDay) : Nat := time.hour * 3600 + time.minute * 60 + time.second

/-- The seconds since the epoch. -/
def instant (date : CivilDate) (time : TimeOfDay) : Nat := date.dayNumber * secondsPerDay + time.seconds

/-- The broken-down time of a date and a time of the day. -/
def brokenDown (date : CivilDate) (time : TimeOfDay) (tm : Tm) : Tm :=
  { tm with
    tmSec := time.second
    tmMin := time.minute
    tmHour := time.hour
    tmMday := date.day
    tmMon := (date.month : Int) - 1
    tmYear := (date.year : Int) - 1900
    tmWday := ((4 + date.dayNumber) % 7 : Nat)
    tmYday := dayOfYear date.year date.month date.day }

/-! ### Years and months -/

section Lengths

variable {year month day : Nat}

/-- The months of a year, by whether it is a leap year. -/
theorem sum_daysInMonth (year : Nat) {month : Nat} (hpos : 1 ≤ month) (hle : month ≤ 13) :
    ∑ m ∈ Finset.Ico 1 month, daysInMonth year m =
      [0, 31, 59, 90, 120, 151, 181, 212, 243, 273, 304, 334, 365].getD (month - 1) 0 +
        if 2 < month ∧ isLeapYear year then 1 else 0 := by
  unfold daysInMonth
  generalize isLeapYear year = leap
  have hall : ∀ leap : Bool, ∀ month ∈ Finset.Ico 1 14,
      (∑ m ∈ Finset.Ico 1 month, if m = 2 ∧ leap then 29 else daysInMonthTable.getD (m - 1) 0) =
        [0, 31, 59, 90, 120, 151, 181, 212, 243, 273, 304, 334, 365].getD (month - 1) 0 +
          if 2 < month ∧ leap then 1 else 0 := by decide
  exact hall leap month (Finset.mem_Ico.2 ⟨hpos, Nat.lt_succ_of_le hle⟩)

theorem sum_daysInMonth_year (year : Nat) : ∑ m ∈ Finset.Ico 1 13, daysInMonth year m = daysInYear year := by
  rw [sum_daysInMonth year (by decide) (by decide), daysInYear]
  cases isLeapYear year <;> rfl

theorem isLeapYear_iff (year : Nat) : isLeapYear year = true ↔ year % 4 = 0 ∧ (year % 100 ≠ 0 ∨ year % 400 = 0) := by
  simp [isLeapYear]

/-- The days by which the weekday of a date goes on up to the end of a year: one for each year and each leap day. -/
def weekdayShift (year : Nat) : Nat := year + year / 4 - year / 100 + year / 400

theorem weekdayShift_succ (year : Nat) :
    weekdayShift (year + 1) = weekdayShift year + 1 + if isLeapYear (year + 1) then 1 else 0 := by
  have hleap := isLeapYear_iff (year + 1)
  unfold weekdayShift
  split <;> rename_i hy <;> simp only [hy, Bool.false_eq_true, true_iff, false_iff] at hleap <;> omega

/-- The days of the years since the epoch, by weeks and weekdays. -/
theorem sum_daysInYear (h : 1970 ≤ year) :
    ∑ y ∈ Finset.Ico 1970 year, daysInYear y + 364 * 1970 + 2446 = 364 * year + weekdayShift (year - 1) := by
  induction year, h using Nat.le_induction with
  | base => rfl
  | succ y hle ih =>
      have hshift := weekdayShift_succ (y - 1)
      rw [Nat.sub_add_cancel (Nat.le_trans (by decide) hle)] at hshift
      rw [Finset.sum_Ico_succ_top hle, Nat.add_sub_cancel, daysInYear, hshift]
      split <;> omega

theorem CivilDate.yearDay_lt (date : CivilDate) : date.yearDay < daysInYear date.year := by
  have hmonths : ∑ m ∈ Finset.Ico 1 (date.month + 1), daysInMonth date.year m ≤ daysInYear date.year := by
    rw [← sum_daysInMonth_year]
    refine Finset.sum_le_sum_of_subset (Finset.Ico_subset_Ico_right ?_)
    exact Nat.succ_le_succ date.month_le
  rw [Finset.sum_Ico_succ_top date.month_pos] at hmonths
  have hpos := date.day_pos
  have hle := date.day_le
  unfold CivilDate.yearDay
  omega

theorem CivilDate.day_le_31 (date : CivilDate) : date.day ≤ 31 := by
  refine Nat.le_trans date.day_le ?_
  unfold daysInMonth
  generalize isLeapYear date.year = leap
  have hall : ∀ leap : Bool, ∀ m ∈ Finset.Icc 1 12,
      (if m = 2 ∧ leap then 29 else daysInMonthTable.getD (m - 1) 0) ≤ 31 := by decide
  exact hall leap date.month (Finset.mem_Icc.2 ⟨date.month_pos, date.month_le⟩)

/-- The number of a day is a word. -/
theorem CivilDate.dayNumber_lt {date : CivilDate} (h : date.year ≤ lastYear) : date.dayNumber < wordSize := by
  have hsum := sum_daysInYear date.year_ge
  have hday := date.yearDay_lt
  have hshift : weekdayShift (date.year - 1) ≤ 2 * date.year := by
    unfold weekdayShift
    omega
  have hdays : daysInYear date.year ≤ 366 := by
    unfold daysInYear
    split <;> decide
  have hwords : 400000000 < wordSize := by decide
  have hyears : date.year ≤ 1000000 := h
  unfold CivilDate.dayNumber
  omega

end Lengths

/-! ### The number of a day -/

/-- Adding up with wrapping sums, while the sum is a word. -/
theorem foldl_wrapping_sum (len : Nat → Nat) {i j a : Nat} (h : a + ∑ k ∈ Finset.Ico i j, len k < wordSize) :
    (List.range' i (j - i)).foldl (fun s k => (s + len k) % wordSize) a = a + ∑ k ∈ Finset.Ico i j, len k := by
  change a + ((List.range' i (j - i)).map len).sum < wordSize at h
  change _ = a + ((List.range' i (j - i)).map len).sum
  generalize List.range' i (j - i) = l at h ⊢
  induction l generalizing a with
  | nil => rfl
  | cons k l ih =>
      rw [List.map_cons, List.sum_cons, ← Nat.add_assoc] at h ⊢
      rw [List.foldl_cons, Nat.mod_eq_of_lt (Nat.lt_of_le_of_lt (Nat.le_add_right _ _) h), ih h]

theorem dayOfYear_eq (date : CivilDate) : dayOfYear date.year date.month date.day = date.yearDay := by
  have hyear : daysInYear date.year < wordSize := by
    unfold daysInYear
    split <;> decide
  have hlt := Nat.lt_trans date.yearDay_lt hyear
  rw [CivilDate.yearDay, Nat.add_comm] at hlt ⊢
  have hday : date.day < wordSize := Nat.lt_of_le_of_lt date.day_le_31 (by decide)
  rw [dayOfYear, wordSub_of_le date.day_pos hday]
  exact foldl_wrapping_sum (daysInMonth date.year) hlt

theorem daysSinceEpoch_eq {date : CivilDate} (h : date.year ≤ lastYear) :
    daysSinceEpoch date.year date.month date.day = some date.dayNumber := by
  have hlt := date.dayNumber_lt h
  rw [CivilDate.dayNumber, Nat.add_comm] at hlt ⊢
  rw [daysSinceEpoch, if_pos date.year_ge, dayOfYear_eq, foldl_wrapping_sum daysInYear hlt]

/-- Every day before the end of a year is the day of a date. -/
theorem exists_date {n last : Nat} (h : n < ∑ y ∈ Finset.Ico 1970 (last + 1), daysInYear y) :
    ∃ date : CivilDate, date.year ≤ last ∧ date.dayNumber = n := by
  obtain ⟨year, rest, hyear, hfalls⟩ := exists_falls h
  have hrest : rest < ∑ m ∈ Finset.Ico 1 13, daysInMonth year m := sum_daysInMonth_year year ▸ hfalls.lt
  obtain ⟨month, day, hmonth, hfalls'⟩ := exists_falls hrest
  have hn : n = ∑ y ∈ Finset.Ico 1970 year, daysInYear y + (∑ m ∈ Finset.Ico 1 month, daysInMonth year m + day) := by
    rw [← hfalls'.sum]
    exact hfalls.sum
  exact ⟨⟨year, month, day + 1, hfalls.le, hfalls'.le, Nat.le_of_lt_succ hmonth, Nat.succ_pos day, hfalls'.lt⟩,
    Nat.le_of_lt_succ hyear, hn.symm⟩

/-! ### The weekday -/

/-- Zeller's congruence, where no sum wraps. -/
theorem dayOfWeek_of_le {year month day : Nat} (hyear : 1970 ≤ year) (hlast : year ≤ lastYear) (hmonth : month ≤ 12)
    (hday : day ≤ 31) :
    dayOfWeek year month day =
      if month ≤ 2 then (day + (13 * (month + 12) + 8) / 5 + weekdayShift (year - 1)) % 7
      else (day + (13 * month + 8) / 5 + weekdayShift year) % 7 := by
  have hwords : 2000000 < wordSize := by decide
  have hno : ∀ y m, y ≤ lastYear → m ≤ 14 →
      (wordSub ((day + (13 * m + 8) % wordSize / 5 + y + y / 4) % wordSize) (y / 100) + y / 400) % wordSize % 7 =
        (day + (13 * m + 8) / 5 + weekdayShift y) % 7 := by
    intro y m hy hm
    have hy' : y ≤ 1000000 := hy
    have hm' : (13 * m + 8) % wordSize = 13 * m + 8 := Nat.mod_eq_of_lt (by omega)
    have hsum : day + (13 * m + 8) / 5 + y + y / 4 < wordSize := by omega
    have hshift : day + (13 * m + 8) / 5 + y + y / 4 - y / 100 + y / 400 = day + (13 * m + 8) / 5 + weekdayShift y := by
      unfold weekdayShift
      omega
    have hlt : day + (13 * m + 8) / 5 + y + y / 4 - y / 100 + y / 400 < wordSize := by omega
    rw [hm', Nat.mod_eq_of_lt hsum, wordSub_of_le (by omega) hsum, Nat.mod_eq_of_lt hlt, hshift]
  have hpred : wordPred year = year - 1 := wordPred_of_pos (by omega)
  by_cases hshift : month ≤ 2
  · simp only [dayOfWeek, hpred, if_pos hshift]
    exact hno (year - 1) (month + 12) (Nat.le_trans (Nat.sub_le _ _) hlast) (by omega)
  · simp only [dayOfWeek, if_neg hshift]
    exact hno year month hlast (by omega)

/-- The weekdays go on from a Thursday. -/
theorem dayOfWeek_eq {date : CivilDate} (h : date.year ≤ lastYear) :
    dayOfWeek date.year date.month date.day = (4 + date.dayNumber) % 7 := by
  have hyears := sum_daysInYear date.year_ge
  have hshift := weekdayShift_succ (date.year - 1)
  have hmonths := sum_daysInMonth date.year date.month_pos (Nat.le_succ_of_le date.month_le)
  have hyear := date.year_ge
  have hmonth := date.month_pos
  have hmonth' := date.month_le
  have hday := date.day_pos
  rw [Nat.sub_add_cancel (Nat.le_trans (by decide) hyear)] at hshift
  rw [dayOfWeek_of_le hyear h hmonth' date.day_le_31, CivilDate.dayNumber, CivilDate.yearDay, hmonths]
  generalize ∑ y ∈ Finset.Ico 1970 date.year, daysInYear y = days at hyears ⊢
  generalize date.month = month at hmonth hmonth' ⊢
  generalize isLeapYear date.year = leap at hshift ⊢
  cases leap <;> interval_cases month <;> simp at hshift ⊢ <;> omega

/-! ### The broken-down time -/

section BrokenDown

variable {year month t j r : Nat}

/-- The loop over the years finds the year in which the time lies. -/
theorem gmtimeYear_eq (h : Falls (fun y => daysInYear y * secondsPerDay) year t j r) (hj : j < wordSize) :
    gmtimeYear t year = (j, (r : Int)) := by
  induction h with
  | here hr =>
      rw [gmtimeYear, if_pos (by exact_mod_cast hr)]
  | @later year t j r hrest ih =>
      have hle : ¬((daysInYear year * secondsPerDay + t : Nat) : Int) < daysInYear year * secondsPerDay := by
        push_cast
        omega
      have hsub : ((daysInYear year * secondsPerDay + t : Nat) : Int) - daysInYear year * secondsPerDay = t := by
        push_cast
        omega
      rw [gmtimeYear, if_neg hle, hsub, wordSucc_of_lt hrest.le hj]
      exact ih hj

/-- The loop over the months finds the month in which the day lies. -/
theorem gmtimeMonth_eq (h : Falls (daysInMonth year) month t j r) (hj : j ≤ 12) :
    gmtimeMonth year month t = (j, (r : Int)) := by
  induction h with
  | @here month r hr =>
      rw [gmtimeMonth]
      split
      · rw [if_pos (by exact_mod_cast hr)]
      · rfl
  | @later month t j r hrest ih =>
      have hle : ¬((daysInMonth year month + t : Nat) : Int) < daysInMonth year month := by
        push_cast
        omega
      have hsub : ((daysInMonth year month + t : Nat) : Int) - daysInMonth year month = t := by
        push_cast
        omega
      rw [gmtimeMonth, if_pos (Nat.lt_of_lt_of_le hrest.le hj), if_neg hle, hsub]
      exact ih hj

theorem TimeOfDay.seconds_lt (time : TimeOfDay) : time.seconds < secondsPerDay := by
  have hhour := time.hour_lt
  have hminute := time.minute_lt
  have hsecond := time.second_lt
  simp only [TimeOfDay.seconds, secondsPerDay]
  omega

/-- The fields of a time of the day from its seconds. -/
theorem TimeOfDay.seconds_fields (time : TimeOfDay) :
    time.seconds % 60 = time.second ∧ time.seconds / 60 % 60 = time.minute ∧ time.seconds / 60 / 60 = time.hour := by
  have hminute := time.minute_lt
  have hsecond := time.second_lt
  simp only [TimeOfDay.seconds]
  omega

/-- Every second of a day is that of a time of the day. -/
theorem exists_timeOfDay {s : Nat} (h : s < secondsPerDay) : ∃ time : TimeOfDay, time.seconds = s := by
  have hday : s < 86400 := h
  have hhour : s / 60 / 60 < 24 := by omega
  refine ⟨⟨s / 60 / 60, s / 60 % 60, s % 60, hhour, Nat.mod_lt _ (by decide), Nat.mod_lt _ (by decide)⟩, ?_⟩
  simp only [TimeOfDay.seconds]
  omega

/-- The instant of a date lies in its year. -/
theorem instant_falls (date : CivilDate) (time : TimeOfDay) :
    Falls (fun y => daysInYear y * secondsPerDay) 1970 (instant date time) date.year
      (date.yearDay * secondsPerDay + time.seconds) := by
  have hlt : date.yearDay * secondsPerDay + time.seconds < daysInYear date.year * secondsPerDay := by
    have hday := Nat.mul_le_mul_right secondsPerDay (Nat.succ_le_of_lt date.yearDay_lt)
    have hseconds := time.seconds_lt
    rw [Nat.succ_mul] at hday
    omega
  have hinstant : instant date time = ∑ y ∈ Finset.Ico 1970 date.year, daysInYear y * secondsPerDay +
      (date.yearDay * secondsPerDay + time.seconds) := by
    rw [← Finset.sum_mul, ← Nat.add_assoc, ← Nat.add_mul]
    rfl
  rw [hinstant]
  exact falls_sum date.year_ge hlt

/-- The fields of `gmtime_r` at the instant of a date and a time of the day. -/
theorem gmtimeR_instant {date : CivilDate} (h : date.year ≤ lastYear) (time : TimeOfDay) (tm : Tm) :
    gmtimeR (instant date time) tm = some (brokenDown date time tm) := by
  have hyear : date.year < wordSize := Nat.lt_of_le_of_lt h (by decide)
  have hday : Falls (daysInMonth date.year) 1 date.yearDay date.month (date.day - 1) := by
    refine falls_sum date.month_pos ?_
    have hpos := date.day_pos
    have hle := date.day_le
    omega
  have hseconds := time.seconds_lt
  have hquot : (date.yearDay * secondsPerDay + time.seconds) / secondsPerDay = date.yearDay := by
    rw [Nat.add_comm, Nat.add_mul_div_right _ _ (by decide), Nat.div_eq_of_lt hseconds, Nat.zero_add]
  have hrem : (date.yearDay * secondsPerDay + time.seconds) % secondsPerDay = time.seconds := by
    rw [Nat.add_comm, Nat.add_mul_mod_self_right, Nat.mod_eq_of_lt hseconds]
  have hdivmod : divmodi64 ((date.yearDay * secondsPerDay + time.seconds : Nat) : Int) secondsPerDay =
      some ((date.yearDay : Int), (time.seconds : Int)) := by
    have hlt := date.yearDay_lt
    have hdays : daysInYear date.year ≤ 366 := by
      unfold daysInYear
      split <;> decide
    rw [divmodi64, ← Int.ofNat_tdiv, ← Int.ofNat_tmod, hquot, hrem, if_pos]
    exact ⟨by decide, by omega, by omega⟩
  have hmday : toUnsigned (((date.day - 1 : Nat) : Int) + 1) = date.day := by
    have hpos := date.day_pos
    have hle := date.day_le_31
    simp only [toUnsigned, wordSize]
    omega
  rw [gmtimeR, gmtimeYear_eq (instant_falls date time) hyear]
  simp only [hdivmod, gmtimeMonth_eq hday date.month_le, Option.bind_eq_bind, Option.bind_some, hmday,
    dayOfWeek_eq h]
  have hpos := date.day_pos
  obtain ⟨hsecond, hminute, hhour⟩ := time.seconds_fields
  have hcast : ((date.day - 1 : Nat) : Int) + 1 = date.day := by omega
  change some { tm with
    tmSec := ((time.seconds % 60 : Nat) : Int), tmMin := ((time.seconds / 60 % 60 : Nat) : Int),
    tmHour := ((time.seconds / 60 / 60 : Nat) : Int), tmMday := ((date.day - 1 : Nat) : Int) + 1,
    tmMon := (date.month : Int) - 1, tmYear := (date.year : Int) - 1900,
    tmWday := ((4 + date.dayNumber) % 7 : Nat), tmYday := date.yearDay } = _
  rw [hsecond, hminute, hhour, hcast, ← dayOfYear_eq]
  rfl

end BrokenDown

/-! ### The theorem -/

/-- The first instant after a year. -/
def endOfYear (year : Nat) : Nat := (∑ y ∈ Finset.Ico 1970 (year + 1), daysInYear y) * secondsPerDay

/-- Every instant before the end of a year is that of a date and a time of the day. -/
theorem exists_instant {t last : Nat} (h : t < endOfYear last) :
    ∃ (date : CivilDate) (time : TimeOfDay), date.year ≤ last ∧ instant date time = t := by
  have hday : t / secondsPerDay < ∑ y ∈ Finset.Ico 1970 (last + 1), daysInYear y := by
    refine Nat.div_lt_of_lt_mul ?_
    rw [Nat.mul_comm]
    exact h
  obtain ⟨date, hlast, hdays⟩ := exists_date hday
  obtain ⟨time, htime⟩ := exists_timeOfDay (Nat.mod_lt t (by decide))
  refine ⟨date, time, hlast, ?_⟩
  rw [instant, hdays, htime]
  exact Nat.div_add_mod' t secondsPerDay

/-- The calendar of the kernel and that of `gmtime_r` agree. `days_since_epoch` has a number for each date, and the
    fields of `gmtime_r` at a time of this day are those of the date and the time. Every instant up to the end of the
    last year is that of a date and a time of the day. The weekdays go on from a Thursday, the first day. -/
theorem calendar_round_trip :
    (∀ (date : CivilDate) (time : TimeOfDay) (tm : Tm), date.year ≤ lastYear →
      ∃ n, daysSinceEpoch date.year date.month date.day = some n ∧
        gmtimeR ((n * secondsPerDay + time.seconds : Nat) : Int) tm = some
          { tm with
            tmSec := time.second, tmMin := time.minute, tmHour := time.hour, tmMday := date.day,
            tmMon := (date.month : Int) - 1, tmYear := (date.year : Int) - 1900,
            tmWday := ((4 + n) % 7 : Nat), tmYday := dayOfYear date.year date.month date.day }) ∧
    (∀ (last t : Nat) (tm : Tm), last ≤ lastYear → t < endOfYear last →
      ∃ (date : CivilDate) (time : TimeOfDay) (n : Nat), date.year ≤ last ∧
        gmtimeR t tm = some (brokenDown date time tm) ∧
        daysSinceEpoch date.year date.month date.day = some n ∧ n * secondsPerDay + time.seconds = t) ∧
    (∀ (last n s : Nat) (tm : Tm), last ≤ lastYear → s < secondsPerDay → n * secondsPerDay + s < endOfYear last →
      (gmtimeR ((n * secondsPerDay + s : Nat) : Int) tm).map Tm.tmWday = some (((4 + n) % 7 : Nat) : Int)) := by
  refine ⟨fun date time tm hlast => ?_, fun last t tm hlast ht => ?_, fun last n s tm hlast hs hn => ?_⟩
  · exact ⟨date.dayNumber, daysSinceEpoch_eq hlast, gmtimeR_instant hlast time tm⟩
  · obtain ⟨date, time, hyear, rfl⟩ := exists_instant ht
    have hdate := Nat.le_trans hyear hlast
    exact ⟨date, time, date.dayNumber, hyear, gmtimeR_instant hdate time tm, daysSinceEpoch_eq hdate, rfl⟩
  · obtain ⟨date, time, hyear, hinstant⟩ := exists_instant hn
    have hday : date.dayNumber = n := by
      have hdiv := congrArg (· / secondsPerDay) hinstant
      simp only [instant] at hdiv
      rw [Nat.add_comm, Nat.add_mul_div_right _ _ (by decide), Nat.div_eq_of_lt time.seconds_lt, Nat.zero_add,
        Nat.add_comm (n * _), Nat.add_mul_div_right _ _ (by decide), Nat.div_eq_of_lt hs, Nat.zero_add] at hdiv
      exact hdiv
    rw [← hinstant, gmtimeR_instant (Nat.le_trans hyear hlast) time tm, ← hday]
    rfl

/-- A leap day. -/
def leapDay : CivilDate := ⟨2000, 2, 29, by decide, by decide, by decide, by decide, by decide⟩

def noon : TimeOfDay := ⟨12, 0, 0, by decide, by decide, by decide⟩

/-- The fields at noon of a leap day, and the weekday of the epoch. -/
theorem calendar_round_trip_leap_day :
    (∃ n, daysSinceEpoch leapDay.year leapDay.month leapDay.day = some n ∧
      (gmtimeR ((n * secondsPerDay + noon.seconds : Nat) : Int) {}).map (fun tm => (tm.tmYear, tm.tmMon, tm.tmMday)) =
        some (100, 1, 29)) ∧
    (gmtimeR ((0 * secondsPerDay + 0 : Nat) : Int) {}).map Tm.tmWday = some 4 := by
  obtain ⟨n, hdays, hfields⟩ := calendar_round_trip.1 leapDay noon {} (by decide)
  refine ⟨⟨n, hdays, ?_⟩, ?_⟩
  · rw [hfields]
    rfl
  · exact calendar_round_trip.2.2 1970 0 0 {} (by decide) (by decide) (by decide)

end Chaotix
