/-
Module: Chaotix.Proofs.ClockDecoding
Layer: Proofs
Purpose: What `rtc_now` makes of the registers of the clock. The remainder of the hour modulo twelve is taken before
  the bit for the afternoon is looked at, and in decimals that bit is already gone, so a clock of twelve hours is right
  before noon only.
Imports: Chaotix.Proofs.CalendarRoundTrip
Trusted boundary: none
Main exports: HoldsTime, rtc_now_iff
-/
import Chaotix.Proofs.CalendarRoundTrip

namespace Chaotix

/-! ### The registers -/

/-- The byte of a register, as the status says: a number, or two decimals. -/
def encode (status : BitVec 8) (n : Nat) : BitVec 8 :=
  BitVec.ofNat 8 (if status &&& 0x4 = 0 then n / 10 * 16 + n % 10 else n)

/-- The byte of the hour: of twelve hours, the first one is twelve, and bit 7 says that it is after noon. -/
def encodeHour (status : BitVec 8) (hour : Nat) : BitVec 8 :=
  if status &&& 0x2 = 0 then
    encode status (if hour % 12 = 0 then 12 else hour % 12) ||| if 12 ≤ hour then 0x80 else 0
  else encode status hour

/-- The registers hold the date and the time in the encoding of the status. -/
structure HoldsTime (cmos : BitVec 8 → BitVec 8) (date : CivilDate) (time : TimeOfDay) : Prop where
  second : cmos 0x0 = encode (cmos 0xb) time.second
  minute : cmos 0x2 = encode (cmos 0xb) time.minute
  hour : cmos 0x4 = encodeHour (cmos 0xb) time.hour
  day : cmos 0x7 = encode (cmos 0xb) date.day
  month : cmos 0x8 = encode (cmos 0xb) date.month
  year : cmos 0x9 = encode (cmos 0xb) (date.year - 2000)

/-! ### Decoding -/

section Decoding

variable {cmos : BitVec 8 → BitVec 8} {date : CivilDate} {time : TimeOfDay}

/-- Two decimals are decoded. -/
theorem decode_encode (status : BitVec 8) {n : Nat} (h : n < 100) :
    (if status &&& 0x4 = 0 then (bcdToBin (encode status n)).toNat else (encode status n).toNat) = n := by
  have hall : ∀ n < 100,
      (bcdToBin (BitVec.ofNat 8 (n / 10 * 16 + n % 10))).toNat = n ∧ (BitVec.ofNat 8 n).toNat = n := by decide
  obtain ⟨hbcd, hbinary⟩ := hall n h
  unfold encode
  split
  · exact hbcd
  · exact hbinary

/-- The hour is decoded where there are twenty-four of them, or before noon. -/
theorem readClock_hour_iff (h : HoldsTime cmos date time) :
    (readClock cmos).hour = time.hour ↔ cmos 0xb &&& 0x2 ≠ 0 ∨ time.hour < 12 := by
  have hlt := time.hour_lt
  have hhour := h.hour
  generalize time.hour = hour at hlt hhour ⊢
  simp only [readClock, hhour]
  clear hhour
  generalize cmos 0xb = status
  unfold encodeHour encode
  by_cases hdecimal : status &&& 0x4 = 0 <;> by_cases htwelve : status &&& 0x2 = 0 <;>
    simp only [hdecimal, htwelve, if_true, if_false, ne_eq, not_true_eq_false, not_false_eq_true, true_or, iff_true,
      false_or] <;>
    revert hour <;> decide

/-- The other fields are decoded. -/
theorem readClock_fields (h : HoldsTime cmos date time) (hyear : 2000 ≤ date.year) (hlast : date.year ≤ 2099) :
    readClock cmos =
      { year := date.year, month := date.month, day := date.day, hour := (readClock cmos).hour,
        minute := time.minute, second := time.second } := by
  have hday := date.day_le_31
  have hmonth := date.month_le
  have hminute := time.minute_lt
  have hsecond := time.second_lt
  have hyears : date.year - 2000 + 2000 = date.year := Nat.sub_add_cancel hyear
  simp only [readClock, h.second, h.minute, h.day, h.month, h.year]
  rw [decode_encode _ (by omega), decode_encode _ (by omega), decode_encode _ (by omega), decode_encode _ (by omega),
    decode_encode _ (by omega), hyears]

end Decoding

/-! ### The theorem -/

/-- With the registers holding a date of the century and a time of the day, `rtc_now` returns the instant exactly where
    the clock has twenty-four hours, or before noon. -/
theorem rtc_now_iff {updating : Nat → BitVec 8} {cmos : BitVec 8 → BitVec 8} {date : CivilDate} {time : TimeOfDay}
    (hupdated : ∃ n < 100, updating n &&& 0x80 = 0) (hyear : 2000 ≤ date.year) (hlast : date.year ≤ 2099)
    (h : HoldsTime cmos date time) :
    rtcNow updating cmos = some (instant date time) ↔ cmos 0xb &&& 0x2 ≠ 0 ∨ time.hour < 12 := by
  have hfinished : ((List.range 100).any fun n => updating n &&& 0x80 = 0) = true := by
    obtain ⟨n, hn, hready⟩ := hupdated
    exact List.any_eq_true.2 ⟨n, List.mem_range.2 hn, decide_eq_true hready⟩
  have hdays : daysSinceEpoch date.year date.month date.day = some date.dayNumber :=
    daysSinceEpoch_eq (Nat.le_trans hlast (by decide))
  have hresult : rtcNow updating cmos = some
      (((date.dayNumber * 24 + (readClock cmos).hour) * 60 + time.minute) * 60 + time.second) := by
    simp only [rtcNow, hfinished, if_true]
    rw [readClock_fields h hyear hlast]
    simp only [hdays, Option.bind_eq_bind, Option.bind_some]
  rw [hresult, ← readClock_hour_iff h, Option.some.injEq, instant, TimeOfDay.seconds]
  change _ = date.dayNumber * 86400 + _ ↔ _
  omega

/-- The registers of a clock with twelve hours, in decimals, on the leap day of the year 2000 at one o'clock, before or
    after noon. -/
def leapDayRegisters (afternoon : Bool) (idx : BitVec 8) : BitVec 8 :=
  if idx = 0x4 then (if afternoon then 0x81 else 0x01)
  else if idx = 0x7 then 0x29
  else if idx = 0x8 then 0x02
  else 0

theorem zero_lt_sixty : 0 < 60 := by decide

/-- The beginning of an hour. -/
def oClock (hour : Fin 24) : TimeOfDay := ⟨hour, 0, 0, hour.isLt, zero_lt_sixty, zero_lt_sixty⟩

def beforeNoon : TimeOfDay := oClock 1

def afterNoon : TimeOfDay := oClock 13

theorem leapDayRegisters_hold :
    HoldsTime (leapDayRegisters false) leapDay beforeNoon ∧ HoldsTime (leapDayRegisters true) leapDay afterNoon :=
  ⟨⟨rfl, rfl, rfl, rfl, rfl, rfl⟩, ⟨rfl, rfl, rfl, rfl, rfl, rfl⟩⟩

theorem rtc_now_before_noon :
    rtcNow (fun _ => 0) (leapDayRegisters false) = some (instant leapDay beforeNoon) := by
  have hupdated : ∃ n < 100, (0 : BitVec 8) &&& 0x80 = 0 := ⟨0, by decide, by decide⟩
  have hyear : leapDay.year = 2000 := rfl
  exact (rtc_now_iff hupdated (by rw [hyear]) (by rw [hyear]; decide) leapDayRegisters_hold.1).2 (.inr (by decide))

/-- One o'clock after noon is taken for one o'clock before noon. -/
theorem rtc_now_after_noon :
    HoldsTime (leapDayRegisters true) leapDay afterNoon ∧
      rtcNow (fun _ => 0) (leapDayRegisters true) ≠ some (instant leapDay afterNoon) :=
  ⟨leapDayRegisters_hold.2, by decide⟩

end Chaotix
