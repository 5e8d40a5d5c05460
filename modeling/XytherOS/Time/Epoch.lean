import XytherOS.Core.Status
import Mathlib.Tactic.IntervalCases
import Mathlib.Tactic.Ring

/-!
# Epoch — dates and seconds (`dev/chr/timer/epoch.c`, `rtc.c`)

A `time_t` counts seconds from 1970 on.  Both directions walk through the years and then through
the months one by one; `rtc_to_epoch` does it a second time, for the date that the clock chip shows.
All these loops add up lengths, or take them off again.
-/

namespace XytherOS
namespace Time
namespace Epoch

/-! ## Adding up lengths -/

/-- `for (i = m; i < m + n; i++) acc += len(i)` -/
def addUp (len : Nat → Int) : Nat → Nat → Int → Int
  | 0, _, acc => acc
  | n + 1, m, acc => addUp len n (m + 1) (acc + len m)

section AddUp

variable {len : Nat → Int}

theorem addUp_acc (len : Nat → Int) (n m : Nat) (acc : Int) :
    addUp len n m acc = acc + addUp len n m 0 := by
  induction n generalizing m acc with
  | zero => simp [addUp]
  | succ n ih =>
    rw [addUp, ih, addUp, ih (m + 1) (0 + len m)]
    ring

theorem addUp_succ (len : Nat → Int) (n m : Nat) (acc : Int) :
    addUp len (n + 1) m acc = len m + addUp len n (m + 1) acc := by
  rw [addUp, addUp_acc, addUp_acc len n (m + 1) acc]
  ring

theorem addUp_add (len : Nat → Int) (a b m : Nat) (acc : Int) :
    addUp len (a + b) m acc = addUp len a m 0 + addUp len b (m + a) acc := by
  induction a generalizing m with
  | zero => simp [addUp]
  | succ a ih =>
    rw [Nat.add_right_comm, addUp_succ, ih, addUp_succ, Nat.add_right_comm m 1 a,
      Nat.add_assoc m a 1, add_assoc]

theorem addUp_ge {c : Int} (hlen : ∀ i, c ≤ len i) (n m : Nat) (acc : Int) :
    acc + c * n ≤ addUp len n m acc := by
  induction n generalizing m with
  | zero => simp [addUp]
  | succ n ih =>
    have hm := hlen m
    have hn := ih (m + 1)
    rw [addUp_succ, Nat.cast_succ, mul_add, mul_one]
    omega

theorem addUp_le {c : Int} (hlen : ∀ i, len i ≤ c) (n m : Nat) (acc : Int) :
    addUp len n m acc ≤ acc + c * n := by
  induction n generalizing m with
  | zero => simp [addUp]
  | succ n ih =>
    have hm := hlen m
    have hn := ih (m + 1)
    rw [addUp_succ, Nat.cast_succ, mul_add, mul_one]
    omega

theorem addUp_nonneg (hlen : ∀ i, 0 ≤ len i) (n m : Nat) {acc : Int} (hacc : 0 ≤ acc) :
    0 ≤ addUp len n m acc := by
  have hge := addUp_ge hlen n m acc
  omega

/-- What does not reach the sum of the first `k` lengths ends within one of them. -/
theorem exists_addUp {k m : Nat} {days : Int} (h0 : 0 ≤ days) (h : days < addUp len k m 0) :
    ∃ n < k, ∃ r, 0 ≤ r ∧ r < len (m + n) ∧ addUp len n m r = days := by
  induction k generalizing m days with
  | zero => exact absurd h (by simpa [addUp] using h0)
  | succ k ih =>
    by_cases hm : len m ≤ days
    · rw [addUp_succ] at h
      have hrest : days - len m < addUp len k (m + 1) 0 := by omega
      rcases ih (by omega) hrest with ⟨n, hn, r, hr0, hr, hsum⟩
      refine ⟨n + 1, by omega, r, hr0, ?_, ?_⟩
      · rwa [show m + (n + 1) = m + 1 + n by omega]
      · rw [addUp_succ, hsum]
        omega
    · exact ⟨0, by omega, days, h0, by simpa using hm, rfl⟩

end AddUp

/-! ## The calendar -/

def isLeapYear (year : Nat) : Bool :=
  (year % 4 == 0 && year % 100 != 0) || year % 400 == 0

def daysInMonth : List Int := [31, 28, 31, 30, 31, 30, 31, 31, 30, 31, 30, 31]

def yearDays (year : Nat) : Int := if isLeapYear year then 366 else 365

/-- The days of the month with this index, February with its leap day. -/
def monthDays (year month : Nat) : Int :=
  daysInMonth.getD month 0 + if month = 1 ∧ isLeapYear year then 1 else 0

/-- The values that `epoch_to_datetime` stores. -/
structure Datetime where
  year : Nat
  month : Nat
  day : Int
  hour : Int
  minute : Int
  second : Int
  deriving DecidableEq, Repr

def yearLoop (year : Nat) (days : Int) : Nat × Int :=
  if yearDays year ≤ days then yearLoop (year + 1) (days - yearDays year) else (year, days)
termination_by days.toNat
decreasing_by
  rename_i h
  unfold yearDays at h ⊢
  split_ifs at h ⊢ <;> omega

def monthLoop (year month : Nat) (days : Int) : Except Fault (Nat × Int) :=
  if month < 12 then
    if monthDays year month ≤ days then monthLoop year (month + 1) (days - monthDays year month)
    else .ok (month, days)
  else .error .wildAccess
termination_by 12 - month

def toDatetime (epoch : Int) : Except Fault Datetime := do
  -- the number of days is an `int`
  let days := (BitVec.ofInt 32 (epoch.tdiv 86400)).toInt
  let (year, days) := yearLoop 1970 days
  let (month, days) ← monthLoop year 0 days
  return ⟨year, month, days + 1, (epoch.tdiv 3600).tmod 24, (epoch.tdiv 60).tmod 60, epoch.tmod 60⟩

def fromDatetime (year month day hour minute second : Int) : Int :=
  if year < 1970 ∨ month < 1 ∨ 12 < month ∨ day < 1 ∨ 31 < day then 0
  else
    let epoch := addUp yearDays (year.toNat - 1970) 1970 0
    let epoch := addUp (monthDays year.toNat) (month - 1).toNat 0 epoch
    (epoch + (day - 1)) * 86400 + hour * 3600 + minute * 60 + second

/-! ## The clock chip -/

/-- A date as `rtc_retrieve_time` stores it. -/
structure RtcTime where
  rtcYear : Nat
  rtcMon : Nat
  rtcDay : Nat
  rtcHrs : Nat
  rtcMin : Nat
  rtcSec : Nat
  deriving DecidableEq, Repr

/-- `days_in_month` of `rtc.c`, where months count from one. -/
def rtcDaysInMonth (month year : Nat) : Except Fault Int := do
  if month = 2 ∧ isLeapYear year then return 29
  inBounds (month - 1) 12
  return daysInMonth.getD (month - 1) 0

def addRtcMonths (year : Nat) : Nat → Nat → Int → Except Fault Int
  | 0, _, days => .ok days
  | n + 1, m, days => do
      let d ← rtcDaysInMonth m year
      addRtcMonths year n (m + 1) (days + d)

def rtcToEpoch (tm : RtcTime) : Except Fault Int := do
  let days := addUp yearDays (tm.rtcYear - 1970) 1970 0
  let days ← addRtcMonths tm.rtcYear (tm.rtcMon - 1) 1 days
  -- `days_since_epoch` is converted to an `int`
  let days := (BitVec.ofInt 32 (days + tm.rtcDay - 1)).toInt
  return days * 86400 + tm.rtcHrs * 3600 + tm.rtcMin * 60 + tm.rtcSec

/-! ## The loops undo each other -/

variable {epoch day hour minute second : Int} {year month : Nat}

theorem yearDays_ge (year : Nat) : 365 ≤ yearDays year := by
  unfold yearDays
  split_ifs <;> decide

theorem yearDays_le (year : Nat) : yearDays year ≤ 366 := by
  unfold yearDays
  split_ifs <;> decide

theorem monthDays_bounds (year month : Nat) : 0 ≤ monthDays year month ∧
    monthDays year month ≤ 31 ∧ (month < 12 → 28 ≤ monthDays year month) := by
  have hlist : ∀ m < 12, 28 ≤ daysInMonth.getD m 0 ∧ daysInMonth.getD m 0 ≤ 31 ∧
      (m = 1 → daysInMonth.getD m 0 ≤ 30) := by decide
  unfold monthDays
  by_cases hm : month < 12
  · have hdays := hlist month hm
    split_ifs with hleap
    · have hfeb := hdays.2.2 hleap.1
      omega
    · omega
  · rw [List.getD_eq_getElem?_getD, List.getElem?_eq_none (Nat.le_of_not_lt hm), if_neg (by omega)]
    exact ⟨by decide, by decide, fun h => absurd h hm⟩

theorem monthDays_nonneg (year month : Nat) : 0 ≤ monthDays year month :=
  (monthDays_bounds year month).1

theorem monthDays_le (year month : Nat) : monthDays year month ≤ 31 :=
  (monthDays_bounds year month).2.1

theorem months_year (year : Nat) : addUp (monthDays year) 12 0 0 = yearDays year := by
  simp only [addUp, monthDays, daysInMonth, yearDays]
  cases isLeapYear year <;> rfl

theorem yearLoop_addUp {n y : Nat} {r : Int} (h0 : 0 ≤ r) (h : r < yearDays (y + n)) :
    yearLoop y (addUp yearDays n y r) = (y + n, r) := by
  induction n generalizing y with
  | zero => rw [addUp, yearLoop, if_neg (by simpa using h), Nat.add_zero]
  | succ n ih =>
    have hidx : y + 1 + n = y + (n + 1) := by omega
    have hpos := addUp_nonneg (fun i => le_trans (by decide) (yearDays_ge i)) n (y + 1) h0
    rw [addUp_succ, yearLoop, if_pos (by omega), add_sub_cancel_left,
      ih (by rw [hidx]; exact h), hidx]

theorem monthLoop_addUp (year : Nat) {n m : Nat} {r : Int} (hm : m + n < 12) (h0 : 0 ≤ r)
    (h : r < monthDays year (m + n)) :
    monthLoop year m (addUp (monthDays year) n m r) = .ok (m + n, r) := by
  induction n generalizing m with
  | zero => rw [addUp, monthLoop, if_pos (by omega), if_neg (by simpa using h), Nat.add_zero]
  | succ n ih =>
    have hidx : m + 1 + n = m + (n + 1) := by omega
    have hpos := addUp_nonneg (monthDays_nonneg year) n (m + 1) h0
    rw [addUp_succ, monthLoop, if_pos (by omega), if_pos (by omega), add_sub_cancel_left,
      ih (by omega) (by rw [hidx]; exact h), hidx]

/-! ## Dates -/

/-- The seconds whose day number fits into an `int`. -/
def InRange (epoch : Int) : Prop := 0 ≤ epoch ∧ epoch < 2 ^ 31 * 86400

/-- A day of the calendar from 1970 on, its month counted from zero, and a time of that day. -/
structure Valid (year month : Nat) (day hour minute second : Int) : Prop where
  from1970 : 1970 ≤ year
  monthLt : month < 12
  dayPos : 1 ≤ day
  dayLe : day ≤ monthDays year month
  inHour : 0 ≤ hour ∧ hour < 24
  inMinute : 0 ≤ minute ∧ minute < 60
  inSecond : 0 ≤ second ∧ second < 60

/-- The day of a date, from 1970-01-01 on. -/
def dayNumber (year month : Nat) (day : Int) : Int :=
  addUp yearDays (year - 1970) 1970 (addUp (monthDays year) month 0 (day - 1))

def seconds (days hour minute second : Int) : Int :=
  days * 86400 + hour * 3600 + minute * 60 + second

theorem dayNumber_nonneg (year month : Nat) (hday : 1 ≤ day) : 0 ≤ dayNumber year month day :=
  addUp_nonneg (fun i => le_trans (by decide) (yearDays_ge i)) _ _
    (addUp_nonneg (monthDays_nonneg year) _ _ (by omega))

theorem fromDatetime_eq (hyear : 1970 ≤ year) (hmonth : month < 12) (h1 : 1 ≤ day)
    (h31 : day ≤ 31) : fromDatetime year (month + 1) day hour minute second =
      seconds (dayNumber year month day) hour minute second := by
  have hsum : addUp (monthDays year) month 0 (addUp yearDays (year - 1970) 1970 0) + (day - 1) =
      dayNumber year month day := by
    rw [dayNumber, addUp_acc, addUp_acc yearDays _ _ (addUp _ _ _ _), addUp_acc _ _ _ (day - 1)]
    ring
  rw [fromDatetime, if_neg (by omega)]
  simp only [Int.toNat_natCast, show ((month : Int) + 1 - 1).toNat = month by omega, hsum, seconds]

theorem Valid.fromDatetime (h : Valid year month day hour minute second) :
    fromDatetime year (month + 1) day hour minute second =
      seconds (dayNumber year month day) hour minute second :=
  fromDatetime_eq h.from1970 h.monthLt h.dayPos
    (le_trans h.dayLe (monthDays_le year month))

theorem Valid.toDatetime (h : Valid year month day hour minute second)
    (hrange : InRange (seconds (dayNumber year month day) hour minute second)) :
    toDatetime (seconds (dayNumber year month day) hour minute second) =
      .ok ⟨year, month, day, hour, minute, second⟩ := by
  rcases h with ⟨hyear, hmonth, hpos, hle, hhour, hminute, hsecond⟩
  have hnonneg := hrange.1
  have hlt := hrange.2
  have hfirst : 0 ≤ addUp (monthDays year) month 0 (day - 1) :=
    addUp_nonneg (monthDays_nonneg year) _ _ (by omega)
  -- the days up to this one are fewer than those of the year
  have hrest : addUp (monthDays year) month 0 (day - 1) < yearDays year := by
    have hsplit := addUp_add (monthDays year) month (11 - month + 1) 0 0
    have htail := addUp_nonneg (monthDays_nonneg year) (11 - month) (month + 1) (le_refl 0)
    rw [show month + (11 - month + 1) = 12 by omega, months_year, addUp_succ, Nat.zero_add] at hsplit
    rw [addUp_acc]
    omega
  have hdays : (BitVec.ofInt 32
      ((seconds (dayNumber year month day) hour minute second).tdiv 86400)).toInt =
        dayNumber year month day := by
    unfold seconds at hnonneg hlt ⊢
    rw [Int.tdiv_eq_ediv_of_nonneg hnonneg, BitVec.toInt_ofInt_eq_self (by decide)] <;> omega
  have hyears := yearLoop_addUp (n := year - 1970) (y := 1970) hfirst
    (by rw [Nat.add_sub_cancel' hyear]; exact hrest)
  have hmonths := monthLoop_addUp year (m := 0) (n := month) (r := day - 1) (by omega)
    (by omega) (by rw [Nat.zero_add]; omega)
  rw [Nat.add_sub_cancel' hyear, ← dayNumber] at hyears
  rw [Nat.zero_add] at hmonths
  simp only [Epoch.toDatetime, hdays, hyears, hmonths, ok_bind, pure_eq_ok]
  unfold seconds at hnonneg ⊢
  rw [Int.tdiv_eq_ediv_of_nonneg hnonneg, Int.tdiv_eq_ediv_of_nonneg hnonneg,
    Int.tmod_eq_emod_of_nonneg (by omega), Int.tmod_eq_emod_of_nonneg (by omega),
    Int.tmod_eq_emod_of_nonneg hnonneg, Except.ok.injEq, Datetime.mk.injEq]
  omega

theorem exists_valid (h : InRange epoch) : ∃ year month day hour minute second,
    Valid year month day hour minute second ∧
      seconds (dayNumber year month day) hour minute second = epoch := by
  have h0 := h.1
  have hmany : epoch / 86400 < addUp yearDays ((epoch / 86400).toNat + 1) 1970 0 := by
    have hge := addUp_ge (c := 1) (fun i => le_trans (by decide) (yearDays_ge i))
      ((epoch / 86400).toNat + 1) 1970 0
    omega
  rcases exists_addUp (by omega) hmany with ⟨n, -, r, hr0, hr, hsum⟩
  rw [← months_year] at hr
  rcases exists_addUp hr0 hr with ⟨m, hm, d, hd0, hd, hmonths⟩
  rw [Nat.zero_add] at hd
  refine ⟨1970 + n, m, d + 1, epoch / 3600 % 24, epoch / 60 % 60, epoch % 60,
    ⟨by omega, hm, by omega, by omega, by omega, by omega, by omega⟩, ?_⟩
  rw [dayNumber, Nat.add_sub_cancel_left, add_sub_cancel_right, hmonths, hsum, seconds]
  omega

/-! ## The round trips -/

/-- Every time in range is broken down into a date, and that date, with its month counted from one,
is the same time again. -/
theorem fromDatetime_toDatetime (h : InRange epoch) :
    ∃ d, toDatetime epoch = .ok d ∧ Valid d.year d.month d.day d.hour d.minute d.second ∧
      fromDatetime d.year (d.month + 1) d.day d.hour d.minute d.second = epoch := by
  rcases exists_valid h with ⟨year, month, day, hour, minute, second, hvalid, rfl⟩
  exact ⟨_, hvalid.toDatetime h, hvalid, hvalid.fromDatetime⟩

theorem fromDatetime_toDatetime_leap :
    InRange 951782400 ∧ ∃ d, toDatetime 951782400 = .ok d ∧
      Valid d.year d.month d.day d.hour d.minute d.second ∧
        fromDatetime d.year (d.month + 1) d.day d.hour d.minute d.second = 951782400 := by
  have h : InRange 951782400 := ⟨by decide, by decide⟩
  exact ⟨h, fromDatetime_toDatetime h⟩

theorem addRtcMonths_eq (year : Nat) {n m : Nat} (hm : m + n ≤ 12) (days : Int) :
    addRtcMonths year n (m + 1) days = .ok (addUp (monthDays year) n m days) := by
  induction n generalizing m days with
  | zero => rfl
  | succ n ih =>
    have hone : rtcDaysInMonth (m + 1) year = .ok (monthDays year m) := by
      unfold rtcDaysInMonth monthDays
      by_cases hleap : m + 1 = 2 ∧ isLeapYear year
      · have hfeb : m = 1 := by omega
        subst hfeb
        rw [if_pos hleap, if_pos ⟨rfl, hleap.2⟩]
        rfl
      · rw [if_neg hleap, if_neg (by rwa [show m = 1 ↔ m + 1 = 2 by omega])]
        simp [inBounds, show m < 12 by omega]
    rw [addRtcMonths, hone, ok_bind, ih (by omega), addUp]

/-- The date that the clock chip shows survives the way through `rtc_to_epoch` and
`epoch_to_datetime`, but for its month, which counts from zero behind it. -/
theorem toDatetime_rtcToEpoch {tm : RtcTime} (hyear : tm.rtcYear < 2 ^ 16)
    (hmon : tm.rtcMon = month + 1)
    (hvalid : Valid tm.rtcYear month tm.rtcDay tm.rtcHrs tm.rtcMin tm.rtcSec) :
    (rtcToEpoch tm >>= toDatetime) =
      .ok ⟨tm.rtcYear, month, tm.rtcDay, tm.rtcHrs, tm.rtcMin, tm.rtcSec⟩ := by
  have hmonth := hvalid.monthLt
  have hlast := le_trans hvalid.dayLe (monthDays_le _ _)
  have hnonneg := dayNumber_nonneg tm.rtcYear month hvalid.dayPos
  have hnum : addUp (monthDays tm.rtcYear) month 0 (addUp yearDays (tm.rtcYear - 1970) 1970 0) +
      tm.rtcDay - 1 = dayNumber tm.rtcYear month tm.rtcDay := by
    rw [dayNumber, addUp_acc, addUp_acc yearDays _ _ (addUp _ _ _ _), addUp_acc _ _ _ (_ - 1)]
    ring
  -- a year of sixteen bits is far from the end of the range
  have hmax : dayNumber tm.rtcYear month tm.rtcDay < 2 ^ 31 := by
    have hyears := addUp_le yearDays_le (tm.rtcYear - 1970) 1970 0
    have hmonths := addUp_le (monthDays_le tm.rtcYear) month 0 0
    rw [← hnum, addUp_acc]
    omega
  have hrange : InRange (seconds (dayNumber tm.rtcYear month tm.rtcDay) tm.rtcHrs tm.rtcMin
      tm.rtcSec) := by
    have hhour := hvalid.inHour
    have hminute := hvalid.inMinute
    have hsecond := hvalid.inSecond
    unfold InRange seconds
    omega
  have hdays := addRtcMonths_eq tm.rtcYear (n := month) (m := 0) (by omega)
    (addUp yearDays (tm.rtcYear - 1970) 1970 0)
  have hepoch : rtcToEpoch tm = .ok (seconds (dayNumber tm.rtcYear month tm.rtcDay) tm.rtcHrs
      tm.rtcMin tm.rtcSec) := by
    rw [rtcToEpoch, hmon, Nat.add_sub_cancel]
    simp only [hdays, ok_bind, pure_eq_ok, hnum]
    rw [BitVec.toInt_ofInt_eq_self (by decide) (by omega) (by omega)]
    rfl
  rw [hepoch, ok_bind]
  exact hvalid.toDatetime hrange

theorem toDatetime_rtcToEpoch_leap :
    (rtcToEpoch ⟨2024, 2, 29, 23, 59, 58⟩ >>= toDatetime) = .ok ⟨2024, 1, 29, 23, 59, 58⟩ :=
  toDatetime_rtcToEpoch (by decide) rfl
    ⟨by decide, by decide, by decide, by decide, by decide, by decide, by decide⟩

end Epoch
end Time
end XytherOS
