-- SUMMARY: Ticks and calendar dates of the real-time clock, and when converting one to the other and back agree.
import W7PS4.Lib.Calendar
import W7PS4.Lib.Machine
import Mathlib.Tactic.Ring

/-!
# Ticks and dates

A tick counts microseconds from 0001-01-01. `sceRtcGetTick` and `sceRtcSetTick` shift
the year to begin in March, so that the leap day comes last, and count in quarters of
days within a century. The time of day is added up in `int`s, of which the minutes in
microseconds do not fit from the 36th minute on.
-/

namespace Rtc

open Calendar (daysBeforeYear daysInMonth isLeap)

inductive RtcResult where
  | ok
  | invalidPointer
  | invalidYear
  | invalidMonth
  | invalidDay
  | invalidHour
  | invalidMinute
  | invalidSecond
  | invalidMicrosecond
deriving DecidableEq, Repr

structure OrbisRtcDateTime where
  year : Nat
  month : Nat
  day : Nat
  hour : Nat
  minute : Nat
  second : Nat
  microsecond : Nat
deriving DecidableEq, Repr

/-- A null pointer is `none`. -/
def sceRtcCheckValid : Option OrbisRtcDateTime → RtcResult
  | none => .invalidPointer
  | some t =>
    if t.year = 0 ∨ t.year > 9999 then .invalidYear
    else if t.month = 0 ∨ t.month > 12 then .invalidMonth
    else if t.day = 0 then .invalidDay
    else if t.day > daysInMonth t.year t.month then .invalidDay
    else if t.hour ≥ 24 then .invalidHour
    else if t.minute ≥ 60 then .invalidMinute
    else if t.second ≥ 60 then .invalidSecond
    else if t.microsecond ≥ 1000000 then .invalidMicrosecond
    else .ok

/-! ## Dates to ticks -/

/-- The year as it begins in March. -/
def shiftMonth (t : OrbisRtcDateTime) : OrbisRtcDateTime :=
  if t.month > 2 then { t with month := t.month - 3 }
  else { t with month := t.month + 9, year := t.year - 1 }

/-- The days of a date with shifted month, as an `int`. -/
def shiftedDays (t : OrbisRtcDateTime) : Int :=
  let c := t.year / 100
  let ya := t.year - 100 * c
  S32.wrap (S32.wrap (146097 * c) / 4 + S32.wrap (1461 * ya) / 4 + S32.wrap (153 * t.month + 2) / 5 + t.day)

/-- The time of day. Only the product with `3600000000` is wider than an `int`. -/
def timeOfDay (t : OrbisRtcDateTime) : Int :=
  t.hour * 3600000000 + S32.wrap (t.minute * 60000000) + S32.wrap (t.second * 1000000) + t.microsecond

/-- The result comes with `*pTime` and `*pTick` after the call. -/
def sceRtcGetTick (pTime : Option OrbisRtcDateTime) (pTick : Option Nat) :
    RtcResult × Option OrbisRtcDateTime × Option Nat :=
  match pTime, pTick with
  | some t, some _ =>
    if sceRtcCheckValid (some t) ≠ .ok then (sceRtcCheckValid (some t), pTime, pTick)
    else
      let t := shiftMonth t
      let days := U64.sub (U64.ofInt (shiftedDays t)) 307
      let days := days * 86400000000 % 2 ^ 64
      let msec := U64.ofInt (timeOfDay t)
      (.ok, some t, some (U64.add days msec))
  | _, _ => (.invalidPointer, pTime, pTick)

/-! ## Ticks to dates -/

/-- The year, the month and the day, from quarters of days. -/
def dateOfQuarters (j : Nat) : Nat × Nat × Nat :=
  let ly := j / 146097
  let j := U32.sub j (U32.mul 146097 ly)
  let ld := j / 4
  let j := U32.add (U32.mul ld 4) 3 / 1461
  let ld := U32.sub (U32.add (U32.mul ld 4) 7) (U32.mul 1461 j) / 4
  let lm := U32.sub (U32.mul 5 ld) 3 / 153
  let ld := U32.sub (U32.add (U32.mul 5 ld) 2) (U32.mul 153 lm) / 5
  let ly := U32.add (U32.mul 100 ly) j
  if lm < 10 then (ly, lm + 3, ld) else (U32.add ly 1, lm - 9, ld)

/-- The date that is `days` days after 0001-01-01. -/
def dateOfDays (days : Nat) : Nat × Nat × Nat :=
  let days := U64.add days 307
  dateOfQuarters (U64.sub (days * 4 % 2 ^ 64) 1 % 2 ^ 32)

/-- The result comes with `*pTime` after the call; the fields are `u16` but for the microseconds. -/
def sceRtcSetTick (pTime : Option OrbisRtcDateTime) (pTick : Option Nat) :
    RtcResult × Option OrbisRtcDateTime :=
  match pTime, pTick with
  | some _, some tick =>
    let msec := tick % 86400000000
    let date := dateOfDays (tick / 86400000000)
    (.ok, some
      { year := date.1 % 2 ^ 16
        month := date.2.1 % 2 ^ 16
        day := date.2.2 % 2 ^ 16
        hour := msec / 3600000000 % 2 ^ 16
        minute := msec % 3600000000 / 60000000 % 2 ^ 16
        second := msec % 3600000000 % 60000000 / 1000000 % 2 ^ 16
        microsecond := msec % 3600000000 % 60000000 % 1000000 % 2 ^ 32 })
  | _, _ => (.invalidPointer, pTime)

/-! ## The calendar's count -/

def microsecondsOfDay (t : OrbisRtcDateTime) : Nat :=
  ((t.hour * 60 + t.minute) * 60 + t.second) * 1000000 + t.microsecond

/-- The microseconds from 0001-01-01T00:00:00. -/
def microseconds (t : OrbisRtcDateTime) : Nat :=
  Calendar.dayNumber t.year t.month t.day * 86400000000 + microsecondsOfDay t

/-- What `sceRtcCheckValid` accepts. -/
structure IsValid (t : OrbisRtcDateTime) : Prop where
  date : Calendar.Valid t.year t.month t.day
  year_le : t.year ≤ 9999
  hour_lt : t.hour < 24
  minute_lt : t.minute < 60
  second_lt : t.second < 60
  microsecond_lt : t.microsecond < 1000000

variable {t : OrbisRtcDateTime} {p : Shifted} {days : Nat}

theorem sceRtcCheckValid_eq_ok : sceRtcCheckValid (some t) = .ok ↔ IsValid t := by
  constructor
  · intro h
    simp only [sceRtcCheckValid] at h
    repeat' split at h
    all_goals try cases h
    exact ⟨⟨by omega, by omega, by omega, by omega, by omega⟩, by omega, by omega, by omega, by omega,
      by omega⟩
  · rintro ⟨⟨hy, hm, hm', hd, hd'⟩, hy', hh, hmin, hs, hmic⟩
    simp only [sceRtcCheckValid]
    repeat rw [if_neg (by omega)]

theorem IsValid.day_le (h : IsValid t) : t.day ≤ 31 :=
  h.date.day_le.trans (Calendar.daysInMonth_le_31 _ _)

/-- Quarters of days: a century is 146097 of them and a year 1461. -/
theorem quarters_eq (year : Nat) :
    146097 * (year / 100) / 4 + 1461 * (year - 100 * (year / 100)) / 4 =
      daysBeforeYear (year + 1) := by
  have hyears := Calendar.daysBeforeYear_succ year
  have hcentury : 146097 * (year / 100) / 4 = 36524 * (year / 100) + year / 400 := by omega
  have hyear : 1461 * (year - 100 * (year / 100)) / 4 =
      365 * (year - 100 * (year / 100)) + (year / 4 - 25 * (year / 100)) := by omega
  omega

theorem shiftedDays_eq (hyear : t.year ≤ 9999) (hmonth : t.month ≤ 11) (hday : t.day ≤ 31) :
    shiftedDays t = (daysBeforeYear (t.year + 1) + (153 * t.month + 2) / 5 + t.day : Nat) := by
  simp only [shiftedDays]
  rw [S32.wrap_of_fits (n := 146097 * _) (by omega) (by omega),
    S32.wrap_of_fits (n := 1461 * _) (by omega) (by omega),
    S32.wrap_of_fits (n := 153 * _ + 2) (by omega) (by omega), S32.wrap_of_fits (by omega) (by omega),
    ← quarters_eq t.year]
  push_cast
  rfl

theorem shiftedDays_shiftMonth (h : IsValid t) :
    shiftedDays (shiftMonth t) = (Calendar.dayNumber t.year t.month t.day + 307 : Nat) := by
  obtain ⟨⟨hy, hm, hm', hd, -⟩, hy', -⟩ := id h
  have hday := h.day_le
  unfold shiftMonth Calendar.dayNumber
  split
  · next hmarch =>
    rw [shiftedDays_eq (by simpa using hy') (by simp only; omega) (by simpa using hday)]
    have hmonths := @Calendar.daysBeforeMonth_of_three_le t.year t.month hmarch hm'
    obtain ⟨y, hyear⟩ : ∃ y, t.year = y + 1 := ⟨t.year - 1, by omega⟩
    simp only [hyear, daysBeforeYear] at hmonths ⊢
    omega
  · next hmarch =>
    rw [shiftedDays_eq (by simp only; omega) (by simp only; omega) (by simpa using hday)]
    have hmonths := @Calendar.daysBeforeMonth_of_lt_three t.year t.month hm (by omega)
    have hyear : t.year - 1 + 1 = t.year := by omega
    simp only [hyear]
    omega

/-- From the 36th minute on the product wraps. -/
theorem timeOfDay_eq (h : IsValid t) :
    timeOfDay t = (microsecondsOfDay t : Int) - if t.minute < 36 then 0 else 2 ^ 32 := by
  obtain ⟨-, -, hhour, hminute, hsecond, hmicro⟩ := h
  unfold timeOfDay microsecondsOfDay
  rw [S32.wrap_of_fits (n := t.second * 1000000) (by omega) (by omega)]
  split
  · rw [S32.wrap_of_fits (by omega) (by omega)]
    push_cast
    ring
  · have hwrap : S32.wrap (t.minute * 60000000) = t.minute * 60000000 - 2 ^ 32 := by
      unfold S32.wrap
      rw [← Int.sub_bmod_right]
      exact Int.bmod_eq_of_le (by omega) (by omega)
    rw [hwrap]
    push_cast
    ring

/-! ## Days to dates -/

/-- The days from 0001-01-01 to 10000-01-01. -/
def DAYS_BELOW_10000 : Nat := 3652059

theorem daysBeforeYear_10000 : daysBeforeYear 10000 = DAYS_BELOW_10000 := by
  have h := Calendar.daysBeforeYear_succ 9999
  norm_num at h
  unfold DAYS_BELOW_10000
  omega

/-- The century, the year in it, the month from March and the day. -/
structure Shifted where
  century : Nat
  year : Nat
  month : Nat
  day : Nat

/-- The parts of a date that `n` days, counted from 0000-03-00, make up. -/
structure Shifted.Splits (p : Shifted) (n : Nat) : Prop where
  days : n = 146097 * p.century / 4 + 1461 * p.year / 4 + (153 * p.month + 2) / 5 + p.day
  year_lt : p.year < 100
  month_lt : p.month < 12
  day_pos : 1 ≤ p.day
  /-- Every month from March ends where the next one begins. -/
  month_end : p.month < 11 → (153 * p.month + 2) / 5 + p.day ≤ (153 * (p.month + 1) + 2) / 5
  /-- February has a 29th day only at the end of a fourth year, and of a fourth century. -/
  february : p.month = 11 → p.day ≤ 28 ∨
    p.day = 29 ∧ p.year % 4 = 3 ∧ (p.year = 99 → p.century % 4 = 3)

/-- The numbers that `dateOfQuarters` computes, without wrapping. -/
def splitQuarters (j : Nat) : Shifted :=
  let ld := j % 146097 / 4
  let year := (4 * ld + 3) / 1461
  let day := (4 * ld + 7 - 1461 * year) / 4
  let month := (5 * day - 3) / 153
  ⟨j / 146097, year, month, (5 * day + 2 - 153 * month) / 5⟩

theorem splitQuarters_splits {n : Nat} (hn : 1 ≤ n) : (splitQuarters (4 * n - 1)).Splits n := by
  -- The day of the century, the day of the year and the day of the month, from the outside in.
  obtain ⟨c, hc⟩ : ∃ c, c = (4 * n - 1) / 146097 := ⟨_, rfl⟩
  obtain ⟨ld, hld⟩ : ∃ ld, ld = (4 * n - 1) % 146097 / 4 := ⟨_, rfl⟩
  obtain ⟨y, hy⟩ : ∃ y, y = (4 * ld + 3) / 1461 := ⟨_, rfl⟩
  obtain ⟨d, hd⟩ : ∃ d, d = (4 * ld + 7 - 1461 * y) / 4 := ⟨_, rfl⟩
  obtain ⟨m, hm⟩ : ∃ m, m = (5 * d - 3) / 153 := ⟨_, rfl⟩
  have hcentury : n = 146097 * c / 4 + (ld + 1) := by omega
  have hyear : ld + 1 = 1461 * y / 4 + d := by omega
  have hday : 1 ≤ d ∧ d ≤ 366 := by omega
  have hmonth : d = (153 * m + 2) / 5 + (5 * d + 2 - 153 * m) / 5 := by omega
  have hsplit : splitQuarters (4 * n - 1) = ⟨c, y, m, (5 * d + 2 - 153 * m) / 5⟩ := by
    simp only [splitQuarters, ← hld, ← hc, ← hy, ← hd, ← hm]
  rw [hsplit]
  refine ⟨?_, ?_, ?_, ?_, ?_, ?_⟩
  · simp only
    omega
  · simp only
    omega
  · simp only
    omega
  · simp only
    omega
  · simp only
    omega
  · intro hfeb
    simp only at hfeb ⊢
    subst hfeb
    clear hsplit hcentury
    by_cases hlast : d = 366
    · refine .inr ⟨by omega, by omega, fun hy99 => ?_⟩
      -- The 36525th day of a century is there only when four centuries are complete.
      have hcount : 4 * n - 1 = 146097 * c + (4 * n - 1) % 146097 := by omega
      have hend : ld = 36524 := by omega
      have hrest : (4 * n - 1) % 146097 = 146096 := by omega
      omega
    · exact .inl (by omega)

/-- The date with the year beginning in January. -/
def Shifted.date (p : Shifted) : Nat × Nat × Nat :=
  if p.month < 10 then (100 * p.century + p.year, p.month + 3, p.day)
  else (100 * p.century + p.year + 1, p.month - 9, p.day)

theorem Shifted.Splits.years {n : Nat} (hp : p.Splits n) : 146097 * p.century / 4 + 1461 * p.year / 4 =
      daysBeforeYear (100 * p.century + p.year + 1) := by
  have hyear := hp.year_lt
  have h := quarters_eq (100 * p.century + p.year)
  have hcentury : (100 * p.century + p.year) / 100 = p.century := by omega
  have hrest : 100 * p.century + p.year - 100 * p.century = p.year := by omega
  rwa [hcentury, hrest] at h

/-- The first shifted year reaches into the calendar only from January on. -/
theorem Shifted.Splits.year_pos (hp : p.Splits (days + 307))
    (hmonth : p.month < 10) : 1 ≤ 100 * p.century + p.year := by
  have hend := hp.month_end (by omega)
  have hdays := hp.days
  by_contra hzero
  have hc : p.century = 0 := by omega
  have hy : p.year = 0 := by omega
  rw [hc, hy] at hdays
  omega

theorem Shifted.Splits.dayNumber (hp : p.Splits (days + 307)) :
    Calendar.dayNumber p.date.1 p.date.2.1 p.date.2.2 = days := by
  have hyears := hp.years
  have hdays := hp.days
  have hpos := hp.day_pos
  have hmonth := hp.month_lt
  unfold Shifted.date Calendar.dayNumber
  split
  · next hmarch =>
    have hend := hp.month_end (by omega)
    have hmonths := @Calendar.daysBeforeMonth_of_three_le (100 * p.century + p.year) (p.month + 3)
      (by omega) (by omega)
    obtain ⟨y, hy⟩ : ∃ y, 100 * p.century + p.year = y + 1 :=
      ⟨100 * p.century + p.year - 1, by have := hp.year_pos hmarch; omega⟩
    have hthree : p.month + 3 - 3 = p.month := by omega
    rw [hthree] at hmonths
    simp only [hy, daysBeforeYear] at hyears hmonths ⊢
    omega
  · next hmarch =>
    have hmonths := @Calendar.daysBeforeMonth_of_lt_three (100 * p.century + p.year + 1) (p.month - 9)
      (by omega) (by omega)
    simp only
    omega

theorem Shifted.Splits.valid {p : Shifted} {days : Nat} (hp : p.Splits (days + 307)) :
    Calendar.Valid p.date.1 p.date.2.1 p.date.2.2 := by
  have hpos := hp.day_pos
  have hmonth := hp.month_lt
  have hend := hp.month_end
  have hfeb := hp.february
  have hyear := hp.year_lt
  unfold Shifted.date
  split
  · next hmarch =>
    refine ⟨hp.year_pos hmarch, by simp only; omega, by simp only; omega, hpos, ?_⟩
    · have hend := hend (by omega)
      have hmonths : p.month = 0 ∨ p.month = 1 ∨ p.month = 2 ∨ p.month = 3 ∨ p.month = 4 ∨ p.month = 5 ∨
          p.month = 6 ∨ p.month = 7 ∨ p.month = 8 ∨ p.month = 9 := by omega
      rcases hmonths with hm | hm | hm | hm | hm | hm | hm | hm | hm | hm <;>
        simp only [hm, daysInMonth] at hend ⊢ <;> omega
  · next hmarch =>
    refine ⟨by simp only; omega, by simp only; omega, by simp only; omega, hpos, ?_⟩
    obtain hm | hm : p.month = 10 ∨ p.month = 11 := by omega
    · have hend := hend (by omega)
      simp only [hm, daysInMonth] at hend ⊢
      omega
    · simp only [hm, daysInMonth]
      cases hfeb hm with
      | inl h => split <;> omega
      | inr h =>
        -- The year after the shifted one is a leap year.
        have hleap : isLeap (100 * p.century + p.year + 1) = true := by
          rw [Calendar.isLeap_iff]
          obtain ⟨-, hfour, hcentury⟩ := h
          omega
        rw [if_pos hleap]
        omega

theorem dateOfQuarters_eq {j : Nat} (hj : j < 2 ^ 32) : dateOfQuarters j = (splitQuarters j).date := by
  have hcentury : U32.sub j (U32.mul 146097 (j / 146097)) = j % 146097 := by
    rw [U32.mul_of_lt (by omega), U32.sub_of_le (by omega) (by omega)]
    omega
  simp only [dateOfQuarters, splitQuarters, Shifted.date, hcentury]
  obtain ⟨ld, hld⟩ : ∃ ld, ld = j % 146097 / 4 := ⟨_, rfl⟩
  have hld' : ld ≤ 36524 := by omega
  have hfour : U32.mul ld 4 = 4 * ld := by
    rw [U32.mul_of_lt (by omega)]
    omega
  simp only [← hld, hfour]
  rw [U32.add_of_lt (b := 3) (by omega), U32.add_of_lt (b := 7) (by omega)]
  obtain ⟨y, hy⟩ : ∃ y, y = (4 * ld + 3) / 1461 := ⟨_, rfl⟩
  have hy' : y ≤ 99 := by omega
  simp only [← hy]
  rw [U32.mul_of_lt (a := 1461) (by omega), U32.sub_of_le (b := 1461 * y) (by omega) (by omega)]
  obtain ⟨d, hd⟩ : ∃ d, d = (4 * ld + 7 - 1461 * y) / 4 := ⟨_, rfl⟩
  have hd' : 1 ≤ d ∧ d ≤ 366 := by omega
  simp only [← hd]
  rw [U32.mul_of_lt (a := 5) (by omega), U32.sub_of_le (b := 3) (by omega) (by omega)]
  obtain ⟨m, hm⟩ : ∃ m, m = (5 * d - 3) / 153 := ⟨_, rfl⟩
  have hm' : m ≤ 11 := by omega
  simp only [← hm]
  rw [U32.add_of_lt (b := 2) (by omega), U32.mul_of_lt (a := 153) (by omega),
    U32.sub_of_le (b := 153 * m) (by omega) (by omega), U32.mul_of_lt (a := 100) (by omega),
    U32.add_of_lt (b := y) (by omega), U32.add_of_lt (b := 1) (by omega)]

theorem dateOfDays_eq (hdays : days < 2 ^ 28) :
    dateOfDays days = (splitQuarters (4 * (days + 307) - 1)).date := by
  have hsub : U64.sub ((days + 307) * 4 % 2 ^ 64) 1 % 2 ^ 32 = 4 * (days + 307) - 1 := by
    rw [U64.sub_of_le (by omega) (by omega)]
    omega
  rw [dateOfDays, U64.add_of_lt (by omega), hsub]
  exact dateOfQuarters_eq (by omega)

/-! ## There and back -/

/-- The tick of 10000-01-01T00:00:00. -/
def TICKS_BELOW_10000 : Nat := DAYS_BELOW_10000 * 86400000000

theorem TICKS_BELOW_10000_lt : TICKS_BELOW_10000 < 2 ^ 64 := by
  unfold TICKS_BELOW_10000 DAYS_BELOW_10000
  omega

theorem microsecondsOfDay_lt (h : IsValid t) : microsecondsOfDay t < 86400000000 := by
  obtain ⟨-, -, hhour, hminute, hsecond, hmicro⟩ := h
  unfold microsecondsOfDay
  omega

theorem dayNumber_lt (h : IsValid t) : Calendar.dayNumber t.year t.month t.day < DAYS_BELOW_10000 := by
  have hyear := h.year_le
  rw [← daysBeforeYear_10000]
  have hlt := Calendar.daysBeforeYear_le h.date.year_pos (show t.year < 10000 by omega)
  have := h.date.lt_yearLength
  unfold Calendar.dayNumber
  omega

theorem microseconds_lt (h : IsValid t) : microseconds t < TICKS_BELOW_10000 := by
  have hday := dayNumber_lt h
  have htime := microsecondsOfDay_lt h
  unfold microseconds TICKS_BELOW_10000
  omega

theorem microseconds_injective {t t' : OrbisRtcDateTime} (h : IsValid t) (h' : IsValid t')
    (heq : microseconds t = microseconds t') : t = t' := by
  have htime := microsecondsOfDay_lt h
  have htime' := microsecondsOfDay_lt h'
  unfold microseconds at heq
  have hday : Calendar.dayNumber t.year t.month t.day = Calendar.dayNumber t'.year t'.month t'.day := by
    omega
  have hrest : microsecondsOfDay t = microsecondsOfDay t' := by omega
  obtain ⟨hy, hm, hd⟩ := Calendar.dayNumber_injective h.date h'.date hday
  obtain ⟨-, -, -, hminute, hsecond, hmicro⟩ := h
  obtain ⟨-, -, -, hminute', hsecond', hmicro'⟩ := h'
  cases t
  cases t'
  simp only [microsecondsOfDay, OrbisRtcDateTime.mk.injEq] at *
  omega

/-- A date-time of any year. -/
structure IsDateTime (t : OrbisRtcDateTime) : Prop where
  date : Calendar.Valid t.year t.month t.day
  hour_lt : t.hour < 24
  minute_lt : t.minute < 60
  second_lt : t.second < 60
  microsecond_lt : t.microsecond < 1000000

theorem IsDateTime.isValid (h : IsDateTime t) (hyear : t.year ≤ 9999) : IsValid t :=
  ⟨h.date, hyear, h.hour_lt, h.minute_lt, h.second_lt, h.microsecond_lt⟩

/-- `sceRtcSetTick` gives the date-time that lies `tick` microseconds after the start, with 16 bits of
    its year. -/
theorem exists_sceRtcSetTick {tick : Nat} (htick : tick < 2 ^ 64) (d : OrbisRtcDateTime) :
    ∃ t, sceRtcSetTick (some d) (some tick) = (.ok, some { t with year := t.year % 2 ^ 16 }) ∧
      IsDateTime t ∧ microseconds t = tick := by
  have hdays : tick / 86400000000 < 2 ^ 28 := by omega
  have hsplits := @splitQuarters_splits (tick / 86400000000 + 307) (by omega)
  have hvalid := hsplits.valid
  have hnumber := hsplits.dayNumber
  rw [← dateOfDays_eq hdays] at hvalid hnumber
  obtain ⟨⟨year, month, day⟩, hdate⟩ : ∃ date, date = dateOfDays (tick / 86400000000) := ⟨_, rfl⟩
  rw [← hdate] at hvalid hnumber
  simp only at hvalid hnumber
  have hmonth := hvalid.month_le
  have hday := hvalid.day_le.trans (Calendar.daysInMonth_le_31 _ _)
  refine ⟨⟨year, month, day, tick % 86400000000 / 3600000000, tick % 86400000000 % 3600000000 / 60000000,
    tick % 86400000000 % 3600000000 % 60000000 / 1000000,
    tick % 86400000000 % 3600000000 % 60000000 % 1000000⟩, ?_, ⟨hvalid, ?_, ?_, ?_, ?_⟩, ?_⟩
  · simp only [sceRtcSetTick, ← hdate, Prod.mk.injEq, Option.some.injEq, OrbisRtcDateTime.mk.injEq, true_and]
    exact ⟨Nat.mod_eq_of_lt (by omega), Nat.mod_eq_of_lt (by omega), Nat.mod_eq_of_lt (by omega),
      Nat.mod_eq_of_lt (by omega), Nat.mod_eq_of_lt (by omega), Nat.mod_eq_of_lt (by omega)⟩
  · simp only
    omega
  · simp only
    omega
  · simp only
    omega
  · simp only
    omega
  · simp only [microseconds, microsecondsOfDay, hnumber]
    omega

/-- `sceRtcSetTick` gives the valid date-time that lies `tick` microseconds after the start. -/
theorem sceRtcSetTick_spec {tick : Nat} (htick : tick < TICKS_BELOW_10000) (d : OrbisRtcDateTime) :
    ∃ t, sceRtcSetTick (some d) (some tick) = (.ok, some t) ∧ IsValid t ∧ microseconds t = tick := by
  obtain ⟨t, hset, ht, heq⟩ := exists_sceRtcSetTick (htick.trans TICKS_BELOW_10000_lt) d
  have hdays : Calendar.dayNumber t.year t.month t.day < DAYS_BELOW_10000 := by
    unfold TICKS_BELOW_10000 at htick
    unfold microseconds at heq
    generalize DAYS_BELOW_10000 = days at htick
    omega
  have hyear : t.year ≤ 9999 := by
    by_contra hlarge
    have hlast := daysBeforeYear_10000
    unfold Calendar.dayNumber at hdays
    rw [← hlast] at hdays
    rcases Nat.lt_or_ge 10000 t.year with hlater | hle
    · have hlt := Calendar.daysBeforeYear_le (show 1 ≤ 10000 by decide) hlater
      generalize daysBeforeYear 10000 = before at hdays hlt
      omega
    · rw [show t.year = 10000 by omega] at hdays
      exact absurd hdays (Nat.not_lt.mpr (by rw [Nat.add_assoc]; exact Nat.le_add_right _ _))
  refine ⟨t, ?_, ht.isValid hyear, heq⟩
  rw [hset, Nat.mod_eq_of_lt (by omega)]

/-- `sceRtcGetTick` is off by the `2 ^ 32` that the minutes lose. -/
theorem sceRtcGetTick_spec (h : IsValid t) (tick : Nat) :
    sceRtcGetTick (some t) (some tick) = (.ok, some (shiftMonth t),
      some (U64.ofInt (microseconds t - if t.minute < 36 then 0 else 2 ^ 32))) := by
  have hok : ¬sceRtcCheckValid (some t) ≠ .ok := not_not.mpr (sceRtcCheckValid_eq_ok.mpr h)
  have hday := dayNumber_lt h
  have htime : timeOfDay (shiftMonth t) = timeOfDay t := by
    unfold shiftMonth
    split <;> rfl
  unfold DAYS_BELOW_10000 at hday
  have hdays : U64.ofInt ((Calendar.dayNumber t.year t.month t.day + 307 : Nat) : Int) =
      Calendar.dayNumber t.year t.month t.day + 307 := by
    unfold U64.ofInt
    omega
  have htick : U64.add (Calendar.dayNumber t.year t.month t.day * 86400000000 % 2 ^ 64)
      (U64.ofInt (microsecondsOfDay t - if t.minute < 36 then 0 else 2 ^ 32)) =
      U64.ofInt (microseconds t - if t.minute < 36 then 0 else 2 ^ 32) := by
    rw [Nat.mod_eq_of_lt (by omega), U64.add_ofInt, microseconds, Nat.cast_add, add_sub_assoc]
  simp only [sceRtcGetTick, if_neg hok, shiftedDays_shiftMonth h, htime, timeOfDay_eq h, hdays]
  rw [U64.sub_of_le (by omega) (by omega), Nat.add_sub_cancel, htick]

/-- The tick of a date-time is its distance from the start, and leads back to it. -/
def TickAgrees (t : OrbisRtcDateTime) : Prop :=
  ∀ d tick, ∃ t', sceRtcGetTick (some t) (some tick) = (.ok, t', some (microseconds t)) ∧
    sceRtcSetTick (some d) (some (microseconds t)) = (.ok, some t)

/-- The date-time of a tick is valid, and leads back to it. -/
def DateAgrees (tick : Nat) : Prop :=
  ∀ d tick', ∃ t t', sceRtcSetTick (some d) (some tick) = (.ok, some t) ∧
    sceRtcCheckValid (some t) = .ok ∧ sceRtcGetTick (some t) (some tick') = (.ok, t', some tick)

theorem getTick_eq_iff (h : IsValid t) (tick : Nat) :
    (∃ t', sceRtcGetTick (some t) (some tick) = (.ok, t', some (microseconds t))) ↔ t.minute < 36 := by
  have hlt := microseconds_lt h
  unfold TICKS_BELOW_10000 DAYS_BELOW_10000 at hlt
  rw [sceRtcGetTick_spec h tick]
  simp only [Prod.mk.injEq, true_and, Option.some.injEq, exists_and_right, exists_eq', U64.ofInt]
  split <;> omega

theorem minute_eq (h : IsValid t) : t.minute = microseconds t / 60000000 % 60 := by
  obtain ⟨-, -, hhour, hminute, hsecond, hmicro⟩ := h
  unfold microseconds microsecondsOfDay
  omega

/-- Ticks and the calendar agree exactly before the 36th minute of an hour. -/
theorem agree_iff_minute_lt (t : OrbisRtcDateTime) (tick : Nat) :
    (sceRtcCheckValid (some t) = .ok → (TickAgrees t ↔ t.minute < 36)) ∧
      (tick < TICKS_BELOW_10000 → (DateAgrees tick ↔ tick / 60000000 % 60 < 36)) := by
  constructor
  · intro ht
    have hvalid := sceRtcCheckValid_eq_ok.mp ht
    constructor
    · intro h
      obtain ⟨t', hget, -⟩ := h t 0
      exact (getTick_eq_iff hvalid 0).mp ⟨t', hget⟩
    · intro hminute d tick
      obtain ⟨t', hget⟩ := (getTick_eq_iff hvalid tick).mpr hminute
      obtain ⟨t'', hset, hvalid', heq⟩ := sceRtcSetTick_spec (microseconds_lt hvalid) d
      obtain rfl := microseconds_injective hvalid' hvalid heq
      exact ⟨t', hget, hset⟩
  · intro htick
    constructor
    · intro h
      obtain ⟨t, t', hset, -, hget⟩ := h ⟨1, 1, 1, 0, 0, 0, 0⟩ 0
      obtain ⟨u, hset', hvalid, heq⟩ := sceRtcSetTick_spec htick ⟨1, 1, 1, 0, 0, 0, 0⟩
      obtain rfl : u = t := by simpa using hset'.symm.trans hset
      rw [← heq, ← minute_eq hvalid]
      exact (getTick_eq_iff hvalid 0).mp ⟨t', heq ▸ hget⟩
    · intro hminute d tick'
      obtain ⟨t, hset, hvalid, heq⟩ := sceRtcSetTick_spec htick d
      rw [← heq, ← minute_eq hvalid] at hminute
      obtain ⟨t', hget⟩ := (getTick_eq_iff hvalid tick').mpr hminute
      exact ⟨t, t', hset, sceRtcCheckValid_eq_ok.mpr hvalid, heq ▸ hget⟩

/-- A leap day, shortly before the 36th minute. -/
theorem agree_leapDay :
    TickAgrees ⟨2024, 2, 29, 12, 35, 59, 500000⟩ ∧ DateAgrees 63844806959500000 :=
  have hboth := agree_iff_minute_lt ⟨2024, 2, 29, 12, 35, 59, 500000⟩ 63844806959500000
  ⟨(hboth.1 (by decide)).mpr (by decide), (hboth.2 (by decide)).mpr (by decide)⟩

/-- The 36th minute of the year 2024 comes out `2 ^ 32` microseconds too early. -/
theorem tick_minutes_wrap :
    ¬((∀ t, sceRtcCheckValid (some t) = .ok → TickAgrees t) ∧
      ∀ tick < TICKS_BELOW_10000, DateAgrees tick) := by
  rintro ⟨hall, -⟩
  have hok : sceRtcCheckValid (some ⟨2024, 1, 1, 0, 36, 0, 0⟩) = .ok := by decide
  obtain ⟨t', hget, -⟩ := hall _ hok ⟨1, 1, 1, 0, 0, 0, 0⟩ 0
  have hminute := (getTick_eq_iff (sceRtcCheckValid_eq_ok.mp hok) 0).mp ⟨t', hget⟩
  exact absurd hminute (by decide)

end Rtc
