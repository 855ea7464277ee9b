-- SUMMARY: The proleptic Gregorian calendar: how many days lie before a date, and that the number determines the date.
import Mathlib.Data.Nat.Basic
import Mathlib.Order.Basic
import Mathlib.Tactic.Common

/-!
# The proleptic Gregorian calendar

Days are counted from 0001-01-01. `daysBeforeYear` and `daysBeforeMonth` add up the
lengths of the years and of the months that have passed.
-/

namespace Calendar

def isLeap (year : Nat) : Bool := year % 4 = 0 ∧ (year % 100 ≠ 0 ∨ year % 400 = 0)

def yearLength (year : Nat) : Nat := if isLeap year then 366 else 365

def daysInMonth (year : Nat) : Nat → Nat
  | 2 => if isLeap year then 29 else 28
  | 4 | 6 | 9 | 11 => 30
  | _ => 31

/-- The days from 0001-01-01 to the first day of the year. -/
def daysBeforeYear : Nat → Nat
  | 0 | 1 => 0
  | year + 2 => daysBeforeYear (year + 1) + yearLength (year + 1)

/-- The days from the first day of the year to the first day of the month. -/
def daysBeforeMonth (year : Nat) : Nat → Nat
  | 0 | 1 => 0
  | month + 2 => daysBeforeMonth year (month + 1) + daysInMonth year (month + 1)

structure Valid (year month day : Nat) : Prop where
  year_pos : 1 ≤ year
  month_pos : 1 ≤ month
  month_le : month ≤ 12
  day_pos : 1 ≤ day
  day_le : day ≤ daysInMonth year month

/-- The days from 0001-01-01 to the date. -/
def dayNumber (year month day : Nat) : Nat :=
  daysBeforeYear year + daysBeforeMonth year month + (day - 1)

/-! ## Closed forms -/

theorem isLeap_iff {year : Nat} : isLeap year = true ↔ year % 4 = 0 ∧ (year % 100 ≠ 0 ∨ year % 400 = 0) := by
  simp [isLeap]

theorem daysBeforeYear_succ (year : Nat) :
    daysBeforeYear (year + 1) + year / 100 = 365 * year + year / 4 + year / 400 := by
  induction year with
  | zero => rfl
  | succ year ih =>
    rw [daysBeforeYear, yearLength]
    split
    · next h =>
      rw [isLeap_iff] at h
      omega
    · next h =>
      rw [isLeap_iff] at h
      omega

theorem daysBeforeMonth_of_lt_three {year month : Nat} (hpos : 1 ≤ month) (hlt : month < 3) :
    daysBeforeMonth year month = 31 * (month - 1) := by
  obtain rfl | rfl : month = 1 ∨ month = 2 := by omega
  · rfl
  · rfl

/-- From March on the months follow the pattern of 153 days in five months. -/
theorem daysBeforeMonth_of_three_le {year month : Nat} (hge : 3 ≤ month) (hle : month ≤ 12) :
    daysBeforeMonth year month + 306 = yearLength year + (153 * (month - 3) + 2) / 5 := by
  have hmonths : month = 3 ∨ month = 4 ∨ month = 5 ∨ month = 6 ∨ month = 7 ∨ month = 8 ∨ month = 9 ∨
      month = 10 ∨ month = 11 ∨ month = 12 := by omega
  have hfeb : daysInMonth year 2 + 337 = yearLength year := by
    simp only [daysInMonth, yearLength]
    split <;> rfl
  rcases hmonths with rfl | rfl | rfl | rfl | rfl | rfl | rfl | rfl | rfl | rfl <;>
    simp only [daysBeforeMonth, daysInMonth] at hfeb ⊢ <;> omega

theorem daysInMonth_le_31 (year month : Nat) : daysInMonth year month ≤ 31 := by
  unfold daysInMonth
  split
  · split <;> decide
  all_goals decide

/-- Only the length of February depends on the year. -/
theorem daysInMonth_congr {month : Nat} (hmonth : month ≠ 2) (year year' : Nat) :
    daysInMonth year month = daysInMonth year' month := by
  unfold daysInMonth
  split
  · exact absurd rfl hmonth
  all_goals rfl

theorem daysInMonth_le {year year' : Nat} (h : isLeap year = true → isLeap year' = true) (month : Nat) :
    daysInMonth year month ≤ daysInMonth year' month := by
  unfold daysInMonth
  split
  · split
    · next hleap => rw [if_pos (h hleap)]
    · split <;> decide
  all_goals exact le_refl _

/-! ## The number determines the date -/

theorem daysBeforeMonth_le {year month : Nat} (hpos : 1 ≤ month) {later : Nat} (hlt : month < later) :
    daysBeforeMonth year month + daysInMonth year month ≤ daysBeforeMonth year later := by
  induction later with
  | zero => omega
  | succ later ih =>
    obtain ⟨n, rfl⟩ : ∃ n, later = n + 1 := ⟨later - 1, by omega⟩
    simp only [daysBeforeMonth]
    by_cases heq : month = n + 1
    · rw [heq]
    · have := ih (by omega)
      omega

theorem daysBeforeMonth_thirteen (year : Nat) : daysBeforeMonth year 13 = yearLength year := by
  have h := @daysBeforeMonth_of_three_le year 12 (by decide) (by decide)
  simp only [daysBeforeMonth, daysInMonth] at h ⊢
  omega

theorem daysBeforeYear_le {year later : Nat} (hpos : 1 ≤ year) (hlt : year < later) :
    daysBeforeYear year + yearLength year ≤ daysBeforeYear later := by
  induction later with
  | zero => omega
  | succ later ih =>
    obtain ⟨n, rfl⟩ : ∃ n, later = n + 1 := ⟨later - 1, by omega⟩
    simp only [daysBeforeYear]
    by_cases heq : year = n + 1
    · rw [heq]
    · have := ih (by omega)
      omega

theorem Valid.lt_yearLength {year month day : Nat} (h : Valid year month day) :
    daysBeforeMonth year month + (day - 1) < yearLength year := by
  have hmonth := @daysBeforeMonth_le year month h.month_pos 13 (by have := h.month_le; omega)
  rw [daysBeforeMonth_thirteen] at hmonth
  have := h.day_pos
  have := h.day_le
  omega

theorem dayNumber_lt_of_year_lt {y m d y' m' d' : Nat} (h : Valid y m d) (hlt : y < y') :
    dayNumber y m d < dayNumber y' m' d' := by
  have hyear := daysBeforeYear_le h.year_pos hlt
  have := h.lt_yearLength
  unfold dayNumber
  omega

theorem dayNumber_lt_of_month_lt {y m d m' d' : Nat} (h : Valid y m d) (hlt : m < m') :
    dayNumber y m d < dayNumber y m' d' := by
  have hmonth := @daysBeforeMonth_le y m h.month_pos m' hlt
  have := h.day_pos
  have := h.day_le
  unfold dayNumber
  omega

theorem dayNumber_injective {y m d y' m' d' : Nat} (h : Valid y m d) (h' : Valid y' m' d')
    (heq : dayNumber y m d = dayNumber y' m' d') : y = y' ∧ m = m' ∧ d = d' := by
  have hyear : y = y' := by
    rcases Nat.lt_trichotomy y y' with hlt | heq' | hgt
    · exact absurd heq (ne_of_lt (dayNumber_lt_of_year_lt h hlt))
    · exact heq'
    · exact absurd heq (ne_of_gt (dayNumber_lt_of_year_lt h' hgt))
  subst hyear
  have hmonth : m = m' := by
    rcases Nat.lt_trichotomy m m' with hlt | heq' | hgt
    · exact absurd heq (ne_of_lt (dayNumber_lt_of_month_lt h hlt))
    · exact heq'
    · exact absurd heq (ne_of_gt (dayNumber_lt_of_month_lt h' hgt))
  subst hmonth
  have := h.day_pos
  have := h'.day_pos
  unfold dayNumber at heq
  omega

end Calendar
