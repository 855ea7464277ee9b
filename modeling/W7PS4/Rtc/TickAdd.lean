-- SUMMARY: Adding months and years to ticks: what the functions store, and for which previous contents that is the date asked for.
import W7PS4.Rtc.Queries

/-!
# Adding months and years

`sceRtcTickAddMonths` and `sceRtcTickAddYears` take two ticks, but they move the date of
the first one, which they also write; the second is only used when nothing is added. The
year wraps in its 16 bits before it is checked. Only the first of the two functions cuts
the day to the length of the month it arrives in.
-/

namespace Rtc

open Calendar (daysInMonth isLeap yearLength)

/-- The date-time that `sceRtcSetTick` leaves in a local variable. -/
def readTick (tick : Nat) : OrbisRtcDateTime :=
  (sceRtcSetTick (some ⟨0, 0, 0, 0, 0, 0, 0⟩) (some tick)).2.getD ⟨0, 0, 0, 0, 0, 0, 0⟩

/-- The date-time that `sceRtcTickAddMonths` validates. `lAdd / 12` and `lAdd % 12` round towards zero. -/
def addMonths (time : OrbisRtcDateTime) (lAdd : Int) : OrbisRtcDateTime :=
  let s : Int := if lAdd ≥ 0 then 1 else -1
  let year : Int := (time.year + lAdd.tdiv 12) % 2 ^ 16
  let tempMonth : Int := time.month + lAdd.tmod 12 - 1
  let outside := tempMonth > 11 ∨ tempMonth < 0
  let year := if outside then (year + s) % 2 ^ 16 else year
  let tempMonth := if outside then tempMonth - s * 12 else tempMonth
  let time := { time with year := year.toNat, month := ((tempMonth + 1) % 2 ^ 16).toNat }
  let lastDay := daysInMonth time.year time.month
  if time.day > lastDay then { time with day := lastDay } else time

/-- The checked date-time is stored as a tick. -/
def storeTick (time : OrbisRtcDateTime) (pTick1 : Nat) : RtcResult × Option Nat :=
  let timeIsValid := sceRtcCheckValid (some time)
  if timeIsValid = .ok then (.ok, (sceRtcGetTick (some time) (some pTick1)).2.2) else (timeIsValid, some pTick1)

/-- The result comes with `*pTick1` after the call. -/
def sceRtcTickAddMonths (pTick1 pTick2 : Option Nat) (lAdd : Int) : RtcResult × Option Nat :=
  match pTick1, pTick2 with
  | some tick1, some tick2 =>
    if lAdd = 0 then (.ok, some tick2) else storeTick (addMonths (readTick tick1) lAdd) tick1
  | _, _ => (.invalidPointer, pTick1)

/-- The result comes with `*pTick1` after the call. -/
def sceRtcTickAddYears (pTick1 pTick2 : Option Nat) (lAdd : Int) : RtcResult × Option Nat :=
  match pTick1, pTick2 with
  | some tick1, some tick2 =>
    if lAdd = 0 then (.ok, some tick2)
    else
      let time := readTick tick1
      storeTick { time with year := ((time.year + lAdd) % 2 ^ 16).toNat } tick1
  | _, _ => (.invalidPointer, pTick1)

/-! ## Moving a date by months -/

/-- The year that is `n` months later, before 0001 perhaps. -/
def targetYear (t : OrbisRtcDateTime) (n : Int) : Int := (t.year * 12 + (t.month - 1) + n) / 12

def targetMonth (t : OrbisRtcDateTime) (n : Int) : Nat := ((t.year * 12 + (t.month - 1) + n) % 12).toNat + 1

/-- The month of the year, with the day cut to its length. -/
def inMonth (t : OrbisRtcDateTime) (year month : Nat) : OrbisRtcDateTime :=
  { t with year := year, month := month, day := min t.day (daysInMonth year month) }

@[simp] theorem inMonth_minute (t : OrbisRtcDateTime) (year month : Nat) :
    (inMonth t year month).minute = t.minute := rfl

/-- The date-time `n` calendar months later. -/
def monthsLater (t : OrbisRtcDateTime) (n : Int) : OrbisRtcDateTime :=
  inMonth t (targetYear t n).toNat (targetMonth t n)

/-- The calendar's years. -/
def YearOk (year : Int) : Prop := 1 ≤ year ∧ year ≤ 9999

instance {year : Int} : Decidable (YearOk year) := inferInstanceAs (Decidable (_ ∧ _))

/-- The tick moved by `n` months is stored, or refused with the output as it was. -/
def AddsMonths (tick previous : Nat) (n : Int) : Prop :=
  ∃ t, IsValid t ∧ microseconds t = tick ∧
    if YearOk (targetYear t n) then
      sceRtcTickAddMonths (some previous) (some tick) n = (.ok, some (microseconds (monthsLater t n)))
    else ∃ e ≠ .ok, sceRtcTickAddMonths (some previous) (some tick) n = (e, some previous)

/-! ## What the code computes -/

/-- What `sceRtcSetTick` makes of any tick: a date-time with 16 bits of its year. -/
structure IsRead (t : OrbisRtcDateTime) : Prop where
  year_lt : t.year < 2 ^ 16
  month_pos : 1 ≤ t.month
  month_le : t.month ≤ 12
  day_pos : 1 ≤ t.day
  /-- Only in February the length of the month depends on the year. -/
  day_le : t.month ≠ 2 → ∀ year, t.day ≤ daysInMonth year t.month
  february : t.month = 2 → t.day ≤ 29
  hour_lt : t.hour < 24
  minute_lt : t.minute < 60
  second_lt : t.second < 60
  microsecond_lt : t.microsecond < 1000000

variable {tick : Nat} {t : OrbisRtcDateTime} {n : Int}

theorem readTick_isRead (htick : tick < 2 ^ 64) : IsRead (readTick tick) := by
  obtain ⟨t, hset, ht, -⟩ := exists_sceRtcSetTick htick ⟨0, 0, 0, 0, 0, 0, 0⟩
  have hread : readTick tick = { t with year := t.year % 2 ^ 16 } := by
    rw [readTick, hset]
    rfl
  obtain ⟨⟨-, hm, hm', hd, hd'⟩, hhour, hminute, hsecond, hmicro⟩ := ht
  rw [hread]
  refine ⟨Nat.mod_lt _ (by decide), hm, hm', hd, fun hmonth year => ?_, fun hmonth => ?_, hhour, hminute,
    hsecond, hmicro⟩
  · rwa [Calendar.daysInMonth_congr hmonth year t.year]
  · simp only at hmonth ⊢
    rw [hmonth] at hd'
    refine hd'.trans ?_
    simp only [daysInMonth]
    split <;> decide

/-- The corrected quotient and remainder are those of the division downwards. -/
theorem correct_tdiv {year month : Int} (hpos : 1 ≤ month) (hle : month ≤ 12) (n : Int) :
    (if month + n.tmod 12 - 1 > 11 ∨ month + n.tmod 12 - 1 < 0
      then ((year + n.tdiv 12) % 2 ^ 16 + if n ≥ 0 then 1 else -1) % 2 ^ 16
      else (year + n.tdiv 12) % 2 ^ 16) = (year * 12 + (month - 1) + n) / 12 % 2 ^ 16 ∧
    (if month + n.tmod 12 - 1 > 11 ∨ month + n.tmod 12 - 1 < 0
      then month + n.tmod 12 - 1 - (if n ≥ 0 then 1 else -1) * 12
      else month + n.tmod 12 - 1) = (year * 12 + (month - 1) + n) % 12 := by
  have hdivmod := Int.mul_tdiv_add_tmod n 12
  rcases Int.lt_or_le n 0 with hn | hn
  · have hhigh : 0 ≤ (-n).tmod 12 := Int.tmod_nonneg 12 (by omega)
    have hlow : (-n).tmod 12 < 12 := Int.tmod_lt_of_pos _ (by decide)
    rw [Int.neg_tmod] at hhigh hlow
    rw [if_neg (show ¬n ≥ 0 by omega)]
    split <;> omega
  · have hlow : 0 ≤ n.tmod 12 := Int.tmod_nonneg 12 hn
    have hhigh : n.tmod 12 < 12 := Int.tmod_lt_of_pos n (by decide)
    rw [if_pos (show n ≥ 0 from hn)]
    split <;> omega

theorem addMonths_eq (ht : IsRead t) (n : Int) :
    addMonths t n = inMonth t (targetYear t n % 2 ^ 16).toNat (targetMonth t n) := by
  obtain ⟨hyear, hmonth⟩ := @correct_tdiv t.year t.month (by exact_mod_cast ht.month_pos)
    (by exact_mod_cast ht.month_le) n
  have hm : ((((t.year : Int) * 12 + (t.month - 1) + n) % 12 + 1) % 2 ^ 16).toNat = targetMonth t n := by
    unfold targetMonth
    omega
  simp only [addMonths, hyear, hmonth, hm, ← targetYear.eq_1]
  unfold inMonth
  split
  · next hlong => rw [Nat.min_eq_right hlong.le]
  · next hfits => rw [Nat.min_eq_left (Nat.not_lt.mp hfits)]

theorem targetMonth_pos (t : OrbisRtcDateTime) (n : Int) : 1 ≤ targetMonth t n := Nat.le_add_left 1 _

theorem targetMonth_le (t : OrbisRtcDateTime) (n : Int) : targetMonth t n ≤ 12 := by
  unfold targetMonth
  omega

theorem daysInMonth_pos (year month : Nat) : 1 ≤ daysInMonth year month := by
  unfold daysInMonth
  split
  · split <;> decide
  all_goals decide

theorem IsRead.isValid_inMonth (ht : IsRead t) {year month : Nat}
    (hyear : YearOk year) (hpos : 1 ≤ month) (hle : month ≤ 12) : IsValid (inMonth t year month) :=
  ⟨⟨by exact_mod_cast hyear.1, hpos, hle, le_min ht.day_pos (daysInMonth_pos _ _), min_le_right _ _⟩,
    by exact_mod_cast hyear.2, ht.hour_lt, ht.minute_lt, ht.second_lt, ht.microsecond_lt⟩

theorem storeTick_of_valid (ht : IsValid t) (pTick1 : Nat) : storeTick t pTick1 = (.ok, some (tickOf t)) := by
  simp only [storeTick, if_pos (sceRtcCheckValid_eq_ok.mpr ht), sceRtcGetTick_eq ht]

theorem storeTick_of_year (hyear : ¬YearOk t.year) (pTick1 : Nat) :
    storeTick t pTick1 = (.invalidYear, some pTick1) := by
  have hinvalid : sceRtcCheckValid (some t) = .invalidYear := by
    unfold YearOk at hyear
    simp only [sceRtcCheckValid]
    rw [if_pos (by omega)]
  simp only [storeTick, hinvalid, if_neg (show ¬RtcResult.invalidYear = .ok by decide)]

theorem storeTick_of_day (ht : IsRead t) {year : Nat} (hyear : YearOk year)
    (hday : ¬t.day ≤ daysInMonth year t.month) (pTick1 : Nat) :
    storeTick { t with year := year } pTick1 = (.invalidDay, some pTick1) := by
  have hpos := ht.month_pos
  have hle := ht.month_le
  have hfirst := ht.day_pos
  have hinvalid : sceRtcCheckValid (some { t with year := year }) = .invalidDay := by
    unfold YearOk at hyear
    simp only [sceRtcCheckValid]
    rw [if_neg (by omega), if_neg (by omega), if_neg (by omega), if_pos (not_le.mp hday)]
  simp only [storeTick, hinvalid, if_neg (show ¬RtcResult.invalidDay = .ok by decide)]

theorem storeTick_inMonth (ht : IsRead t) (year : Nat) {month : Nat}
    (hpos : 1 ≤ month) (hle : month ≤ 12) (pTick1 : Nat) :
    storeTick (inMonth t year month) pTick1 =
      if YearOk year then (.ok, some (tickOf (inMonth t year month))) else (.invalidYear, some pTick1) := by
  split
  · next hyear => exact storeTick_of_valid (ht.isValid_inMonth hyear hpos hle) pTick1
  · next hyear => exact storeTick_of_year hyear pTick1

/-- The year that is stored, with 16 bits. -/
def wrappedYear (t : OrbisRtcDateTime) (n : Int) : Nat := (targetYear t n % 2 ^ 16).toNat

theorem sceRtcTickAddMonths_spec {previous : Nat} (hprevious : previous < 2 ^ 64) (tick : Nat)
    (hn : n ≠ 0) : sceRtcTickAddMonths (some previous) (some tick) n =
      if YearOk (wrappedYear (readTick previous) n) then
        (.ok, some (tickOf (inMonth (readTick previous) (wrappedYear (readTick previous) n)
          (targetMonth (readTick previous) n))))
      else (.invalidYear, some previous) := by
  have hread := readTick_isRead hprevious
  simp only [sceRtcTickAddMonths, if_neg hn, addMonths_eq hread]
  exact storeTick_inMonth hread _ (targetMonth_pos _ _) (targetMonth_le _ _) _

/-! ## When it is the date asked for -/

/-- `old`, the date-time of the output before the call, is moved instead of `t`. -/
def MonthsAgree (t old : OrbisRtcDateTime) (n : Int) : Prop :=
  n = 0 ∨
    if YearOk (targetYear t n) then
      if old.minute < 36 then
        let lastDay := daysInMonth (targetYear t n).toNat (targetMonth t n)
        old = { t with day := old.day } ∧ min old.day lastDay = min t.day lastDay
      else
        -- What the minutes lose may be what `old` is ahead.
        YearOk (targetYear old n) ∧ microseconds (monthsLater old n) = microseconds (monthsLater t n) + 2 ^ 32
    else ¬YearOk (targetYear old n % 2 ^ 16)

instance {t old : OrbisRtcDateTime} {n : Int} : Decidable (MonthsAgree t old n) :=
  inferInstanceAs (Decidable (_ ∨ _))

theorem tickOf_eq_iff (h : IsValid t) {m : Nat} (hm : m < TICKS_BELOW_10000) :
    tickOf t = m ↔ microseconds t = if t.minute < 36 then m else m + 2 ^ 32 := by
  have hlt := microseconds_lt h
  unfold TICKS_BELOW_10000 DAYS_BELOW_10000 at hlt hm
  unfold tickOf U64.ofInt
  split <;> omega

theorem year_le_of_microseconds {a b : OrbisRtcDateTime} (hb : IsValid b)
    (hle : microseconds a ≤ microseconds b) : a.year ≤ b.year := by
  by_contra hlt
  have hdays := @Calendar.dayNumber_lt_of_year_lt _ _ _ a.year a.month a.day hb.date (not_le.mp hlt)
  have htime := microsecondsOfDay_lt hb
  unfold microseconds at hle
  omega

/-- The year after next is more than the lost minutes away. -/
theorem year_le_succ_of_microseconds {a b : OrbisRtcDateTime} (ha : IsValid a)
    (hle : microseconds b ≤ microseconds a + 2 ^ 32) : b.year ≤ a.year + 1 := by
  by_contra hlt
  have hyear := Calendar.daysBeforeYear_le ha.date.year_pos (Nat.lt_add_one a.year)
  have hnext := @Calendar.daysBeforeYear_le (a.year + 1) b.year (by omega) (by omega)
  have hin := ha.date.lt_yearLength
  have htime := microsecondsOfDay_lt ha
  have hlength : 1 ≤ yearLength (a.year + 1) := by
    unfold yearLength
    split <;> decide
  unfold microseconds Calendar.dayNumber at hle
  omega

theorem IsValid.yearOk (ht : IsValid t) : YearOk t.year :=
  ⟨by exact_mod_cast ht.date.year_pos, by exact_mod_cast ht.year_le⟩

theorem isValid_monthsLater (ht : IsRead t) (hyear : YearOk (targetYear t n)) : IsValid (monthsLater t n) :=
  ht.isValid_inMonth (by unfold YearOk at *; omega) (targetMonth_pos t n) (targetMonth_le t n)

/-- Two months that are at most a year apart after moving, with the years of one in 16 bits, were so before. -/
theorem targetYear_eq_of_near {t old : OrbisRtcDateTime} (ht : IsRead t) (hold : IsRead old)
    (hyear : YearOk (targetYear t n)) (ht' : YearOk t.year)
    (hle : (targetYear t n).toNat ≤ wrappedYear old n)
    (hge : wrappedYear old n ≤ (targetYear t n).toNat + 1) : (wrappedYear old n : Int) = targetYear old n := by
  obtain ⟨hy, hm, hm', -⟩ := ht
  obtain ⟨hy', hn, hn', -⟩ := hold
  unfold YearOk wrappedYear targetYear at *
  omega

theorem eq_of_target_eq {t old : OrbisRtcDateTime} (ht : IsRead t) (hold : IsRead old)
    (hyear : targetYear old n = targetYear t n) (hmonth : targetMonth old n = targetMonth t n) :
    old.year = t.year ∧ old.month = t.month := by
  obtain ⟨-, hpos, hle, -⟩ := ht
  obtain ⟨-, hpos', hle', -⟩ := hold
  unfold targetYear at hyear
  unfold targetMonth at hmonth
  omega

theorem wrappedYear_eq (h : YearOk (targetYear t n)) : (wrappedYear t n : Int) = targetYear t n := by
  unfold YearOk at h
  unfold wrappedYear
  omega

theorem sameUntil_of_inMonth_eq {t old : OrbisRtcDateTime} (ht : IsRead t) (hold : IsRead old)
    (hyear : YearOk (targetYear t n)) (hyears : (wrappedYear old n : Int) = targetYear old n)
    (heq : inMonth old (wrappedYear old n) (targetMonth old n) = monthsLater t n) :
    old = { t with day := old.day } ∧
      min old.day (daysInMonth (targetYear t n).toNat (targetMonth t n)) =
        min t.day (daysInMonth (targetYear t n).toNat (targetMonth t n)) := by
  simp only [monthsLater, inMonth, OrbisRtcDateTime.mk.injEq] at heq
  obtain ⟨hy, hm, hday, hhour, hminute, hsecond, hmicro⟩ := heq
  have htarget : targetYear old n = targetYear t n := by
    rw [← hyears, hy]
    exact Int.toNat_of_nonneg (le_trans (by decide) hyear.1)
  have hindex := eq_of_target_eq ht hold htarget hm
  rw [hy, hm] at hday
  refine ⟨?_, hday⟩
  cases old
  cases t
  simp only [OrbisRtcDateTime.mk.injEq] at *
  exact ⟨hindex.1, hindex.2, trivial, hhour, hminute, hsecond, hmicro⟩

theorem monthsAgree_iff {t old : OrbisRtcDateTime} (ht : IsValid t) (hread : IsRead t) (hold : IsRead old)
    (hyear : YearOk (targetYear t n)) :
    YearOk (wrappedYear old n) ∧ tickOf (inMonth old (wrappedYear old n) (targetMonth old n)) =
        microseconds (monthsLater t n) ↔
      if old.minute < 36 then
        old = { t with day := old.day } ∧
          min old.day (daysInMonth (targetYear t n).toNat (targetMonth t n)) =
            min t.day (daysInMonth (targetYear t n).toNat (targetMonth t n))
      else
        YearOk (targetYear old n) ∧
          microseconds (monthsLater old n) = microseconds (monthsLater t n) + 2 ^ 32 := by
  have hlater := isValid_monthsLater hread hyear
  have hwhen : YearOk (wrappedYear old n) →
      (tickOf (inMonth old (wrappedYear old n) (targetMonth old n)) = microseconds (monthsLater t n) ↔
        microseconds (inMonth old (wrappedYear old n) (targetMonth old n)) =
          if old.minute < 36 then microseconds (monthsLater t n) else microseconds (monthsLater t n) + 2 ^ 32) := by
    intro hok
    have hvalid := hold.isValid_inMonth hok (targetMonth_pos old n) (targetMonth_le old n)
    rw [tickOf_eq_iff hvalid (microseconds_lt hlater), inMonth_minute]
  have hmoved : YearOk (wrappedYear old n) →
      microseconds (inMonth old (wrappedYear old n) (targetMonth old n)) =
        (if old.minute < 36 then microseconds (monthsLater t n) else microseconds (monthsLater t n) + 2 ^ 32) →
      (wrappedYear old n : Int) = targetYear old n := by
    intro hok heq
    have hvalid := hold.isValid_inMonth hok (targetMonth_pos old n) (targetMonth_le old n)
    have hle := @year_le_of_microseconds (monthsLater t n) _ hvalid (by split at heq <;> omega)
    have hge := year_le_succ_of_microseconds hlater (le_of_eq_of_le heq (by split <;> omega))
    exact targetYear_eq_of_near hread hold hyear ht.yearOk hle hge
  have hsame : (wrappedYear old n : Int) = targetYear old n →
      inMonth old (wrappedYear old n) (targetMonth old n) = monthsLater old n := by
    intro heq
    rw [monthsLater, ← heq, Int.toNat_natCast]
  by_cases hminute : old.minute < 36
  · simp only [if_pos hminute] at hwhen hmoved ⊢
    constructor
    · rintro ⟨hok, heq⟩
      have heq := (hwhen hok).mp heq
      have hdate := microseconds_injective (hold.isValid_inMonth hok (targetMonth_pos _ _)
        (targetMonth_le _ _)) hlater heq
      exact sameUntil_of_inMonth_eq hread hold hyear (hmoved hok heq) hdate
    · rintro ⟨hdate, hday⟩
      have hyears : targetYear old n = targetYear t n := by
        rw [hdate]
        simp only [targetYear]
      have hmonth : targetMonth old n = targetMonth t n := by
        rw [hdate]
        simp only [targetMonth]
      have hwrapped := wrappedYear_eq (hyears ▸ hyear)
      rw [hyears] at hwrapped
      have hok : YearOk (wrappedYear old n) := by rwa [hwrapped]
      refine ⟨hok, (hwhen hok).mpr ?_⟩
      rw [hsame (wrappedYear_eq (hyears ▸ hyear)), monthsLater, monthsLater, hyears, hmonth, inMonth, inMonth,
        hday]
      rw [hdate]
  · simp only [if_neg hminute] at hwhen hmoved ⊢
    constructor
    · rintro ⟨hok, heq⟩
      have heq := (hwhen hok).mp heq
      have hyears := hmoved hok heq
      rw [hsame hyears] at heq
      exact ⟨hyears ▸ hok, heq⟩
    · rintro ⟨hok, heq⟩
      have hyears := wrappedYear_eq hok
      rw [← hsame hyears] at heq
      rw [← hyears] at hok
      exact ⟨hok, (hwhen hok).mpr heq⟩

theorem readTick_spec (htick : tick < TICKS_BELOW_10000) :
    IsValid (readTick tick) ∧ microseconds (readTick tick) = tick := by
  obtain ⟨t, hset, ht, heq⟩ := sceRtcSetTick_spec htick ⟨0, 0, 0, 0, 0, 0, 0⟩
  rw [readTick, hset, Option.getD_some]
  exact ⟨ht, heq⟩

theorem monthsLater_zero (ht : IsValid t) : monthsLater t 0 = t := by
  obtain ⟨⟨-, hm, hm', -, hd'⟩, -⟩ := ht
  have hyear : (targetYear t 0).toNat = t.year := by
    unfold targetYear
    omega
  have hmonth : targetMonth t 0 = t.month := by
    unfold targetMonth
    omega
  rw [monthsLater, hyear, hmonth, inMonth, Nat.min_eq_left hd']

/-- The tick determines its date-time. -/
theorem addsMonths_iff_readTick (htick : tick < TICKS_BELOW_10000) (previous : Nat) (n : Int) :
    AddsMonths tick previous n ↔
      if YearOk (targetYear (readTick tick) n) then
        sceRtcTickAddMonths (some previous) (some tick) n =
          (.ok, some (microseconds (monthsLater (readTick tick) n)))
      else ∃ e ≠ .ok, sceRtcTickAddMonths (some previous) (some tick) n = (e, some previous) := by
  obtain ⟨ht, heq⟩ := readTick_spec htick
  constructor
  · rintro ⟨t, hvalid, hmicro, hadds⟩
    obtain rfl := microseconds_injective hvalid ht (hmicro.trans heq.symm)
    exact hadds
  · exact fun hadds => ⟨_, ht, heq, hadds⟩

theorem addsMonths_iff {tick previous : Nat} (htick : tick < TICKS_BELOW_10000)
    (hprevious : previous < 2 ^ 64) (n : Int) :
    AddsMonths tick previous n ↔ MonthsAgree (readTick tick) (readTick previous) n := by
  obtain ⟨ht, heq⟩ := readTick_spec htick
  have hread := readTick_isRead (htick.trans TICKS_BELOW_10000_lt)
  have hold := readTick_isRead hprevious
  rw [addsMonths_iff_readTick htick]
  unfold MonthsAgree
  by_cases hn : n = 0
  · subst hn
    have hyear : YearOk (targetYear (readTick tick) 0) := by
      have hnow := ht.yearOk
      have hm := ht.date.month_pos
      have hm' := ht.date.month_le
      unfold YearOk targetYear at *
      omega
    refine iff_of_true ?_ (.inl rfl)
    rw [if_pos hyear, monthsLater_zero ht, heq, sceRtcTickAddMonths, if_pos rfl]
  · rw [or_iff_right hn, sceRtcTickAddMonths_spec hprevious _ hn]
    by_cases hyear : YearOk (targetYear (readTick tick) n)
    · rw [if_pos hyear, if_pos hyear]
      refine Iff.trans ?_ (monthsAgree_iff ht hread hold hyear)
      split
      · next hok => simp only [hok, Prod.mk.injEq, Option.some.injEq, true_and]
      · next hok => simp only [hok, Prod.mk.injEq, reduceCtorEq, false_and]
    · rw [if_neg hyear, if_neg hyear]
      have hwrapped : (wrappedYear (readTick previous) n : Int) = targetYear (readTick previous) n % 2 ^ 16 := by
        unfold wrappedYear
        omega
      rw [← hwrapped]
      split
      · next hok =>
        refine iff_of_false ?_ (not_not.mpr hok)
        rintro ⟨e, he, hresult⟩
        exact he (Prod.mk.inj hresult).1.symm
      · next hok => exact iff_of_true ⟨_, by decide, rfl⟩ hok

/-- Without the cut of the day only a leap day can differ. -/
def YearsAgree (old : OrbisRtcDateTime) (n : Int) : Prop :=
  n = 0 ∨ ¬(old.month = 2 ∧ old.day = 29 ∧ YearOk ((old.year + n) % 2 ^ 16) ∧
    ¬isLeap ((old.year + n) % 2 ^ 16).toNat = true)

instance {old : OrbisRtcDateTime} {n : Int} : Decidable (YearsAgree old n) :=
  inferInstanceAs (Decidable (_ ∨ _))

/-- Twelve times as many months only change the year. -/
theorem target_years (ht : IsRead t) (n : Int) :
    wrappedYear t (12 * n) = ((t.year + n) % 2 ^ 16).toNat ∧ targetMonth t (12 * n) = t.month := by
  obtain ⟨-, hpos, hle, -⟩ := ht
  unfold wrappedYear targetMonth targetYear
  constructor <;> omega

theorem sceRtcTickAddYears_eq_iff {previous : Nat} (hprevious : previous < 2 ^ 64) (tick : Nat) (n : Int) :
    sceRtcTickAddYears (some previous) (some tick) n =
        sceRtcTickAddMonths (some previous) (some tick) (12 * n) ↔ YearsAgree (readTick previous) n := by
  have hold := readTick_isRead hprevious
  unfold YearsAgree
  by_cases hn : n = 0
  · subst hn
    refine iff_of_true ?_ (.inl rfl)
    rw [mul_zero, sceRtcTickAddMonths, sceRtcTickAddYears, if_pos rfl, if_pos rfl]
  rw [or_iff_right hn, sceRtcTickAddMonths_spec hprevious tick (show 12 * n ≠ 0 by omega)]
  simp only [sceRtcTickAddYears, if_neg hn]
  obtain ⟨hyear, hmonth⟩ := target_years hold n
  rw [hyear, hmonth]
  have hcast : ((((readTick previous).year + n) % 2 ^ 16).toNat : Int) =
      ((readTick previous).year + n) % 2 ^ 16 := by omega
  rw [← hcast, Int.toNat_natCast]
  generalize (((readTick previous).year + n) % 2 ^ 16).toNat = year
  generalize readTick previous = old at hold
  split
  · next hok =>
    by_cases hday : old.day ≤ daysInMonth year old.month
    · have hkept : { old with year := year } = inMonth old year old.month := by
        rw [inMonth, Nat.min_eq_left hday]
      rw [hkept, storeTick_inMonth hold year hold.month_pos hold.month_le, if_pos hok]
      refine iff_of_true rfl ?_
      rintro ⟨hm, hd, -, hleap⟩
      rw [hm, hd, daysInMonth, if_neg hleap] at hday
      exact absurd hday (by decide)
    · rw [storeTick_of_day hold hok hday]
      refine iff_of_false (fun h => absurd (Prod.mk.inj h).1 (by decide)) (not_not.mpr ?_)
      have hm : old.month = 2 := by
        by_contra hm
        exact hday (hold.day_le hm year)
      have hfeb := hold.february hm
      rw [hm, daysInMonth] at hday
      split at hday
      · exact absurd hfeb hday
      · next hleap => exact ⟨hm, by omega, hok, hleap⟩
  · next hok =>
    rw [storeTick_of_year hok]
    exact iff_of_true rfl fun h => hok h.2.2.1

/-! ## Months and years -/

/-- The months come out right when the output's previous content is moved to the date asked for; years
    and months go together unless a leap day has to be cut. -/
theorem addMonths_and_years_iff (tick previous : Nat) (n : Int) :
    tick < TICKS_BELOW_10000 → previous < 2 ^ 64 →
      (AddsMonths tick previous n ↔ MonthsAgree (readTick tick) (readTick previous) n) ∧
      (sceRtcTickAddYears (some previous) (some tick) n =
        sceRtcTickAddMonths (some previous) (some tick) (12 * n) ↔ YearsAgree (readTick previous) n) :=
  fun htick hprevious => ⟨addsMonths_iff htick hprevious n, sceRtcTickAddYears_eq_iff hprevious tick n⟩

/-- From a leap day shortly before the 36th minute to the end of the next February, and by four years. -/
theorem addMonths_leapDay : AddsMonths 63844806959500000 63844806959500000 12 ∧
    sceRtcTickAddYears (some 63844806959500000) (some 63844806959500000) 4 =
      sceRtcTickAddMonths (some 63844806959500000) (some 63844806959500000) (12 * 4) :=
  have hmonths := addMonths_and_years_iff 63844806959500000 63844806959500000 12 (by decide) (by decide)
  have hyears := addMonths_and_years_iff 63844806959500000 63844806959500000 4 (by decide) (by decide)
  ⟨hmonths.1.mpr (by with_unfolding_all decide), hyears.2.mpr (by with_unfolding_all decide)⟩

/-- One month after a leap day is said to be in the first year, when the output held the first tick. -/
theorem addMonths_reads_output :
    ¬((∀ tick < TICKS_BELOW_10000, ∀ previous < 2 ^ 64, ∀ n : Int, -2 ^ 31 ≤ n → n < 2 ^ 31 →
        AddsMonths tick previous n) ∧
      ∀ tick < TICKS_BELOW_10000, ∀ previous < 2 ^ 64, ∀ n : Int, -2 ^ 31 ≤ 12 * n → 12 * n < 2 ^ 31 →
        sceRtcTickAddYears (some previous) (some tick) n =
          sceRtcTickAddMonths (some previous) (some tick) (12 * n)) := by
  rintro ⟨hall, -⟩
  have htick : 63844806959500000 < TICKS_BELOW_10000 := by decide
  have hagree := (addsMonths_iff htick (show 0 < 2 ^ 64 by decide) 1).mp
    (hall _ htick 0 (by decide) 1 (by decide) (by decide))
  exact absurd hagree (by with_unfolding_all decide)

end Rtc
