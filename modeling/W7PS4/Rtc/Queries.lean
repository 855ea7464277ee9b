-- SUMMARY: The queries of a date-time: which of them leave it alone, and when the time they answer leads back to it.
import W7PS4.Rtc.DosTime

/-!
# Queries of a date-time

Five functions read a date-time that belongs to the caller. `sceRtcGetTick` shifts its
month and its year in place, and so do the two that call it; the others only read. The
times since 1970 and since 1601 are differences of ticks.
-/

namespace Rtc

def UNIX_EPOCH_TICKS : Nat := 0xdcbffeff2bc000

def WIN32_FILETIME_EPOCH_TICKS : Nat := 0xb36168b6a58000

/-- The result comes with `*pTime` and `*llTime` after the call. -/
def sceRtcGetTime_t (pTime : Option OrbisRtcDateTime) (llTime : Option Int) :
    RtcResult × Option OrbisRtcDateTime × Option Int :=
  match pTime, llTime with
  | some t, some _ =>
    if sceRtcCheckValid (some t) ≠ .ok then (sceRtcCheckValid (some t), pTime, llTime)
    else
      let (_, pTime, timeTick) := sceRtcGetTick (some t) (some 0)
      let tick := timeTick.getD 0
      if tick < UNIX_EPOCH_TICKS then (.ok, pTime, some 0)
      else (.ok, pTime, some ((tick - UNIX_EPOCH_TICKS) / 1000000 : Nat))
  | _, _ => (.invalidPointer, pTime, llTime)

/-- The result comes with `*pTime` and `*ulWin32Time` after the call. -/
def sceRtcGetWin32FileTime (pTime : Option OrbisRtcDateTime) (ulWin32Time : Option Nat) :
    RtcResult × Option OrbisRtcDateTime × Option Nat :=
  match pTime, ulWin32Time with
  | some t, some _ =>
    if sceRtcCheckValid (some t) ≠ .ok then (sceRtcCheckValid (some t), pTime, ulWin32Time)
    else
      let (_, pTime, timeTick) := sceRtcGetTick (some t) (some 0)
      let tick := timeTick.getD 0
      if tick < WIN32_FILETIME_EPOCH_TICKS then (.ok, pTime, some 0)
      else (.ok, pTime, some ((tick - WIN32_FILETIME_EPOCH_TICKS) * 10 % 2 ^ 64))
  | _, _ => (.invalidPointer, pTime, ulWin32Time)

/-- The tick that `sceRtcGetTick` computes. -/
def tickOf (t : OrbisRtcDateTime) : Nat :=
  U64.ofInt (microseconds t - if t.minute < 36 then 0 else 2 ^ 32)

variable {t : OrbisRtcDateTime}

theorem sceRtcGetTick_eq (h : IsValid t) (tick : Nat) :
    sceRtcGetTick (some t) (some tick) = (.ok, some (shiftMonth t), some (tickOf t)) :=
  sceRtcGetTick_spec h tick

theorem sceRtcGetTime_t_spec (h : IsValid t) (llTime : Int) : sceRtcGetTime_t (some t) (some llTime) =
      (.ok, some (shiftMonth t), some (((tickOf t - UNIX_EPOCH_TICKS) / 1000000 : Nat) : Int)) := by
  have hok : ¬sceRtcCheckValid (some t) ≠ .ok := not_not.mpr (sceRtcCheckValid_eq_ok.mpr h)
  simp only [sceRtcGetTime_t, if_neg hok, sceRtcGetTick_eq h, Option.getD_some]
  split
  · next hlt => rw [Nat.sub_eq_zero_of_le hlt.le, Nat.zero_div, Nat.cast_zero]
  · rfl

theorem sceRtcGetWin32FileTime_spec (h : IsValid t) (ulWin32Time : Nat) :
    sceRtcGetWin32FileTime (some t) (some ulWin32Time) =
      (.ok, some (shiftMonth t), some ((tickOf t - WIN32_FILETIME_EPOCH_TICKS) * 10 % 2 ^ 64)) := by
  have hok : ¬sceRtcCheckValid (some t) ≠ .ok := not_not.mpr (sceRtcCheckValid_eq_ok.mpr h)
  simp only [sceRtcGetWin32FileTime, if_neg hok, sceRtcGetTick_eq h, Option.getD_some]
  split
  · next hlt => rw [Nat.sub_eq_zero_of_le hlt.le, Nat.zero_mul, Nat.zero_mod]
  · rfl

inductive SetTimeResult where
  | ok
  | invalidPointer
  | invalidValue
deriving DecidableEq, Repr

/-- Programs for an older system have 32 bits for the time. -/
def sceRtcSetTime_t (sdkVersion : Int) (pTime : Option OrbisRtcDateTime) (llTime : Int) :
    SetTimeResult × Option OrbisRtcDateTime :=
  match pTime with
  | some t =>
    if sdkVersion < 0x3000000 then
      let tick := U64.ofInt (llTime % 2 ^ 32 * 1000000)
      (.ok, (sceRtcSetTick (some t) (some (U64.add tick UNIX_EPOCH_TICKS))).2)
    else if llTime < 0 then (.invalidValue, pTime)
    else
      let tick := U64.ofInt (llTime * 1000000)
      (.ok, (sceRtcSetTick (some t) (some (U64.add tick UNIX_EPOCH_TICKS))).2)
  | none => (.invalidPointer, none)

/-- The parameter is signed, and its quotient rounds towards zero. -/
def sceRtcSetWin32FileTime (pTime : Option OrbisRtcDateTime) (ulWin32Time : Int) :
    SetTimeResult × Option OrbisRtcDateTime :=
  match pTime with
  | some t =>
    let convertedTime := U64.ofInt (ulWin32Time.tdiv 10 + WIN32_FILETIME_EPOCH_TICKS)
    (.ok, (sceRtcSetTick (some t) (some convertedTime)).2)
  | none => (.invalidPointer, none)

/-! ## Sequences of queries -/

/-- A query, with the previous content of its output. -/
inductive RtcQuery where
  | getTick (tick : Nat)
  | getTime_t (llTime : Int)
  | getWin32FileTime (ulWin32Time : Nat)
  | getDosTime (dosTime : BitVec 32)
  | checkValid
deriving DecidableEq, Repr

/-- What a query leaves in its output. -/
inductive RtcOutput where
  | tick (tick : Option Nat)
  | time (llTime : Option Int)
  | fileTime (ulWin32Time : Option Nat)
  | dosTime (dosTime : Option (BitVec 32))
  | nothing
deriving DecidableEq, Repr

namespace RtcQuery

/-- The answer, and the date-time after the call. -/
def run (q : RtcQuery) (t : OrbisRtcDateTime) : (RtcResult × RtcOutput) × OrbisRtcDateTime :=
  match q with
  | getTick tick =>
    let (result, pTime, pTick) := sceRtcGetTick (some t) (some tick)
    ((result, .tick pTick), pTime.getD t)
  | getTime_t llTime =>
    let (result, pTime, llTime) := sceRtcGetTime_t (some t) (some llTime)
    ((result, .time llTime), pTime.getD t)
  | getWin32FileTime ulWin32Time =>
    let (result, pTime, ulWin32Time) := sceRtcGetWin32FileTime (some t) (some ulWin32Time)
    ((result, .fileTime ulWin32Time), pTime.getD t)
  | getDosTime dosTime =>
    let (result, dosTime) := sceRtcGetDosTime (some t) (some dosTime)
    ((result, .dosTime dosTime), t)
  | checkValid => ((sceRtcCheckValid (some t), .nothing), t)

/-- The query computes the tick. -/
def usesTick : RtcQuery → Bool
  | getTick _ | getTime_t _ | getWin32FileTime _ => true
  | getDosTime _ | checkValid => false

/-- The calls one after the other: each query with its answer and the date-time after it. -/
def runAll (t : OrbisRtcDateTime) : List RtcQuery →
    List (RtcQuery × (RtcResult × RtcOutput) × OrbisRtcDateTime)
  | [] => []
  | q :: qs => (q, q.run t) :: runAll (q.run t).2 qs

/-- The date-time is as it was after every call, and every answer is the one to a first query. -/
def ReadOnly (t : OrbisRtcDateTime) (qs : List RtcQuery) : Prop :=
  ∀ call ∈ runAll t qs, call.2.2 = t ∧ call.2.1 = (call.1.run t).1

variable {t : OrbisRtcDateTime}

theorem run_of_usesTick (h : IsValid t) {q : RtcQuery} (hq : q.usesTick = true) :
    (q.run t).2 = shiftMonth t := by
  cases q with
  | getTick tick => simp only [run, sceRtcGetTick_spec h, Option.getD_some]
  | getTime_t llTime => simp only [run, sceRtcGetTime_t_spec h, Option.getD_some]
  | getWin32FileTime ulWin32Time => simp only [run, sceRtcGetWin32FileTime_spec h, Option.getD_some]
  | getDosTime dosTime => cases hq
  | checkValid => cases hq

theorem run_of_not_usesTick {q : RtcQuery} (hq : ¬q.usesTick = true) : (q.run t).2 = t := by
  cases q with
  | getDosTime dosTime => rfl
  | checkValid => rfl
  | getTick tick => exact absurd rfl hq
  | getTime_t llTime => exact absurd rfl hq
  | getWin32FileTime ulWin32Time => exact absurd rfl hq

/-- No date-time has the month that it has in a year from March. -/
theorem shiftMonth_ne (t : OrbisRtcDateTime) : shiftMonth t ≠ t := by
  intro h
  have hmonth := congrArg OrbisRtcDateTime.month h
  unfold shiftMonth at hmonth
  split at hmonth
  · simp only at hmonth
    omega
  · simp only at hmonth
    omega

theorem readOnly_iff (h : IsValid t) (qs : List RtcQuery) : ReadOnly t qs ↔ ∀ q ∈ qs, ¬q.usesTick = true := by
  unfold ReadOnly
  induction qs with
  | nil => simp [runAll]
  | cons q qs ih =>
    simp only [runAll, List.mem_cons, forall_eq_or_imp]
    by_cases hq : q.usesTick = true
    · refine iff_of_false ?_ ?_
      · rintro ⟨⟨hsame, -⟩, -⟩
        rw [run_of_usesTick h hq] at hsame
        exact shiftMonth_ne t hsame
      · exact fun hall => hall.1 hq
    · rw [run_of_not_usesTick hq]
      exact and_congr (iff_of_true ⟨rfl, trivial⟩ hq) ih

end RtcQuery

/-! ## Restoring a date-time -/

theorem sceRtcSetTick_eq_iff (h : IsValid t) {tick : Nat}
    (htick : tick < TICKS_BELOW_10000) (d : OrbisRtcDateTime) :
    (sceRtcSetTick (some d) (some tick)).2 = some t ↔ tick = microseconds t := by
  obtain ⟨t', hset, hvalid, heq⟩ := sceRtcSetTick_spec htick d
  rw [hset, Option.some.injEq, ← heq]
  exact ⟨fun hsame => congrArg microseconds hsame, microseconds_injective hvalid h⟩

theorem daysBeforeYear_mul_le {year : Nat} (hpos : 1 ≤ year)
    (hle : year ≤ t.year) : Calendar.daysBeforeYear year * 86400000000 ≤ microseconds t := by
  have hdays : Calendar.daysBeforeYear year ≤ Calendar.daysBeforeYear t.year := by
    rcases hle.eq_or_lt with heq | hlt
    · rw [heq]
    · have := Calendar.daysBeforeYear_le hpos hlt
      omega
  unfold microseconds Calendar.dayNumber
  omega

theorem daysBeforeYear_1970 : Calendar.daysBeforeYear 1970 = 719162 := by
  have h := Calendar.daysBeforeYear_succ 1969
  norm_num at h
  omega

theorem daysBeforeYear_1601 : Calendar.daysBeforeYear 1601 = 584388 := by
  have h := Calendar.daysBeforeYear_succ 1600
  norm_num at h
  omega

theorem UNIX_EPOCH_TICKS_le (h : 1970 ≤ t.year) : UNIX_EPOCH_TICKS ≤ microseconds t := by
  have hle := daysBeforeYear_mul_le (by decide) h
  rw [daysBeforeYear_1970] at hle
  unfold UNIX_EPOCH_TICKS
  omega

theorem WIN32_FILETIME_EPOCH_TICKS_le (h : 1601 ≤ t.year) : WIN32_FILETIME_EPOCH_TICKS ≤ microseconds t := by
  have hle := daysBeforeYear_mul_le (by decide) h
  rw [daysBeforeYear_1601] at hle
  unfold WIN32_FILETIME_EPOCH_TICKS
  omega

theorem tickOf_eq (h : IsValid t) (hlarge : 2 ^ 32 ≤ microseconds t) :
    tickOf t + (if microseconds t / 60000000 % 60 < 36 then 0 else 2 ^ 32) = microseconds t := by
  have hminute := minute_eq h
  have hlt := microseconds_lt h
  unfold TICKS_BELOW_10000 DAYS_BELOW_10000 at hlt
  unfold tickOf U64.ofInt
  rw [hminute]
  split <;> omega

/-- The date-time without the microseconds. -/
def toSecond (t : OrbisRtcDateTime) : OrbisRtcDateTime := { t with microsecond := 0 }

theorem microseconds_toSecond (h : IsValid t) :
    microseconds (toSecond t) = microseconds t / 1000000 * 1000000 := by
  have hmicro := h.microsecond_lt
  unfold microseconds microsecondsOfDay
  simp only [toSecond]
  omega

/-- `sceRtcSetTime_t` makes the date-time again of the time that `sceRtcGetTime_t` makes of it. -/
def RestoresTime (sdkVersion : Int) (t : OrbisRtcDateTime) : Prop :=
  ∀ d llTime, ∃ t' time, sceRtcGetTime_t (some t) (some llTime) = (.ok, t', some time) ∧
    sceRtcSetTime_t sdkVersion (some d) time = (.ok, some (toSecond t))

/-- `sceRtcSetWin32FileTime` makes the date-time again of what `sceRtcGetWin32FileTime` makes of it. -/
def RestoresFileTime (t : OrbisRtcDateTime) : Prop :=
  ∀ d ulWin32Time, ∃ t' time,
    sceRtcGetWin32FileTime (some t) (some ulWin32Time) = (.ok, t', some time) ∧
      sceRtcSetWin32FileTime (some d) time = (.ok, some t)

theorem U64.ofInt_natCast {n : Nat} (h : n < 2 ^ 64) : U64.ofInt n = n := by
  unfold U64.ofInt
  omega

theorem sceRtcSetTime_t_spec (sdkVersion : Int) (d : OrbisRtcDateTime) {seconds : Nat}
    (hfits : UNIX_EPOCH_TICKS + seconds * 1000000 < TICKS_BELOW_10000) :
    sceRtcSetTime_t sdkVersion (some d) seconds = (.ok, (sceRtcSetTick (some d) (some (UNIX_EPOCH_TICKS +
      (if sdkVersion < 0x3000000 then seconds % 2 ^ 32 else seconds) * 1000000))).2) := by
  unfold UNIX_EPOCH_TICKS TICKS_BELOW_10000 DAYS_BELOW_10000 at hfits
  have htick : ∀ n ≤ seconds, U64.add (U64.ofInt (n * 1000000 : Nat)) UNIX_EPOCH_TICKS =
      UNIX_EPOCH_TICKS + n * 1000000 := by
    intro n hn
    unfold UNIX_EPOCH_TICKS
    rw [U64.ofInt_natCast (by omega), U64.add_of_lt (by omega), Nat.add_comm]
  have hmod := htick (seconds % 2 ^ 32) (Nat.mod_le _ _)
  have hall := htick seconds le_rfl
  simp only [Nat.cast_mul, Int.natCast_mod, Nat.cast_pow, Nat.cast_ofNat] at hmod hall
  simp only [sceRtcSetTime_t]
  split
  · rw [hmod]
  · rw [if_neg (by omega), hall]

/-- The seconds lead back to the second of the tick unless the minutes or the seconds have wrapped.
    The epoch is the beginning of an hour. -/
theorem seconds_eq_iff {m tick : Nat} {old : Prop} [Decidable old] (hge : UNIX_EPOCH_TICKS ≤ m)
    (htick : tick + (if m / 60000000 % 60 < 36 then 0 else 2 ^ 32) = m) :
    UNIX_EPOCH_TICKS + (if old then (tick - UNIX_EPOCH_TICKS) / 1000000 % 2 ^ 32
      else (tick - UNIX_EPOCH_TICKS) / 1000000) * 1000000 = m / 1000000 * 1000000 ↔
        m / 60000000 % 60 < 36 ∧ (old → m < UNIX_EPOCH_TICKS + 2 ^ 32 * 1000000) := by
  unfold UNIX_EPOCH_TICKS at *
  by_cases hminutes : m / 60000000 % 60 < 36
  · rw [if_pos hminutes] at htick
    by_cases hold : old
    · simp only [hminutes, hold, if_true, true_and, true_imp_iff]
      omega
    · simp only [hminutes, hold, if_false, true_and, false_imp_iff, iff_true]
      omega
  · rw [if_neg hminutes] at htick
    simp only [hminutes, false_and, iff_false]
    split <;> omega

theorem micros_eq_iff {m tick : Nat} (hge : WIN32_FILETIME_EPOCH_TICKS ≤ m)
    (htick : tick + (if m / 60000000 % 60 < 36 then 0 else 2 ^ 32) = m) :
    WIN32_FILETIME_EPOCH_TICKS + (tick - WIN32_FILETIME_EPOCH_TICKS) = m ↔ m / 60000000 % 60 < 36 := by
  unfold WIN32_FILETIME_EPOCH_TICKS at *
  split at htick <;> omega

theorem restoresTime_iff (sdkVersion : Int) (h : IsValid t) (hyear : 1970 ≤ t.year) :
    RestoresTime sdkVersion t ↔ t.minute < 36 ∧
      (sdkVersion < 0x3000000 → microseconds t < UNIX_EPOCH_TICKS + 2 ^ 32 * 1000000) := by
  have hge := UNIX_EPOCH_TICKS_le hyear
  have hlt := microseconds_lt h
  have htick := tickOf_eq h (le_trans (by decide) hge)
  have hvalid : IsValid (toSecond t) :=
    ⟨h.date, h.year_le, h.hour_lt, h.minute_lt, h.second_lt, show 0 < 1000000 by decide⟩
  have hfits : UNIX_EPOCH_TICKS + (tickOf t - UNIX_EPOCH_TICKS) / 1000000 * 1000000 < TICKS_BELOW_10000 := by
    generalize microseconds t = m at hge hlt htick
    generalize tickOf t = tick at htick
    generalize UNIX_EPOCH_TICKS = epoch at hge
    omega
  have hset := fun d => sceRtcSetTime_t_spec sdkVersion d hfits
  have hsame : ∀ d, (sceRtcSetTime_t sdkVersion (some d) ((tickOf t - UNIX_EPOCH_TICKS) / 1000000 : Nat)).2 =
      some (toSecond t) ↔ t.minute < 36 ∧
        (sdkVersion < 0x3000000 → microseconds t < UNIX_EPOCH_TICKS + 2 ^ 32 * 1000000) := by
    intro d
    rw [hset, sceRtcSetTick_eq_iff hvalid (lt_of_le_of_lt ?_ hfits), microseconds_toSecond h,
      minute_eq h, seconds_eq_iff hge htick]
    split
    · have := Nat.mod_le ((tickOf t - UNIX_EPOCH_TICKS) / 1000000) (2 ^ 32)
      gcongr
    · exact le_rfl
  constructor
  · intro hrestore
    obtain ⟨t', time, hget, hset'⟩ := hrestore t 0
    rw [sceRtcGetTime_t_spec h] at hget
    obtain rfl := Option.some.inj (Prod.mk.inj (Prod.mk.inj hget).2).2
    exact (hsame t).mp (Prod.mk.inj hset').2
  · intro hcond d llTime
    refine ⟨_, _, sceRtcGetTime_t_spec h llTime, (hset d).trans ?_⟩
    rw [← (hsame d).mpr hcond, hset d]

theorem sceRtcSetWin32FileTime_spec (d : OrbisRtcDateTime) {micros : Nat}
    (hfits : WIN32_FILETIME_EPOCH_TICKS + micros < TICKS_BELOW_10000) :
    sceRtcSetWin32FileTime (some d) (micros * 10 % 2 ^ 64 : Nat) =
      (.ok, (sceRtcSetTick (some d) (some (WIN32_FILETIME_EPOCH_TICKS + micros))).2) := by
  unfold TICKS_BELOW_10000 DAYS_BELOW_10000 at hfits
  have hmod : micros * 10 % 2 ^ 64 = micros * 10 := Nat.mod_eq_of_lt (by omega)
  have hdiv : ((micros * 10 : Nat) : Int).tdiv 10 = micros := by
    rw [Int.tdiv_eq_ediv_of_nonneg (by omega)]
    omega
  simp only [sceRtcSetWin32FileTime, hmod, hdiv]
  rw [← Nat.cast_add, U64.ofInt_natCast (by omega), Nat.add_comm]

theorem restoresFileTime_iff (h : IsValid t) (hyear : 1601 ≤ t.year) : RestoresFileTime t ↔ t.minute < 36 := by
  have hge := WIN32_FILETIME_EPOCH_TICKS_le hyear
  have hlt := microseconds_lt h
  have htick := tickOf_eq h (le_trans (by decide) hge)
  have hfits : WIN32_FILETIME_EPOCH_TICKS + (tickOf t - WIN32_FILETIME_EPOCH_TICKS) < TICKS_BELOW_10000 := by
    generalize microseconds t = m at hge hlt htick
    generalize tickOf t = tick at htick
    generalize WIN32_FILETIME_EPOCH_TICKS = epoch at hge
    omega
  have hset := fun d => sceRtcSetWin32FileTime_spec d hfits
  have hsame : ∀ d, (sceRtcSetWin32FileTime (some d)
      ((tickOf t - WIN32_FILETIME_EPOCH_TICKS) * 10 % 2 ^ 64 : Nat)).2 = some t ↔ t.minute < 36 := by
    intro d
    rw [hset, sceRtcSetTick_eq_iff h hfits, minute_eq h, micros_eq_iff hge htick]
  constructor
  · intro hrestore
    obtain ⟨t', time, hget, hset'⟩ := hrestore t 0
    rw [sceRtcGetWin32FileTime_spec h] at hget
    obtain rfl := Option.some.inj (Prod.mk.inj (Prod.mk.inj hget).2).2
    exact (hsame t).mp (Prod.mk.inj hset').2
  · intro hminute d time
    refine ⟨_, _, sceRtcGetWin32FileTime_spec h time, (hset d).trans ?_⟩
    rw [← (hsame d).mpr hminute, hset d]

/-! ## Queries of a valid date-time -/

/-- A sequence of queries is read-only exactly when none of them computes the tick; a time leads back to
    its date-time exactly when the tick is right, and fits where it is kept in 32 bits. -/
theorem queries_iff (sdkVersion : Int) (t : OrbisRtcDateTime) (qs : List RtcQuery) :
    sceRtcCheckValid (some t) = .ok →
      (RtcQuery.ReadOnly t qs ↔ ∀ q ∈ qs, ¬q.usesTick = true) ∧
      (1970 ≤ t.year → (RestoresTime sdkVersion t ↔ t.minute < 36 ∧
        (sdkVersion < 0x3000000 → microseconds t < UNIX_EPOCH_TICKS + 2 ^ 32 * 1000000))) ∧
      (1601 ≤ t.year → (RestoresFileTime t ↔ t.minute < 36)) := by
  intro h
  have hvalid := sceRtcCheckValid_eq_ok.mp h
  exact ⟨RtcQuery.readOnly_iff hvalid qs, restoresTime_iff sdkVersion hvalid, restoresFileTime_iff hvalid⟩

/-- A leap day, asked for its DOS time between two checks. -/
theorem queries_leapDay :
    RtcQuery.ReadOnly ⟨2024, 2, 29, 12, 35, 59, 500000⟩ [.checkValid, .getDosTime 0, .checkValid] ∧
      RestoresTime 0x1000000 ⟨2024, 2, 29, 12, 35, 59, 500000⟩ ∧
      RestoresFileTime ⟨2024, 2, 29, 12, 35, 59, 500000⟩ :=
  have hall := queries_iff 0x1000000 ⟨2024, 2, 29, 12, 35, 59, 500000⟩
    [.checkValid, .getDosTime 0, .checkValid] (by decide)
  ⟨hall.1.mpr (by decide), (hall.2.1 (by decide)).mpr ⟨by decide, by decide +kernel⟩,
    (hall.2.2 (by decide)).mpr (by decide)⟩

/-- Asking for the tick of a day in January leaves it in October of the year before. -/
theorem getTick_shifts_date : ¬((∀ t, sceRtcCheckValid (some t) = .ok → ∀ qs, RtcQuery.ReadOnly t qs) ∧
    (∀ sdkVersion t, sceRtcCheckValid (some t) = .ok → 1970 ≤ t.year → RestoresTime sdkVersion t) ∧
    ∀ t, sceRtcCheckValid (some t) = .ok → 1601 ≤ t.year → RestoresFileTime t) := by
  rintro ⟨hall, -⟩
  have hok : sceRtcCheckValid (some ⟨2024, 1, 15, 12, 0, 0, 0⟩) = .ok := by decide
  have hcalls := (RtcQuery.readOnly_iff (sceRtcCheckValid_eq_ok.mp hok) [.getTick 0]).mp (hall _ hok _)
  exact hcalls (.getTick 0) (by decide) rfl

end Rtc
