-- SUMMARY: What the parsers read in the texts of the formatters, and for which ticks and time zones that is the tick.
import W7PS4.Rtc.Formats

/-!
# Texts and back

Both texts are a head of fixed length, whose fields the parsers read back as they are,
and a time zone. The parsers move the tick in the direction in which the formatters have
moved it, so the two shifts add up, unless the formatter has lost the sign.
-/

namespace Rtc

open Text (StdError charAt stoi substr)
open Nat (digitChar mod_lt toDigits_of_base_le)

/-! ## Fields of a text -/

variable {s : List Char} {n : Nat} {t : OrbisRtcDateTime}

theorem substr_append_left {pos len : Nat} (h : pos + len ≤ s.length) (rest : List Char) :
    substr (s ++ rest) pos len = substr s pos len := by
  unfold substr
  rw [if_pos (by rw [List.length_append]; omega), if_pos (by omega), List.drop_append_of_le_length (by omega),
    List.take_append_of_le_length (by rw [List.length_drop]; omega)]

theorem readField_append_left {pos len : Nat} (h : pos + len ≤ s.length) (rest : List Char) :
    readField (s ++ rest) pos len = readField s pos len := by
  unfold readField
  rw [substr_append_left h]

theorem charAt_append_left {i : Nat} (h : i < s.length) (rest : List Char) :
    charAt (s ++ rest) i = charAt s i := by
  unfold charAt
  rw [if_pos (by rw [List.length_append]; omega), if_pos (by omega), List.getD_append _ _ _ _ h]

theorem readField_append_right (s rest : List Char) (pos len : Nat) :
    readField (s ++ rest) (s.length + pos) len = readField rest pos len := by
  unfold readField substr
  simp only [List.length_append, Nat.add_le_add_iff_left, List.drop_length_add_append]

theorem charAt_append_right (s rest : List Char) (i : Nat) :
    charAt (s ++ rest) (s.length + i) = charAt rest i := by
  unfold charAt
  rw [List.getD_append_right _ _ _ _ (Nat.le_add_right _ _), Nat.add_sub_cancel_left]
  simp only [List.length_append, Nat.add_le_add_iff_left]

theorem digitChar_ne {d : Nat} (hd : d < 10) {c : Char} (hc : ¬c.isDigit = true) : digitChar d ≠ c := by
  rintro rfl
  exact hc (by rw [Nat.isDigit_digitChar, decide_eq_true hd])

theorem toString_natCast (n : Nat) : Text.toString n = Nat.toDigits 10 n := by
  unfold Text.toString
  rw [if_neg (by omega), Int.natAbs_natCast]

theorem twoDigits_eq (hn : n < 100) : twoDigits n = [digitChar (n / 10), digitChar (n % 10)] := by
  unfold twoDigits
  rw [toString_natCast]
  split
  · next hsmall =>
    rw [Nat.toDigits_of_lt_base (by omega), show n / 10 = 0 by omega, show n % 10 = n by omega]
    rfl
  rename_i hlarge
  rw [toDigits_of_base_le (by decide) (by omega), Nat.toDigits_of_lt_base (by omega)]
  rfl

theorem toString_fourDigits (hlow : 1000 ≤ n) (hhigh : n < 10000) : Text.toString n =
      [digitChar (n / 1000), digitChar (n / 100 % 10), digitChar (n / 10 % 10),
        digitChar (n % 10)] := by
  rw [toString_natCast, toDigits_of_base_le (by decide) (by omega),
    toDigits_of_base_le (by decide) (by omega), toDigits_of_base_le (by decide) (by omega),
    Nat.toDigits_of_lt_base (by omega), show n / 10 / 10 = n / 100 by omega, show n / 100 / 10 = n / 1000 by omega]
  rfl

theorem stoi_toString (hn : n < 2 ^ 31) : stoi (Text.toString n) = .ok (n : Int) := by
  rw [toString_natCast, Text.stoi_toDigits hn]

theorem stoi_twoDigits (hn : n < 100) (rest : List Char)
    (hrest : ∀ c ∈ rest.head?, ¬c.isDigit = true) : stoi (twoDigits n ++ rest) = .ok (n : Int) := by
  rw [twoDigits_eq hn]
  have hvalue : Nat.ofDigitChars 10 [digitChar (n / 10), digitChar (n % 10)] 0 = n := by
    rw [Nat.ofDigitChars_cons_digitChar_of_lt_ten (by omega),
      Nat.ofDigitChars_cons_digitChar_of_lt_ten (by omega), Nat.ofDigitChars_nil]
    omega
  have h := @Text.stoi_append [digitChar (n / 10), digitChar (n % 10)] rest (by simp) ?_ hrest
    (by omega)
  · rwa [hvalue] at h
  · simp only [List.mem_cons, List.not_mem_nil, or_false, forall_eq_or_imp, forall_eq,
      Nat.isDigit_digitChar, decide_eq_true_eq]
    omega

/-! ## The heads of the texts -/

def headRFC3339 (t : OrbisRtcDateTime) : List Char :=
  (Text.toString t.year ++ ['-']) ++ (twoDigits t.month ++ ['-']) ++ (twoDigits t.day ++ ['T']) ++
    (twoDigits t.hour ++ [':']) ++ (twoDigits t.minute ++ [':']) ++ twoDigits t.second

def headRFC2822 (sdkVersion : Int) (t : OrbisRtcDateTime) : List Char :=
  weekDayText (sceRtcGetDayOfWeek sdkVersion t.year t.month t.day) ++
    (twoDigits t.day ++ [' ']) ++ monthText t.month ++ (Text.toString t.year ++ [' ']) ++
    (twoDigits t.hour ++ [':']) ++ (twoDigits t.minute ++ [':']) ++ (twoDigits t.second ++ [' '])

/-- The fields of a head are found at their positions. -/
structure ReadsRFC3339 (s : List Char) (t : OrbisRtcDateTime) : Prop where
  year : readField s 0 4 = .ok (t.year : Int)
  month : readField s 5 2 = .ok (t.month : Int)
  day : readField s 8 2 = .ok (t.day : Int)
  hour : readField s 11 2 = .ok (t.hour : Int)
  minute : readField s 14 2 = .ok (t.minute : Int)
  second : readField s 17 2 = .ok (t.second : Int)

theorem stoi_twoDigits_self (hn : n < 100) : stoi (twoDigits n) = .ok (n : Int) := by
  have h := stoi_twoDigits hn [] (by simp)
  rwa [List.append_nil] at h

section

variable {t : OrbisRtcDateTime}

theorem headRFC3339_reads (h : IsValid t) (hyear : 1000 ≤ t.year) :
    (headRFC3339 t).length = 19 ∧ ReadsRFC3339 (headRFC3339 t) t := by
  have hday := h.day_le
  obtain ⟨⟨-, -, hmonth, -, -⟩, hyear', hhour, hminute, hsecond, -⟩ := h
  have hy := stoi_toString (show t.year < 2 ^ 31 by omega)
  have hm := stoi_twoDigits_self (show t.month < 100 by omega)
  have hd := stoi_twoDigits_self (show t.day < 100 by omega)
  have hh := stoi_twoDigits_self (show t.hour < 100 by omega)
  have hmin := stoi_twoDigits_self (show t.minute < 100 by omega)
  have hs := stoi_twoDigits_self (show t.second < 100 by omega)
  unfold headRFC3339
  rw [toString_fourDigits hyear (by omega)] at hy ⊢
  rw [twoDigits_eq (by omega)] at hm hd hh hmin hs
  rw [twoDigits_eq (by omega), twoDigits_eq (by omega), twoDigits_eq (by omega), twoDigits_eq (by omega),
    twoDigits_eq (by omega)]
  exact ⟨rfl, hy, hm, hd, hh, hmin, hs⟩

theorem weekDayText_eq (h : IsValid t) (sdkVersion : Int) :
    ∃ a b c, weekDayText (sceRtcGetDayOfWeek sdkVersion t.year t.month t.day) = [a, b, c, ',', ' '] := by
  obtain ⟨⟨hy, hm, hm', hd, hd'⟩, hy', -⟩ := h
  have hday : sceRtcGetDayOfWeek sdkVersion t.year t.month t.day =
      .ok ((Calendar.dayNumber t.year t.month t.day + 1) % 7) := by
    have hlast : sceRtcGetDaysInMonth t.year t.month = .ok (Calendar.daysInMonth t.year t.month) := by
      unfold sceRtcGetDaysInMonth
      rw [if_neg (by omega), if_neg (by omega), Int.toNat_natCast, Int.toNat_natCast]
    unfold sceRtcGetDayOfWeek
    rw [if_neg (by omega), if_neg (by omega), hlast]
    simp only
    rw [if_neg (by omega), Int.toNat_natCast, Int.toNat_natCast, Int.toNat_natCast]
  rw [hday]
  have hlt := mod_lt (Calendar.dayNumber t.year t.month t.day + 1) (show 7 > 0 by decide)
  generalize (Calendar.dayNumber t.year t.month t.day + 1) % 7 = weekDay at hlt
  have hdays : weekDay = 0 ∨ weekDay = 1 ∨ weekDay = 2 ∨ weekDay = 3 ∨ weekDay = 4 ∨ weekDay = 5 ∨
      weekDay = 6 := by omega
  rcases hdays with rfl | rfl | rfl | rfl | rfl | rfl | rfl <;> exact ⟨_, _, _, rfl⟩

theorem monthText_eq {month : Nat} (hpos : 1 ≤ month) (hle : month ≤ 12) :
    ∃ a b c, monthText month = [a, b, c, ' '] ∧ GetMonthFromString [a, b, c] = month := by
  have hmonths : month = 1 ∨ month = 2 ∨ month = 3 ∨ month = 4 ∨ month = 5 ∨ month = 6 ∨ month = 7 ∨
      month = 8 ∨ month = 9 ∨ month = 10 ∨ month = 11 ∨ month = 12 := by omega
  rcases hmonths with rfl | rfl | rfl | rfl | rfl | rfl | rfl | rfl | rfl | rfl | rfl | rfl <;>
    exact ⟨_, _, _, rfl, rfl⟩

/-- The fields of a head are found at their positions; one of them is the name of the month. -/
structure ReadsRFC2822 (s : List Char) (t : OrbisRtcDateTime) : Prop where
  day : readField s 5 2 = .ok (t.day : Int)
  month : ∃ name, substr s 8 3 = .ok name ∧ GetMonthFromString name = t.month
  year : readField s 12 4 = .ok (t.year : Int)
  hour : readField s 17 2 = .ok (t.hour : Int)
  key : charAt s 19 = .ok ':'
  minute : readField s 20 2 = .ok (t.minute : Int)
  second : readField s 23 2 = .ok (t.second : Int)

theorem headRFC2822_reads (h : IsValid t) (hyear : 1000 ≤ t.year) (sdkVersion : Int) :
    (headRFC2822 sdkVersion t).length = 26 ∧ ReadsRFC2822 (headRFC2822 sdkVersion t) t := by
  have hday := h.day_le
  obtain ⟨a, b, c, hweek⟩ := weekDayText_eq h sdkVersion
  obtain ⟨a', b', c', hname, hmonth'⟩ := monthText_eq h.date.month_pos h.date.month_le
  obtain ⟨-, hyear', hhour, hminute, hsecond, -⟩ := h
  have hy := stoi_toString (show t.year < 2 ^ 31 by omega)
  have hd := stoi_twoDigits_self (show t.day < 100 by omega)
  have hh := stoi_twoDigits_self (show t.hour < 100 by omega)
  have hmin := stoi_twoDigits_self (show t.minute < 100 by omega)
  have hs := stoi_twoDigits_self (show t.second < 100 by omega)
  unfold headRFC2822
  rw [hweek, hname]
  rw [toString_fourDigits hyear (by omega)] at hy ⊢
  rw [twoDigits_eq (by omega)] at hd hh hmin hs
  rw [twoDigits_eq (by omega), twoDigits_eq (by omega), twoDigits_eq (by omega), twoDigits_eq (by omega)]
  exact ⟨rfl, hd, ⟨_, rfl, hmonth'⟩, hy, hh, rfl, hmin, hs⟩

end

/-! ## The time zone -/

theorem readField_zero (h : s.length ≤ 2) : readField s 0 2 = stoi s := by
  unfold readField substr
  rw [if_pos (Nat.zero_le _), List.drop_zero, List.take_of_length_le h]
  rfl

/-- The sign in a zone's text: it is that of the full hours. -/
def zoneSign (z : Int) : Char := if z ≤ -60 then '-' else '+'

/-- A zone's text has its sign and its size. -/
structure ReadsZone (s : List Char) (minutesPos : Nat) (z : Int) : Prop where
  sign : charAt s 0 = .ok (zoneSign z)
  size : readZone s 1 minutesPos = .ok (z.natAbs : Int)

theorem minutesText_reads (hn : n < 60) :
    readField (if n = 0 then ['0', '0'] else Text.toString n) 0 2 = .ok (n : Int) := by
  split
  · next hzero =>
    subst hzero
    exact stoi_twoDigits_self (show 0 < 100 by decide)
  rename_i hpos
  rw [readField_zero, stoi_toString (by omega)]
  rw [toString_natCast]
  exact (Nat.length_toDigits_le_iff (by decide) (by decide)).mpr (by omega)

/-- The sign of the quotient, which is lost below an hour. -/
theorem tdiv_neg_iff (z : Int) : z.tdiv 60 < 0 ↔ z ≤ -60 := by
  have hdivmod := Int.mul_tdiv_add_tmod z 60
  rcases Int.lt_or_le z 0 with hz | hz
  · have hhigh : 0 ≤ (-z).tmod 60 := Int.tmod_nonneg 60 (by omega)
    have hlow : (-z).tmod 60 < 60 := Int.tmod_lt_of_pos _ (by decide)
    rw [Int.neg_tmod] at hhigh hlow
    omega
  · have hlow : 0 ≤ z.tmod 60 := Int.tmod_nonneg 60 hz
    have hhigh : z.tmod 60 < 60 := Int.tmod_lt_of_pos z (by decide)
    omega

theorem zoneText_eq {z : Int} (hz : z ≠ 0) (utc separator : List Char) :
    zoneText utc separator z = zoneSign z :: (twoDigits (z.natAbs / 60 : Nat) ++ separator ++
      if z.natAbs % 60 = 0 then ['0', '0'] else Text.toString (z.natAbs % 60 : Nat)) := by
  have hhours : (z.tdiv 60).natAbs = z.natAbs / 60 := Int.natAbs_tdiv z 60
  have hminutes : (z.tmod 60).natAbs = z.natAbs % 60 := Int.natAbs_tmod z 60
  have habs : (if z ≤ -60 then z.tdiv 60 * -1 else z.tdiv 60) = (z.natAbs / 60 : Nat) := by
    have hsign := tdiv_neg_iff z
    split <;> omega
  have hrest : (if z.tmod 60 < 0 then z.tmod 60 * -1 else z.tmod 60) = (z.natAbs % 60 : Nat) := by
    split <;> omega
  have hzero : z.tmod 60 = 0 ↔ z.natAbs % 60 = 0 := by omega
  simp only [zoneText, if_neg hz, habs, hrest, hzero, zoneSign, tdiv_neg_iff]

theorem zoneText_reads {z : Int} (hz : z ≠ 0) (hlow : -1440 < z) (hhigh : z < 1440)
    (utc separator : List Char) :
    ReadsZone (zoneText utc separator z) (3 + separator.length) z := by
  have hlength : (twoDigits (z.natAbs / 60 : Nat)).length = 2 := by
    rw [twoDigits_eq (by omega)]
    rfl
  rw [zoneText_eq hz]
  constructor
  · rfl
  · have hhours : readField (zoneSign z :: (twoDigits (z.natAbs / 60 : Nat) ++ separator ++
        if z.natAbs % 60 = 0 then ['0', '0'] else Text.toString (z.natAbs % 60 : Nat))) 1 2 =
          .ok ((z.natAbs / 60 : Nat) : Int) := by
      rw [← List.singleton_append]
      refine (readField_append_right [zoneSign z] _ 0 2).trans ?_
      rw [List.append_assoc, readField_append_left (by omega), readField_zero (by omega),
        stoi_twoDigits_self (by omega)]
    have hminutes : readField (zoneSign z :: (twoDigits (z.natAbs / 60 : Nat) ++ separator ++
        if z.natAbs % 60 = 0 then ['0', '0'] else Text.toString (z.natAbs % 60 : Nat)))
          (3 + separator.length) 2 = .ok ((z.natAbs % 60 : Nat) : Int) := by
      have hpos : (zoneSign z :: (twoDigits (z.natAbs / 60 : Nat) ++ separator)).length =
          3 + separator.length := by
        rw [List.length_cons, List.length_append, hlength]
        omega
      rw [← List.cons_append, ← hpos]
      exact (readField_append_right _ _ 0 2).trans (minutesText_reads (mod_lt _ (by decide)))
    rw [readZone, hhours, hminutes]
    refine congrArg Except.ok ?_
    omega

/-! ## What the parsers return -/

/-- The minutes that a parser adds for the zone. -/
def zoneShift (z : Int) : Int := if z ≤ -60 then z else z.natAbs

/-- The date-time with other microseconds. -/
def withMicrosecond (t : OrbisRtcDateTime) (n : Nat) : OrbisRtcDateTime := { t with microsecond := n }

section

variable {t : OrbisRtcDateTime} {n : Nat} {z : Int}

theorem withMicrosecond_valid (h : IsValid t) (hn : n < 1000000) : IsValid (withMicrosecond t n) :=
  ⟨h.date, h.year_le, h.hour_lt, h.minute_lt, h.second_lt, hn⟩

theorem fieldsOf_eq (h : IsValid t) (hn : n < 1000000) :
    fieldsOf t.year t.month t.day t.hour t.minute t.second n = withMicrosecond t n := by
  have hday := h.day_le
  obtain ⟨⟨-, -, hmonth, -, -⟩, hyear, hhour, hminute, hsecond, -⟩ := h
  simp only [fieldsOf, withMicrosecond, OrbisRtcDateTime.mk.injEq]
  omega

theorem sceRtcGetTick_fieldsOf (h : IsValid t) (hn : n < 1000000) (previous : Nat) :
    sceRtcGetTick (some (fieldsOf t.year t.month t.day t.hour t.minute t.second n)) (some previous) =
      (.ok, some (shiftMonth (withMicrosecond t n)), some (tickOf (withMicrosecond t n))) := by
  rw [fieldsOf_eq h hn, sceRtcGetTick_eq (withMicrosecond_valid h hn)]

theorem ofInt_tickOf (t : OrbisRtcDateTime) : U64.ofInt (tickOf t) = tickOf t := by
  refine U64.ofInt_natCast ?_
  unfold tickOf U64.ofInt
  omega

theorem zoneRFC2822_reads (hlow : -1440 < z) (hhigh : z < 1440) :
    ReadsZone (zoneText ['+', '0', '0', '0', '0'] [] z) 3 z := by
  by_cases hz : z = 0
  · subst hz
    exact ⟨rfl, rfl⟩
  · exact zoneText_reads hz hlow hhigh _ []

/-- The parsers' choice between adding and subtracting. -/
theorem zoneSign_cases (z : Int) : zoneSign z = '-' ∧ (z.natAbs : Int) * -1 = zoneShift z ∨
    zoneSign z = '+' ∧ (z.natAbs : Int) = zoneShift z := by
  unfold zoneSign zoneShift
  split
  · exact .inl ⟨rfl, by omega⟩
  · exact .inr ⟨rfl, rfl⟩

theorem parseRFC2822_text (h : IsValid t) (hyear : 1000 ≤ t.year) (sdkVersion : Int)
    (hlow : -1440 < z) (hhigh : z < 1440) (previous : Nat) :
    sceRtcParseDateTime (some previous) (some (textRFC2822 sdkVersion t z)) =
      .ok (.ok, some (U64.ofInt (zoneShift z * 60000000 + tickOf (withMicrosecond t 0)))) := by
  obtain ⟨hlength, hreads⟩ := headRFC2822_reads h hyear sdkVersion
  obtain ⟨name, hname, hmonth⟩ := hreads.month
  have hzone := zoneRFC2822_reads hlow hhigh
  have htext : textRFC2822 sdkVersion t z =
      headRFC2822 sdkVersion t ++ zoneText ['+', '0', '0', '0', '0'] [] z := rfl
  rw [htext]
  generalize zoneText ['+', '0', '0', '0', '0'] [] z = zone at hzone
  generalize headRFC2822 sdkVersion t = head at hlength hreads hname
  have hday := (readField_append_left (show 5 + 2 ≤ head.length by omega) zone).trans hreads.day
  have hmon := (substr_append_left (show 8 + 3 ≤ head.length by omega) zone).trans hname
  have hy := (readField_append_left (show 12 + 4 ≤ head.length by omega) zone).trans hreads.year
  have hh := (readField_append_left (show 17 + 2 ≤ head.length by omega) zone).trans hreads.hour
  have hkey := (charAt_append_left (show 19 < head.length by omega) zone).trans hreads.key
  have hmin := (readField_append_left (show 20 + 2 ≤ head.length by omega) zone).trans hreads.minute
  have hs := (readField_append_left (show 23 + 2 ≤ head.length by omega) zone).trans hreads.second
  have hsign := charAt_append_right head zone 0
  have hsize : readZone (head ++ zone) (head.length + 1) (head.length + 3) = readZone zone 1 3 := by
    unfold readZone
    rw [readField_append_right, readField_append_right]
  rw [hlength] at hsign hsize
  rw [hzone.sign] at hsign
  rw [hzone.size] at hsize
  have htick := sceRtcGetTick_fieldsOf h (show 0 < 1000000 by decide) previous
  have hformat : formatOfKey ':' = .rfc2822 := by decide
  rw [Nat.cast_zero] at htick
  simp only [sceRtcParseDateTime, parseRFC2822, hkey, hformat, hday, hmon, hy, hh, hmin, hs, hmonth, hsign,
    hsize, htick, bind, Except.bind, pure, Except.pure]
  cases zoneSign_cases z with
  | inl hz =>
    rw [hz.1, if_neg (by decide), if_pos rfl, hz.2]
    rfl
  | inr hz =>
    rw [hz.1, if_pos rfl, hz.2]
    rfl

/-- The part of the parser after the microseconds, on what follows the point. -/
def moveByZone (pTickUtc : Option Nat) (rest : List Char) : Except StdError (RtcResult × Option Nat) := do
  let zone ← charAt rest 2
  if zone = '-' then
    let timeZoneOffset ← readZone rest 3 6
    return (.ok, (sceRtcTickAddMinutes pTickUtc pTickUtc (timeZoneOffset * -1)).2)
  else if zone = '+' then
    let timeZoneOffset ← readZone rest 3 6
    return (.ok, (sceRtcTickAddMinutes pTickUtc pTickUtc timeZoneOffset).2)
  else return (.ok, pTickUtc)

theorem parseRFC3339_head (h : IsValid t) (hyear : 1000 ≤ t.year) {rest : List Char}
    (hn : n < 1000000) (hmicro : readField rest 0 2 = .ok (n : Int)) (previous : Nat) :
    sceRtcParseRFC3339 (some previous) (some ((headRFC3339 t ++ ['.']) ++ rest)) =
      moveByZone (some (tickOf (withMicrosecond t n))) rest := by
  obtain ⟨hlength, hreads⟩ := headRFC3339_reads h hyear
  generalize headRFC3339 t = head at hlength hreads
  have hpoint : (head ++ ['.']).length = 20 := by
    rw [List.length_append, hlength]
    rfl
  have hfield : ∀ {pos len n}, pos + len ≤ 19 → readField head pos len = .ok n →
      readField (head ++ ['.'] ++ rest) pos len = .ok n := by
    intro pos len n hfits hread
    rw [List.append_assoc, readField_append_left (by omega), hread]
  have hpoint' : charAt (head ++ ['.'] ++ rest) 19 = .ok '.' := by
    rw [charAt_append_left (by omega)]
    have hlast := charAt_append_right head ['.'] 0
    rwa [hlength] at hlast
  have hrest : ∀ pos len, readField (head ++ ['.'] ++ rest) (20 + pos) len = readField rest pos len := by
    intro pos len
    rw [← hpoint, readField_append_right]
  have hzone : charAt (head ++ ['.'] ++ rest) 22 = charAt rest 2 := by
    have hright := charAt_append_right (head ++ ['.']) rest 2
    rwa [hpoint] at hright
  have hsize : readZone (head ++ ['.'] ++ rest) 23 26 = readZone rest 3 6 := by
    unfold readZone
    rw [hrest 3 2, hrest 6 2]
  have hmicro' : readField (head ++ ['.'] ++ rest) 20 2 = .ok (n : Int) := (hrest 0 2).trans hmicro
  have htick := sceRtcGetTick_fieldsOf h hn previous
  simp only [sceRtcParseRFC3339, hfield (by decide) hreads.year, hfield (by decide) hreads.month,
    hfield (by decide) hreads.day, hfield (by decide) hreads.hour, hfield (by decide) hreads.minute,
    hfield (by decide) hreads.second, hpoint', hmicro', hzone, hsize, htick, moveByZone, bind, Except.bind,
    pure, Except.pure, if_true, Nat.reduceAdd]

theorem zoneShift_bounds (hlow : -1440 < z) (hhigh : z < 1440) : -1440 < zoneShift z ∧ zoneShift z < 1440 := by
  unfold zoneShift
  split <;> omega

/-- After two digits the zone is where the parser looks for it. -/
theorem moveByZone_two {digits : List Char} (hdigits : digits.length = 2) (hlow : -1440 < z)
    (hhigh : z < 1440) {tick : Nat} (htick : tick < 2 ^ 64) :
    moveByZone (some tick) (digits ++ zoneText ['Z'] [':'] z) =
      .ok (.ok, some (U64.ofInt (zoneShift z * 60000000 + tick))) := by
  have hsign := charAt_append_right digits (zoneText ['Z'] [':'] z) 0
  have hsize : readZone (digits ++ zoneText ['Z'] [':'] z) 3 6 = readZone (zoneText ['Z'] [':'] z) 1 4 := by
    have hfield := readField_append_right digits (zoneText ['Z'] [':'] z)
    rw [hdigits] at hfield
    unfold readZone
    rw [← hfield 1, ← hfield 4]
  rw [hdigits] at hsign
  by_cases hz : z = 0
  · subst hz
    have hutc : charAt (digits ++ zoneText ['Z'] [':'] 0) 2 = .ok 'Z' := hsign
    have hsame : U64.ofInt (zoneShift 0 * 60000000 + tick) = tick := by
      rw [show zoneShift 0 = 0 from rfl, zero_mul, zero_add, U64.ofInt_natCast htick]
    simp only [moveByZone, hutc, bind, Except.bind, pure, Except.pure]
    rw [if_neg (by decide), if_neg (by decide), hsame]
  · have hzone : ReadsZone (zoneText ['Z'] [':'] z) 4 z := zoneText_reads hz hlow hhigh _ [':']
    rw [hzone.sign] at hsign
    rw [hzone.size] at hsize
    simp only [moveByZone, hsign, hsize, bind, Except.bind, pure, Except.pure]
    cases zoneSign_cases z with
    | inl hz =>
      rw [hz.1, if_pos rfl, hz.2]
      rfl
    | inr hz =>
      rw [hz.1, if_neg (by decide), if_pos rfl, hz.2]
      rfl

/-- After one digit the parser looks beyond the sign of the zone. -/
theorem moveByZone_one (digit : Char) (hlow : -1440 < z) (hhigh : z < 1440) (tick : Nat) :
    moveByZone (some tick) (digit :: zoneText ['Z'] [':'] z) = .ok (.ok, some tick) := by
  have hskip : ∃ c, charAt (digit :: zoneText ['Z'] [':'] z) 2 = .ok c ∧ c ≠ '-' ∧ c ≠ '+' := by
    by_cases hz : z = 0
    · subst hz
      exact ⟨Char.ofNat 0, rfl, by decide, by decide⟩
    rw [zoneText_eq hz, twoDigits_eq (by omega)]
    exact ⟨digitChar (z.natAbs / 60 / 10), rfl, digitChar_ne (by omega) (by decide),
      digitChar_ne (by omega) (by decide)⟩
  obtain ⟨c, hc, hminus, hplus⟩ := hskip
  simp only [moveByZone, hc, bind, Except.bind, pure, Except.pure]
  rw [if_neg hminus, if_neg hplus]

/-- The microseconds that the parser reads. -/
def fractionRead (microsecond : Nat) : Nat :=
  if microsecond < 100000 then microsecond / 1000 else microsecond / 10000

theorem fractionText_two (hn : n < 1000000) (h : n = 0 ∨ 10000 ≤ n) :
    fractionText n = '.' :: twoDigits (fractionRead n) := by
  unfold fractionText fractionRead
  by_cases hzero : n = 0
  · subst hzero
    rfl
  rw [if_pos hzero, toString_natCast]
  split
  · next hsmall =>
    rw [twoDigits, if_neg (by omega), toString_natCast, List.take_of_length_le]
    exact (Nat.length_toDigits_le_iff (by decide) (by decide)).mpr (by omega)
  rename_i hlarge
  rw [twoDigits_eq (by omega), toDigits_of_base_le (by decide) (by omega),
    toDigits_of_base_le (by decide) (by omega), Nat.toDigits_of_lt_base (by omega),
    show n / 1000 / 10 = n / 10000 by omega]
  rfl

theorem fractionText_one (hpos : 0 < n) (h : n < 10000) :
    fractionText n = ['.', digitChar (fractionRead n)] := by
  unfold fractionText fractionRead
  rw [if_pos (by omega), if_pos (by omega), toString_natCast, Nat.toDigits_of_lt_base (by omega)]
  rfl

theorem zoneText_head (z : Int) : ∃ c rest, zoneText ['Z'] [':'] z = c :: rest ∧ ¬c.isDigit = true := by
  by_cases hz : z = 0
  · subst hz
    exact ⟨'Z', [], rfl, by decide⟩
  rw [zoneText_eq hz]
  refine ⟨_, _, rfl, ?_⟩
  unfold zoneSign
  split <;> decide

/-- A single digit is read although the field reaches into the zone. -/
theorem readField_digit {d : Nat} (hd : d < 10) (z : Int) :
    readField ([digitChar d] ++ zoneText ['Z'] [':'] z) 0 2 = .ok (d : Int) := by
  obtain ⟨c, rest, hzone, hc⟩ := zoneText_head z
  have hvalue : Nat.ofDigitChars 10 [digitChar d] 0 = d := by
    rw [Nat.ofDigitChars_cons_digitChar_of_lt_ten hd, Nat.ofDigitChars_nil]
    omega
  have h := @Text.stoi_append [digitChar d] [c] (by simp)
    (by simp only [List.mem_singleton, forall_eq, Nat.isDigit_digitChar, decide_eq_true_eq]; exact hd)
    (by simpa using hc) (by omega)
  rw [hvalue] at h
  rw [hzone]
  exact h

theorem fractionRead_lt (hn : n < 1000000) : fractionRead n < 100 := by
  unfold fractionRead
  split <;> omega

theorem parseRFC3339_text (h : IsValid t) (hyear : 1000 ≤ t.year) (hlow : -1440 < z)
    (hhigh : z < 1440) (previous : Nat) :
    sceRtcParseRFC3339 (some previous) (some (textRFC3339 t z)) =
      .ok (.ok, some (U64.ofInt ((if t.microsecond = 0 ∨ 10000 ≤ t.microsecond then zoneShift z else 0) *
        60000000 + tickOf (withMicrosecond t (fractionRead t.microsecond))))) := by
  have hmicro := h.microsecond_lt
  have hread := fractionRead_lt hmicro
  have htick : tickOf (withMicrosecond t (fractionRead t.microsecond)) < 2 ^ 64 := by
    unfold tickOf U64.ofInt
    omega
  have htext : textRFC3339 t z = headRFC3339 t ++ fractionText t.microsecond ++ zoneText ['Z'] [':'] z := rfl
  rw [htext]
  split
  · next htwo =>
    have hlength : (twoDigits (fractionRead t.microsecond)).length = 2 := by
      rw [twoDigits_eq hread]
      rfl
    rw [fractionText_two hmicro htwo, ← List.singleton_append, ← List.append_assoc, List.append_assoc _ (twoDigits _),
      parseRFC3339_head h hyear (show fractionRead t.microsecond < 1000000 by omega) ?_, moveByZone_two hlength hlow hhigh htick]
    rw [readField_append_left (by omega), readField_zero (by omega), stoi_twoDigits_self hread]
  · next hone =>
    rw [fractionText_one (by omega) (by omega), ← List.singleton_append, ← List.append_assoc,
      List.append_assoc _ [digitChar _],
      parseRFC3339_head h hyear (show fractionRead t.microsecond < 1000000 by omega) ?_,
      List.singleton_append, moveByZone_one _ hlow hhigh, zero_mul, zero_add, ofInt_tickOf]
    exact readField_digit (by unfold fractionRead; split <;> omega) z

end

/-! ## Round trips -/

/-- The tick of 1000-01-01T00:00:00, the first year with four digits. -/
def TICKS_OF_1000 : Nat := 364877 * 86400000000

/-- The tick and its local tick lie in the years with four digits. -/
structure TextRange (t : Nat) (z : Int) : Prop where
  zone_gt : -1440 < z
  zone_lt : z < 1440
  tick_ge : TICKS_OF_1000 ≤ t
  tick_lt : t < TICKS_BELOW_10000
  local_ge : (TICKS_OF_1000 : Int) ≤ t + z * 60000000
  local_lt : (t : Int) + z * 60000000 < TICKS_BELOW_10000

theorem daysBeforeYear_1000 : Calendar.daysBeforeYear 1000 = 364877 := by
  have h := Calendar.daysBeforeYear_succ 999
  norm_num at h
  omega

/-- The tick in the time zone, and its date-time. -/
theorem TextRange.exists_local {t : Nat} {z : Int} (h : TextRange t z) :
    ∃ tick : Nat, (tick : Int) = t + z * 60000000 ∧ (∀ now, formatTick now (some t) z = tick) ∧
      IsValid (readTick tick) ∧ microseconds (readTick tick) = tick ∧ 1000 ≤ (readTick tick).year ∧
      TICKS_OF_1000 ≤ tick ∧ tick < TICKS_BELOW_10000 := by
  obtain ⟨-, -, -, -, hge, hlt⟩ := h
  obtain ⟨tick, htick⟩ : ∃ tick : Nat, (tick : Int) = t + z * 60000000 :=
    ⟨(t + z * 60000000).toNat, Int.toNat_of_nonneg (by omega)⟩
  rw [← htick] at hge hlt
  obtain ⟨hvalid, hmicro⟩ := readTick_spec (show tick < TICKS_BELOW_10000 by omega)
  refine ⟨tick, htick, fun now => ?_, hvalid, hmicro, ?_, by omega, by omega⟩
  · have hsum : z * 60000000 + t = tick := by omega
    have hbound := TICKS_BELOW_10000_lt
    simp only [formatTick, sceRtcTickAddMinutes, Option.getD_some, hsum]
    exact U64.ofInt_natCast (by omega)
  · by_contra hearly
    have hdays := Calendar.daysBeforeYear_le hvalid.date.year_pos (show (readTick tick).year < 1000 by omega)
    have hin := hvalid.date.lt_yearLength
    have htime := microsecondsOfDay_lt hvalid
    rw [daysBeforeYear_1000] at hdays
    unfold TICKS_OF_1000 at hge
    unfold microseconds Calendar.dayNumber at hmicro
    omega

theorem microsecond_eq (h : IsValid t) : t.microsecond = microseconds t % 1000000 := by
  have hmicro := h.microsecond_lt
  unfold microseconds microsecondsOfDay
  omega

theorem microseconds_withMicrosecond (h : IsValid t) (n : Nat) :
    microseconds (withMicrosecond t n) = microseconds t / 1000000 * 1000000 + n := by
  have hmicro := h.microsecond_lt
  unfold microseconds microsecondsOfDay
  simp only [withMicrosecond]
  omega

/-- The parsed tick before the zone is taken into account. -/
theorem tickOf_withMicrosecond (h : IsValid t) (hn : n < 1000000) (hlarge : TICKS_OF_1000 ≤ microseconds t) :
    tickOf (withMicrosecond t n) + (if microseconds t / 60000000 % 60 < 36 then 0 else 2 ^ 32) =
      microseconds t / 1000000 * 1000000 + n := by
  have hwith := microseconds_withMicrosecond h n
  have hminute : microseconds (withMicrosecond t n) / 60000000 % 60 = microseconds t / 60000000 % 60 := by
    rw [hwith]
    omega
  have htick := tickOf_eq (withMicrosecond_valid h hn) (by
    rw [hwith]
    unfold TICKS_OF_1000 at hlarge
    omega)
  rwa [hminute, hwith] at htick

/-- The text names the tick, without the part of a second. -/
def RoundTripsRFC2822 (sdkVersion : Int) (t : Nat) (z : Int) : Prop :=
  ∀ now old previous, ∃ s, sceRtcFormatRFC2822 sdkVersion now (some old) (some t) z = (.ok, some s) ∧
    (∃ key, charAt s 19 = .ok key ∧ formatOfKey key = .rfc2822) ∧
    sceRtcParseDateTime (some previous) (some s) = .ok (.ok, some (t / 1000000 * 1000000))

/-- The text names the tick, to a hundredth of a second. -/
def RoundTripsRFC3339 (t : Nat) (z : Int) : Prop :=
  ∀ now old previous, ∃ s, sceRtcFormatRFC3339Precise now (some old) (some t) z = (.ok, some s) ∧
    sceRtcParseRFC3339 (some previous) (some s) = .ok (.ok, some (t / 10000 * 10000))

theorem ofInt_eq_iff {x : Int} (hpos : 0 ≤ x) (hlt : x < 2 ^ 64) : U64.ofInt x = n ↔ x = n := by
  unfold U64.ofInt
  omega

/-- The shifts of the formatter and of the parser cancel only where the sign of the zone was lost. -/
theorem shifted_eq_iff {t tick T m unit : Nat} {z shift : Int} (hunit : unit = 10000 ∨ unit = 1000000)
    (htick : (tick : Int) = t + z * 60000000) (hshift : -1440 < shift ∧ shift < 1440)
    (hm : m < 100) (hge : TICKS_OF_1000 ≤ tick) (hlt : tick < TICKS_BELOW_10000)
    (hT : T + (if tick / 60000000 % 60 < 36 then 0 else 2 ^ 32) = tick / 1000000 * 1000000 + m) :
    U64.ofInt (shift * 60000000 + T) = t / unit * unit ↔
      tick / 60000000 % 60 < 36 ∧ shift + z = 0 ∧ m = tick / unit * unit % 1000000 := by
  have hbound := TICKS_BELOW_10000_lt
  unfold TICKS_OF_1000 at hge
  unfold TICKS_BELOW_10000 DAYS_BELOW_10000 at hlt
  rw [ofInt_eq_iff (by split at hT <;> omega) (by split at hT <;> omega)]
  rcases hunit with rfl | rfl
  · split at hT <;> omega
  · split at hT <;> omega

/-- The two shifts of an RFC 2822 text cancel for zones up to an hour behind. -/
theorem zoneShift_add_eq_zero_iff (z : Int) : zoneShift z + z = 0 ↔ -60 < z ∧ z ≤ 0 := by
  unfold zoneShift
  split <;> omega

/-- The shifts of an RFC 3339 text cancel together with its fraction being read as it is. -/
theorem fraction_iff (hn : n < 1000000) (z : Int) :
    (if n = 0 ∨ 10000 ≤ n then zoneShift z else 0) + z = 0 ∧ fractionRead n = n / 10000 * 10000 ↔
      n = 0 ∧ -60 < z ∧ z ≤ 0 ∨ n < 1000 ∧ z = 0 := by
  unfold fractionRead
  by_cases hzero : n = 0
  · subst hzero
    have hread : (if 0 < 100000 then 0 / 1000 else 0 / 10000) = 0 / 10000 * 10000 := rfl
    rw [if_pos (.inl rfl), zoneShift_add_eq_zero_iff, and_iff_left hread]
    omega
  · by_cases hsmall : n < 10000
    · rw [if_neg (by omega), if_pos (by omega)]
      omega
    · -- two digits of at least 10 are read where a multiple of 10000 is meant
      have hlost : (if n < 100000 then n / 1000 else n / 10000) ≠ n / 10000 * 10000 := by
        split <;> omega
      exact iff_of_false (fun h => hlost h.2) (by omega)

section

variable {t : Nat} {z : Int}

theorem roundTripsRFC2822_iff (sdkVersion : Int) (h : TextRange t z) :
    RoundTripsRFC2822 sdkVersion t z ↔
      (t + z * 60000000) / 60000000 % 60 < 36 ∧ -60 < z ∧ z ≤ 0 := by
  obtain ⟨tick, htick, hlocal, hvalid, hmicro, hyear, hge, hlt⟩ := h.exists_local
  have hge' : TICKS_OF_1000 ≤ microseconds (readTick tick) := by
    rw [hmicro]
    exact hge
  have hparse := parseRFC2822_text hvalid hyear sdkVersion h.zone_gt h.zone_lt
  have hformat : ∀ now old, sceRtcFormatRFC2822 sdkVersion now (some old) (some t) z =
      (.ok, some (textRFC2822 sdkVersion (readTick tick) z)) := by
    intro now old
    simp only [sceRtcFormatRFC2822, hlocal, if_pos (sceRtcCheckValid_eq_ok.mpr hvalid)]
  have hkey : charAt (textRFC2822 sdkVersion (readTick tick) z) 19 = .ok ':' := by
    obtain ⟨hlength, hreads⟩ := headRFC2822_reads hvalid hyear sdkVersion
    exact (charAt_append_left (show 19 < (headRFC2822 sdkVersion (readTick tick)).length by omega) _).trans
      hreads.key
  have hread := tickOf_withMicrosecond hvalid (show 0 < 1000000 by decide) hge'
  rw [hmicro] at hread
  have hsame := shifted_eq_iff (.inr rfl) htick (zoneShift_bounds h.zone_gt h.zone_lt) (by decide) hge hlt hread
  have hcond : tick / 60000000 % 60 < 36 ∧ zoneShift z + z = 0 ∧ 0 = tick / 1000000 * 1000000 % 1000000 ↔
      ((t : Int) + z * 60000000) / 60000000 % 60 < 36 ∧ -60 < z ∧ z ≤ 0 := by
    rw [zoneShift_add_eq_zero_iff, ← htick]
    omega
  rw [← hcond, ← hsame]
  constructor
  · intro hround
    obtain ⟨s, hs, -, hresult⟩ := hround 0 [] 0
    obtain rfl := Option.some.inj (Prod.mk.inj ((hformat 0 []).symm.trans hs)).2
    exact Option.some.inj (Prod.mk.inj (Except.ok.inj ((hparse 0).symm.trans hresult))).2
  · intro heq now old previous
    exact ⟨_, hformat now old, ⟨':', hkey, by decide⟩, by rw [hparse, heq]⟩

theorem roundTripsRFC3339_iff (h : TextRange t z) :
    RoundTripsRFC3339 t z ↔ (t + z * 60000000) / 60000000 % 60 < 36 ∧
      (t % 1000000 = 0 ∧ -60 < z ∧ z ≤ 0 ∨ t % 1000000 < 1000 ∧ z = 0) := by
  obtain ⟨tick, htick, hlocal, hvalid, hmicro, hyear, hge, hlt⟩ := h.exists_local
  have hge' : TICKS_OF_1000 ≤ microseconds (readTick tick) := by
    rw [hmicro]
    exact hge
  have hparse := parseRFC3339_text hvalid hyear h.zone_gt h.zone_lt
  have hformat : ∀ now old, sceRtcFormatRFC3339Precise now (some old) (some t) z =
      (.ok, some (textRFC3339 (readTick tick) z)) := by
    intro now old
    simp only [sceRtcFormatRFC3339Precise, hlocal]
  have hfraction : (readTick tick).microsecond = tick % 1000000 := by
    rw [microsecond_eq hvalid, hmicro]
  have hsmall := fractionRead_lt hvalid.microsecond_lt
  have hread := tickOf_withMicrosecond hvalid (show fractionRead (readTick tick).microsecond < 1000000 by omega)
    hge'
  rw [hmicro] at hread
  rw [hfraction] at hparse hread hsmall
  have hshift : -1440 < (if tick % 1000000 = 0 ∨ 10000 ≤ tick % 1000000 then zoneShift z else 0) ∧
      (if tick % 1000000 = 0 ∨ 10000 ≤ tick % 1000000 then zoneShift z else 0) < 1440 := by
    have hbounds := zoneShift_bounds h.zone_gt h.zone_lt
    split <;> omega
  have hsame := shifted_eq_iff (.inl rfl) htick hshift hsmall hge hlt hread
  have hcond := fraction_iff (show tick % 1000000 < 1000000 by omega) z
  have hhundredths : tick / 10000 * 10000 % 1000000 = tick % 1000000 / 10000 * 10000 := by omega
  rw [hhundredths, hcond, show tick % 1000000 = t % 1000000 by omega] at hsame
  rw [← htick, show ((tick : Int) / 60000000 % 60 < 36) ↔ tick / 60000000 % 60 < 36 by omega, ← hsame,
    ← show tick % 1000000 = t % 1000000 by omega]
  constructor
  · intro hround
    obtain ⟨s, hs, hresult⟩ := hround 0 [] 0
    obtain rfl := Option.some.inj (Prod.mk.inj ((hformat 0 []).symm.trans hs)).2
    exact Option.some.inj (Prod.mk.inj (Except.ok.inj ((hparse 0).symm.trans hresult))).2
  · intro heq now old previous
    exact ⟨_, hformat now old, by rw [hparse, heq]⟩

end

/-- The date-time of a tick comes back from its RFC 2822 text exactly before the 36th minute of the local
    hour and for zones up to an hour behind. -/
theorem rfc2822_roundTrip_iff (sdkVersion : Int) (t : Nat) (z : Int) : TextRange t z →
    (RoundTripsRFC2822 sdkVersion t z ↔
      (t + z * 60000000) / 60000000 % 60 < 36 ∧ -60 < z ∧ z ≤ 0) :=
  roundTripsRFC2822_iff sdkVersion

/-- 2024-01-01T00:30:00, which is midnight half an hour to the west. -/
theorem rfc2822_halfHour : RoundTripsRFC2822 0 63839665800000000 (-30) ↔
    ((63839665800000000 : Nat) + (-30) * 60000000 : Int) / 60000000 % 60 < 36 ∧
      (-60 : Int) < -30 ∧ (-30 : Int) ≤ 0 :=
  rfc2822_roundTrip_iff 0 63839665800000000 (-30) ⟨by decide, by decide, by decide, by decide, by decide, by decide⟩

/-- The parser moves the local time an hour further east. -/
theorem rfc2822_shifts_twice : ¬∀ (sdkVersion : Int) (t : Nat) (z : Int), TextRange t z →
    RoundTripsRFC2822 sdkVersion t z := by
  intro h
  have hrange : TextRange 63839665800000000 60 :=
    ⟨by decide, by decide, by decide, by decide, by decide, by decide⟩
  have hzone := ((roundTripsRFC2822_iff 0 hrange).mp (h 0 _ _ hrange)).2.2
  omega

/-- The date-time of a tick comes back from its RFC 3339 text exactly before the 36th minute of the local
    hour, in whole seconds for zones up to an hour behind, and with less than a millisecond over in UTC. -/
theorem rfc3339_roundTrip_iff (t : Nat) (z : Int) : TextRange t z →
    (RoundTripsRFC3339 t z ↔ (t + z * 60000000) / 60000000 % 60 < 36 ∧
      (t % 1000000 = 0 ∧ -60 < z ∧ z ≤ 0 ∨ t % 1000000 < 1000 ∧ z = 0)) :=
  roundTripsRFC3339_iff

theorem rfc3339_halfHour : RoundTripsRFC3339 63839665800000000 (-30) ↔
    ((63839665800000000 : Nat) + (-30) * 60000000 : Int) / 60000000 % 60 < 36 ∧
      (63839665800000000 % 1000000 = 0 ∧ (-60 : Int) < -30 ∧ (-30 : Int) ≤ 0 ∨
        63839665800000000 % 1000000 < 1000 ∧ (-30 : Int) = 0) :=
  rfc3339_roundTrip_iff 63839665800000000 (-30) ⟨by decide, by decide, by decide, by decide, by decide, by decide⟩

/-- The digits of half a second are read as 50 microseconds. -/
theorem rfc3339_reads_microseconds : ¬∀ (t : Nat) (z : Int), TextRange t z → RoundTripsRFC3339 t z := by
  intro h
  have hrange : TextRange 63839665800500000 0 :=
    ⟨by decide, by decide, by decide, by decide, by decide, by decide⟩
  have hfraction := ((roundTripsRFC3339_iff hrange).mp (h _ _ hrange)).2
  omega

end Rtc
