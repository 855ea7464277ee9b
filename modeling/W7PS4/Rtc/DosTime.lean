-- SUMMARY: DOS times: packing a date-time into the six fields of a word, unpacking it, and when both ways agree.
import W7PS4.Rtc.Tick

/-!
# DOS times

A DOS time has the seconds in steps of two, the minute, the hour, the day, the month and
the years from 1980 in the bits 0, 5, 11, 16, 21 and 25 of a word. `sceRtcGetDosTime`
adds the bits of its date-time to those the word has; `sceRtcSetDosTime` takes the upper
half as a signed number, so that the last bit of the year counts backwards.
-/

namespace Rtc

open BitVec (eq_of_getLsbD_eq eq_of_toNat_eq getLsbD getLsbD_and getLsbD_not getLsbD_or getLsbD_zero toNat_ofNat
  toNat_or toNat_ushiftRight)

/-- The result comes with `*dosTime` after the call. -/
def sceRtcGetDosTime (pTime : Option OrbisRtcDateTime) (dosTime : Option (BitVec 32)) :
    RtcResult × Option (BitVec 32) :=
  match pTime, dosTime with
  | some t, some word =>
    if sceRtcCheckValid (some t) ≠ .ok then (sceRtcCheckValid (some t), dosTime)
    else
      let word := word ||| (BitVec.ofNat 32 (t.second / 2) &&& 0x1f#32)
      let word := word ||| (BitVec.ofNat 32 t.minute &&& 0x3f#32) <<< 5
      let word := word ||| (BitVec.ofNat 32 t.hour &&& 0x1f#32) <<< 11
      let word := word ||| (BitVec.ofNat 32 t.day &&& 0x1f#32) <<< 16
      let word := word ||| (BitVec.ofNat 32 t.month &&& 0x0f#32) <<< 21
      let word := word ||| ((BitVec.ofNat 32 t.year - 1980#32) &&& 0x7f#32) <<< 25
      (.ok, some word)
  | _, _ => (.invalidPointer, dosTime)

/-- The result comes with `*pTime` after the call. -/
def sceRtcSetDosTime (pTime : Option OrbisRtcDateTime) (dosTime : BitVec 32) :
    RtcResult × Option OrbisRtcDateTime :=
  match pTime with
  | some _ =>
    -- An `int16_t`: its shifts to the right repeat the sign.
    let days := (dosTime >>> 0x10).setWidth 16
    (.ok, some
      { year := (days.sshiftRight 9 + 1980#16).toNat
        month := (days.sshiftRight 5 &&& 0x0f#16).toNat
        day := (days &&& 0x1f#16).toNat
        hour := ((dosTime &&& 0xf800#32) >>> 0xb).toNat
        minute := ((dosTime >>> 5) &&& 0x3f#32).toNat
        second := ((dosTime <<< 1) &&& 0x3e#32).toNat
        microsecond := 0 })
  | none => (.invalidPointer, none)

/-! ## The fields of a word -/

/-- The date-time that the fields of a DOS time make up, with the years counted from 1980. -/
def dosDate (dosTime : BitVec 32) : OrbisRtcDateTime :=
  { year := 1980 + dosTime.toNat / 2 ^ 25
    month := dosTime.toNat / 2 ^ 21 % 2 ^ 4
    day := dosTime.toNat / 2 ^ 16 % 2 ^ 5
    hour := dosTime.toNat / 2 ^ 11 % 2 ^ 5
    minute := dosTime.toNat / 2 ^ 5 % 2 ^ 6
    second := 2 * (dosTime.toNat % 2 ^ 5)
    microsecond := 0 }

/-- A mask of the low bits. -/
theorem toNat_and_mask {w : Nat} (x mask : BitVec w) (count : Nat) (hmask : mask.toNat = 2 ^ count - 1) :
    (x &&& mask).toNat = x.toNat % 2 ^ count := by
  rw [BitVec.toNat_and, hmask, Nat.and_two_pow_sub_one_eq_mod]

/-- The last 64 of the years come out 128 too early. -/
theorem sceRtcSetDosTime_spec (t : OrbisRtcDateTime) (w : BitVec 32) :
    sceRtcSetDosTime (some t) w = (.ok, some { dosDate w with
      year := if (dosDate w).year < 2044 then (dosDate w).year else (dosDate w).year - 128 }) := by
  have hlt := w.isLt
  have hsecond : ((w <<< 1) &&& 0x3e#32).toNat = 2 * (w.toNat % 2 ^ 5) := by
    rw [show 0x3e#32 = 0x1f#32 <<< 1 from rfl, ← BitVec.shiftLeft_and_distrib, BitVec.toNat_shiftLeft,
      toNat_and_mask w _ 5 rfl, Nat.shiftLeft_eq]
    omega
  have hminute : ((w >>> 5) &&& 0x3f#32).toNat = w.toNat / 2 ^ 5 % 2 ^ 6 := by
    rw [toNat_and_mask _ _ 6 rfl, toNat_ushiftRight, Nat.shiftRight_eq_div_pow]
  have hhour : ((w &&& 0xf800#32) >>> 0xb).toNat = w.toNat / 2 ^ 11 % 2 ^ 5 := by
    rw [BitVec.ushiftRight_and_distrib, show 0xf800#32 >>> 0xb = 0x1f#32 from rfl,
      toNat_and_mask _ _ 5 rfl, toNat_ushiftRight, Nat.shiftRight_eq_div_pow]
  have hdays : ((w >>> 0x10).setWidth 16).toNat = w.toNat / 2 ^ 16 := by
    rw [BitVec.toNat_setWidth, toNat_ushiftRight, Nat.shiftRight_eq_div_pow]
    omega
  have hsign : ((w >>> 0x10).setWidth 16).msb = decide (2 ^ 31 ≤ w.toNat) := by
    rw [BitVec.msb_eq_decide, hdays]
    exact decide_eq_decide.2 (by omega)
  have hday : ((w >>> 0x10).setWidth 16 &&& 0x1f#16).toNat = w.toNat / 2 ^ 16 % 2 ^ 5 := by
    rw [toNat_and_mask _ _ 5 rfl, hdays]
  have hmonth : (((w >>> 0x10).setWidth 16).sshiftRight 5 &&& 0x0f#16).toNat =
      w.toNat / 2 ^ 21 % 2 ^ 4 := by
    rw [toNat_and_mask _ _ 4 rfl, BitVec.toNat_sshiftRight, hsign, hdays,
      Nat.shiftRight_eq_div_pow]
    split <;> omega
  have hyear : (((w >>> 0x10).setWidth 16).sshiftRight 9 + 1980#16).toNat =
      if (dosDate w).year < 2044 then (dosDate w).year else (dosDate w).year - 128 := by
    rw [BitVec.toNat_add, BitVec.toNat_sshiftRight, hsign, hdays, Nat.shiftRight_eq_div_pow,
      Nat.shiftRight_eq_div_pow, show (1980#16).toNat = 1980 from rfl]
    simp only [decide_eq_true_eq]
    have hfield : (dosDate w).year = 1980 + w.toNat / 2 ^ 25 := rfl
    by_cases htop : 2 ^ 31 ≤ w.toNat
    · rw [if_pos htop, if_neg (by omega), hfield]
      omega
    · rw [if_neg htop, if_pos (by omega), hfield]
      omega
  simp only [sceRtcSetDosTime, hsecond, hminute, hhour, hday, hmonth, hyear]
  rfl

/-! ## Packing -/

/-- The fields of a date-time side by side; the year counts modulo 128. -/
def dosSum (t : OrbisRtcDateTime) : Nat :=
  ((((((t.year + 2 ^ 32 - 1980) % 2 ^ 7 * 2 ^ 4 + t.month) * 2 ^ 5 + t.day) * 2 ^ 5 + t.hour) * 2 ^ 6 +
    t.minute) * 2 ^ 5) + t.second / 2

/-- A field that is shifted above the fields so far. -/
theorem or_field {low : Nat} (offset count : Nat) (hlow : low < 2 ^ offset) (x : BitVec 32)
    {mask : BitVec 32} (hmask : mask.toNat = 2 ^ count - 1) (hfits : offset + count ≤ 32) :
    low ||| ((x &&& mask) <<< offset).toNat = x.toNat % 2 ^ count * 2 ^ offset + low := by
  have hfield : x.toNat % 2 ^ count * 2 ^ offset < 2 ^ 32 := by
    calc x.toNat % 2 ^ count * 2 ^ offset < 2 ^ count * 2 ^ offset :=
          Nat.mul_lt_mul_of_pos_right (Nat.mod_lt _ (Nat.two_pow_pos count)) (Nat.two_pow_pos offset)
      _ = 2 ^ (offset + count) := by rw [Nat.pow_add, Nat.mul_comm]
      _ ≤ 2 ^ 32 := Nat.pow_le_pow_right (by decide) hfits
  rw [BitVec.toNat_shiftLeft, toNat_and_mask x mask count hmask, Nat.shiftLeft_eq,
    Nat.mod_eq_of_lt hfield, Nat.lor_comm, ← Nat.shiftLeft_eq,
    ← Nat.shiftLeft_add_eq_or_of_lt hlow, Nat.shiftLeft_eq]

variable {t : OrbisRtcDateTime} {w : BitVec 32}

/-- A valid date-time adds its fields to the bits of the word. -/
theorem sceRtcGetDosTime_spec (h : IsValid t) (word : BitVec 32) :
    sceRtcGetDosTime (some t) (some word) = (.ok, some (word ||| BitVec.ofNat 32 (dosSum t))) := by
  have hok : ¬sceRtcCheckValid (some t) ≠ .ok := not_not.mpr (sceRtcCheckValid_eq_ok.mpr h)
  have hday := h.day_le
  obtain ⟨⟨hy, hm, hm', hd, -⟩, hy', hhour, hminute, hsecond, -⟩ := h
  have hyear : (BitVec.ofNat 32 t.year - 1980#32).toNat % 2 ^ 7 = (t.year + 2 ^ 32 - 1980) % 2 ^ 7 := by
    rw [BitVec.toNat_sub, toNat_ofNat, toNat_ofNat]
    omega
  have hlow : (BitVec.ofNat 32 (t.second / 2) &&& 0x1f#32).toNat = t.second / 2 := by
    rw [toNat_and_mask _ _ 5 rfl, toNat_ofNat]
    omega
  simp only [sceRtcGetDosTime, if_neg hok, BitVec.or_assoc]
  congr 3
  apply eq_of_toNat_eq
  simp only [toNat_or, ← Nat.lor_assoc, hlow]
  rw [or_field 5 6 (by omega) _ rfl (by decide), toNat_ofNat t.minute]
  rw [or_field 11 5 (by omega) _ rfl (by decide), toNat_ofNat t.hour]
  rw [or_field 16 5 (by omega) _ rfl (by decide), toNat_ofNat t.day]
  rw [or_field 21 4 (by omega) _ rfl (by decide), toNat_ofNat t.month]
  rw [or_field 25 7 (by omega) _ rfl (by decide), hyear]
  simp only [toNat_ofNat, dosSum]
  omega

theorem dosSum_lt (h : IsValid t) : dosSum t < 2 ^ 32 := by
  have hday := h.day_le
  obtain ⟨⟨-, -, hm', -, -⟩, -, hhour, hminute, hsecond, -⟩ := h
  unfold dosSum
  omega

/-- What a DOS time can hold. -/
structure DosRange (t : OrbisRtcDateTime) : Prop where
  valid : sceRtcCheckValid (some t) = .ok
  year_ge : 1980 ≤ t.year
  year_le : t.year ≤ 2107
  second_even : t.second % 2 = 0
  microsecond_eq : t.microsecond = 0

theorem dosDate_dosSum (h : DosRange t) : dosDate (BitVec.ofNat 32 (dosSum t)) = t := by
  obtain ⟨hvalid, hge, hle, heven, hmicro⟩ := h
  have ht := sceRtcCheckValid_eq_ok.mp hvalid
  have hday := ht.day_le
  have hlt := dosSum_lt ht
  obtain ⟨⟨-, -, hm', -, -⟩, -, hhour, hminute, hsecond, -⟩ := ht
  simp only [dosDate, toNat_ofNat, Nat.mod_eq_of_lt hlt]
  cases t
  simp only [OrbisRtcDateTime.mk.injEq, dosSum] at *
  omega

theorem dosSum_dosDate {n : Nat}
    (ht : t = { dosDate w with year := (dosDate w).year - n }) (hn : n = 0 ∨ n = 128) :
    BitVec.ofNat 32 (dosSum t) = w := by
  have hlt := w.isLt
  apply eq_of_toNat_eq
  subst ht
  simp only [toNat_ofNat, dosSum, dosDate]
  omega

/-- The last 64 years have a leap day only if the years 128 before have one. -/
theorem valid_of_dosDate (h : IsValid (dosDate w)) : IsValid { dosDate w with
      year := if (dosDate w).year < 2044 then (dosDate w).year else (dosDate w).year - 128 } := by
  split
  · exact h
  rename_i hlate
  have hyear : 2044 ≤ (dosDate w).year ∧ (dosDate w).year < 2108 := by
    have hlt := w.isLt
    simp only [dosDate] at hlate ⊢
    omega
  obtain ⟨⟨hy, hm, hm', hd, hd'⟩, hy', hhour, hminute, hsecond, hmicro⟩ := h
  have hleap : Calendar.isLeap (dosDate w).year = true →
      Calendar.isLeap ((dosDate w).year - 128) = true := by
    rw [Calendar.isLeap_iff, Calendar.isLeap_iff]
    omega
  exact ⟨⟨by simp only; omega, hm, hm', hd, hd'.trans (Calendar.daysInMonth_le hleap _)⟩,
    by simp only; omega, hhour, hminute, hsecond, hmicro⟩

/-- Every bit of `a` is one of `b`. -/
def Within (a b : Nat) : Prop := a ||| b = b

/-- The word has only bits that its fields keep when they hold the date-time. -/
structure DosFits (word : BitVec 32) (t : OrbisRtcDateTime) : Prop where
  second : Within ((dosDate word).second / 2) (t.second / 2)
  minute : Within (dosDate word).minute t.minute
  hour : Within (dosDate word).hour t.hour
  day : Within (dosDate word).day t.day
  month : Within (dosDate word).month t.month
  year : Within ((dosDate word).year - 1980) (t.year - 1980)

theorem dosDate_or (a b : BitVec 32) : dosDate (a ||| b) =
    { year := 1980 + (((dosDate a).year - 1980) ||| ((dosDate b).year - 1980))
      month := (dosDate a).month ||| (dosDate b).month
      day := (dosDate a).day ||| (dosDate b).day
      hour := (dosDate a).hour ||| (dosDate b).hour
      minute := (dosDate a).minute ||| (dosDate b).minute
      second := 2 * ((dosDate a).second / 2 ||| (dosDate b).second / 2)
      microsecond := 0 } := by
  simp only [dosDate, toNat_or, Nat.or_div_two_pow, Nat.or_mod_two_pow, Nat.add_sub_cancel_left,
    Nat.mul_div_cancel_left _ (show 0 < 2 by decide)]

/-- The date-time survives being written to a word with these bits. -/
def DateRoundTrip (t : OrbisRtcDateTime) (word : BitVec 32) : Prop :=
  ∀ d, ∃ w, sceRtcGetDosTime (some t) (some word) = (.ok, some w) ∧
    sceRtcSetDosTime (some d) w = (.ok, some t)

/-- The word is written again where these bits were. -/
def WordRoundTrip (w word : BitVec 32) : Prop :=
  ∀ d, ∃ t, sceRtcSetDosTime (some d) w = (.ok, some t) ∧
    sceRtcGetDosTime (some t) (some word) = (.ok, some w)

theorem dateRoundTrip_iff (h : DosRange t) (word : BitVec 32) :
    DateRoundTrip t word ↔ DosFits word t ∧ t.year < 2044 := by
  have hvalid := sceRtcCheckValid_eq_ok.mp h.valid
  have hsum := dosDate_dosSum h
  have hfields := dosDate_or word (BitVec.ofNat 32 (dosSum t))
  have hlt := (word ||| BitVec.ofNat 32 (dosSum t)).isLt
  have hyear : (dosDate (word ||| BitVec.ofNat 32 (dosSum t))).year < 2108 := by
    simp only [dosDate]
    omega
  rw [hsum] at hfields
  rw [hfields] at hyear
  have hspec := fun d => sceRtcSetDosTime_spec d (word ||| BitVec.ofNat 32 (dosSum t))
  rw [hfields] at hspec
  simp only at hspec hyear
  obtain ⟨-, hge, -, heven, hmicro⟩ := h
  constructor
  · intro hround
    obtain ⟨w, hget, hset⟩ := hround t
    rw [sceRtcGetDosTime_spec hvalid] at hget
    obtain rfl := Option.some.inj (Prod.mk.inj hget).2
    have heq := Option.some.inj (Prod.mk.inj ((hspec t).symm.trans hset)).2
    have hy := congrArg OrbisRtcDateTime.year heq
    have hs := congrArg OrbisRtcDateTime.second heq
    simp only at hy hs
    refine ⟨⟨?_, congrArg OrbisRtcDateTime.minute heq, congrArg OrbisRtcDateTime.hour heq,
      congrArg OrbisRtcDateTime.day heq, congrArg OrbisRtcDateTime.month heq, ?_⟩, ?_⟩
    · unfold Within
      omega
    · unfold Within
      split at hy <;> omega
    · split at hy <;> omega
  · rintro ⟨⟨hsecond, hminute, hhour, hday, hmonth, hyears⟩, hlate⟩ d
    refine ⟨_, sceRtcGetDosTime_spec hvalid word, (hspec d).trans ?_⟩
    unfold Within at hsecond hminute hhour hday hmonth hyears
    rw [hsecond, hminute, hhour, hday, hmonth, hyears]
    have hy : 1980 + (t.year - 1980) = t.year := by omega
    have hs : 2 * (t.second / 2) = t.second := by omega
    rw [hy, if_pos hlate, hs, ← hmicro]

/-- Every bit of `x` is one of `base`. -/
theorem and_not_eq_zero_iff {x base : BitVec 32} : x &&& ~~~base = 0#32 ↔ x ||| base = base := by
  constructor
  · intro h
    apply eq_of_getLsbD_eq
    intro i hi
    have hbit := congrArg (getLsbD · i) h
    simp only [getLsbD_and, getLsbD_not, hi, decide_true, getLsbD_zero,
      Bool.true_and] at hbit
    rw [getLsbD_or]
    cases hx : x.getLsbD i <;> cases hb : base.getLsbD i <;> simp_all
  · intro h
    apply eq_of_getLsbD_eq
    intro i hi
    have hbit := congrArg (getLsbD · i) h
    simp only [getLsbD_or] at hbit
    rw [getLsbD_and, getLsbD_not, getLsbD_zero]
    cases hx : x.getLsbD i <;> cases hb : base.getLsbD i <;> simp_all

theorem wordRoundTrip_iff (h : sceRtcCheckValid (some (dosDate w)) = .ok)
    (word : BitVec 32) : WordRoundTrip w word ↔ word &&& ~~~w = 0#32 := by
  have hvalid := valid_of_dosDate (sceRtcCheckValid_eq_ok.mp h)
  have hsum : BitVec.ofNat 32 (dosSum { dosDate w with
      year := if (dosDate w).year < 2044 then (dosDate w).year else (dosDate w).year - 128 }) = w := by
    split
    · exact dosSum_dosDate rfl (.inl rfl)
    · exact dosSum_dosDate rfl (.inr rfl)
  rw [and_not_eq_zero_iff]
  constructor
  · intro hround
    obtain ⟨t, hset, hget⟩ := hround ⟨1, 1, 1, 0, 0, 0, 0⟩
    rw [sceRtcSetDosTime_spec] at hset
    obtain rfl := Option.some.inj (Prod.mk.inj hset).2
    rw [sceRtcGetDosTime_spec hvalid, hsum] at hget
    exact Option.some.inj (Prod.mk.inj hget).2
  · intro hword d
    refine ⟨_, sceRtcSetDosTime_spec d w, ?_⟩
    rw [sceRtcGetDosTime_spec hvalid, hsum, hword]

/-- A date-time comes back from a word whose earlier bits fit it, up to 2043; a word comes back from
    its date-time when the earlier bits are its own. -/
theorem dosTime_roundTrip_iff (t : OrbisRtcDateTime) (w word : BitVec 32) :
    (DosRange t → (DateRoundTrip t word ↔ DosFits word t ∧ t.year < 2044)) ∧
      (sceRtcCheckValid (some (dosDate w)) = .ok → (WordRoundTrip w word ↔ word &&& ~~~w = 0#32)) :=
  ⟨fun h => dateRoundTrip_iff h word, fun h => wordRoundTrip_iff h word⟩

/-- The last second of 2043, and the same second as a word, written over an older time. -/
theorem dosTime_lastSecond :
    DateRoundTrip ⟨2043, 12, 31, 23, 59, 58, 0⟩ 0x01#32 ∧ WordRoundTrip 0x7f9fbf7d#32 0x01010000#32 :=
  have hboth := dosTime_roundTrip_iff ⟨2043, 12, 31, 23, 59, 58, 0⟩ 0x7f9fbf7d#32 0x01#32
  have hword := dosTime_roundTrip_iff ⟨2043, 12, 31, 23, 59, 58, 0⟩ 0x7f9fbf7d#32 0x01010000#32
  ⟨(hboth.1 ⟨by decide, by decide, by decide, by decide, rfl⟩).mpr
      ⟨⟨rfl, rfl, rfl, rfl, rfl, rfl⟩, by decide⟩,
    (hword.2 (by decide)).mpr (by decide)⟩

/-- The first second of 2044 comes back as that of 1916, and ones in the word stay there. -/
theorem dosTime_year_wraps :
    ¬((∀ t, DosRange t → ∀ word, DateRoundTrip t word) ∧
      ∀ w, sceRtcCheckValid (some (dosDate w)) = .ok → ∀ word, WordRoundTrip w word) := by
  rintro ⟨hall, -⟩
  have hrange : DosRange ⟨2044, 1, 1, 0, 0, 0, 0⟩ := ⟨by decide, by decide, by decide, by decide, rfl⟩
  have hlate := ((dateRoundTrip_iff hrange 0#32).mp (hall _ hrange 0#32)).2
  exact absurd hlate (by decide)

end Rtc
