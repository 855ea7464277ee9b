-- SUMMARY: Ticks written as RFC 2822 and RFC 3339 texts, and the parsers of such texts.
import W7PS4.Lib.Text
import W7PS4.Rtc.TickAdd

/-!
# Texts of date-times

The formatters move the tick by the minutes of the time zone and write its date-time
piece by piece. The parsers read numbers at fixed positions and move the tick again.
-/

namespace Rtc

open Text (StdError charAt stoi substr)

/-- The result comes with `*pTick1` after the call. -/
def sceRtcTickAddMinutes (pTick1 pTick2 : Option Nat) (lAdd : Int) : RtcResult × Option Nat :=
  match pTick1, pTick2 with
  | some _, some tick2 => (.ok, some (U64.ofInt (lAdd * 60000000 + tick2)))
  | _, _ => (.invalidPointer, pTick1)

def sceRtcGetDaysInMonth (year month : Int) : Except RtcResult Nat :=
  if year ≤ 0 then .error .invalidYear
  else if month ≤ 0 ∨ month > 12 then .error .invalidMonth
  else .ok (Calendar.daysInMonth year.toNat month.toNat)

/-- Sunday is 0; 0001-01-01 is a Monday. -/
def sceRtcGetDayOfWeek (sdkVersion year month day : Int) : Except RtcResult Nat :=
  if year < 1 ∨ (0x3000000 ≤ sdkVersion ∧ year > 9999) then .error .invalidYear
  else if month > 12 ∨ month ≤ 0 then .error .invalidMonth
  else
    match sceRtcGetDaysInMonth year month with
    | .error e => .error e
    | .ok daysInMonth =>
      if day ≤ 0 ∨ day > daysInMonth then .error .invalidDay
      else .ok ((Calendar.dayNumber year.toNat month.toNat day.toNat + 1) % 7)

/-! ## Writing -/

def twoDigits (n : Int) : List Char :=
  if n < 10 then '0' :: Text.toString n else Text.toString n

def weekDayText : Except RtcResult Nat → List Char
  | .ok 0 => ['S', 'u', 'n', ',', ' ']
  | .ok 1 => ['M', 'o', 'n', ',', ' ']
  | .ok 2 => ['T', 'u', 'e', ',', ' ']
  | .ok 3 => ['W', 'e', 'd', ',', ' ']
  | .ok 4 => ['T', 'h', 'u', ',', ' ']
  | .ok 5 => ['F', 'r', 'i', ',', ' ']
  | .ok 6 => ['S', 'a', 't', ',', ' ']
  | _ => []

def monthText : Nat → List Char
  | 1 => ['J', 'a', 'n', ' ']
  | 2 => ['F', 'e', 'b', ' ']
  | 3 => ['M', 'a', 'r', ' ']
  | 4 => ['A', 'p', 'r', ' ']
  | 5 => ['M', 'a', 'y', ' ']
  | 6 => ['J', 'u', 'n', ' ']
  | 7 => ['J', 'u', 'l', ' ']
  | 8 => ['A', 'u', 'g', ' ']
  | 9 => ['S', 'e', 'p', ' ']
  | 10 => ['O', 'c', 't', ' ']
  | 11 => ['N', 'o', 'v', ' ']
  | 12 => ['D', 'e', 'c', ' ']
  | _ => []

/-- The offset of the time zone: `utc` when there is none, else hours, separator and minutes. -/
def zoneText (utc separator : List Char) (iTimeZoneMinutes : Int) : List Char :=
  if iTimeZoneMinutes = 0 then utc
  else
    let timeZoneHours := iTimeZoneMinutes.tdiv 60
    let timeZoneRemainder := iTimeZoneMinutes.tmod 60
    let sign := if timeZoneHours < 0 then '-' else '+'
    let timeZoneHours := if timeZoneHours < 0 then timeZoneHours * -1 else timeZoneHours
    let minutes :=
      if timeZoneRemainder = 0 then ['0', '0']
      else Text.toString (if timeZoneRemainder < 0 then timeZoneRemainder * -1 else timeZoneRemainder)
    sign :: (twoDigits timeZoneHours ++ separator ++ minutes)

/-- The tick that a formatter writes: that of the clock without a pointer, moved to the time zone. -/
def formatTick (now : Nat) (pTickUtc : Option Nat) (iTimeZoneMinutes : Int) : Nat :=
  let tick := pTickUtc.getD now
  (sceRtcTickAddMinutes (some tick) (some tick) iTimeZoneMinutes).2.getD tick

def textRFC2822 (sdkVersion : Int) (t : OrbisRtcDateTime) (iTimeZoneMinutes : Int) : List Char :=
  weekDayText (sceRtcGetDayOfWeek sdkVersion t.year t.month t.day) ++
    (twoDigits t.day ++ [' ']) ++ monthText t.month ++ (Text.toString t.year ++ [' ']) ++
    (twoDigits t.hour ++ [':']) ++ (twoDigits t.minute ++ [':']) ++ (twoDigits t.second ++ [' ']) ++
    zoneText ['+', '0', '0', '0', '0'] [] iTimeZoneMinutes

/-- The result comes with the text at `pszDateTime` after the call. -/
def sceRtcFormatRFC2822 (sdkVersion : Int) (now : Nat) (pszDateTime : Option (List Char))
    (pTickUtc : Option Nat) (iTimeZoneMinutes : Int) : RtcResult × Option (List Char) :=
  match pszDateTime with
  | none => (.invalidPointer, none)
  | some old =>
    let formatTime := readTick (formatTick now pTickUtc iTimeZoneMinutes)
    if sceRtcCheckValid (some formatTime) = .ok then
      (.ok, some (textRFC2822 sdkVersion formatTime iTimeZoneMinutes))
    else (.ok, some old)

/-- At most the first two digits of the milliseconds. -/
def fractionText (microsecond : Nat) : List Char :=
  if microsecond ≠ 0 then '.' :: (Text.toString (microsecond / 1000 : Nat)).take 2 else ['.', '0', '0']

def textRFC3339 (t : OrbisRtcDateTime) (iTimeZoneMinutes : Int) : List Char :=
  (Text.toString t.year ++ ['-']) ++ (twoDigits t.month ++ ['-']) ++ (twoDigits t.day ++ ['T']) ++
    (twoDigits t.hour ++ [':']) ++ (twoDigits t.minute ++ [':']) ++ twoDigits t.second ++
    fractionText t.microsecond ++ zoneText ['Z'] [':'] iTimeZoneMinutes

/-- The result comes with the text at `pszDateTime` after the call. -/
def sceRtcFormatRFC3339Precise (now : Nat) (pszDateTime : Option (List Char)) (pTickUtc : Option Nat)
    (iTimeZoneMinutes : Int) : RtcResult × Option (List Char) :=
  match pszDateTime with
  | none => (.invalidPointer, none)
  | some _ =>
    let formatTime := readTick (formatTick now pTickUtc iTimeZoneMinutes)
    (.ok, some (textRFC3339 formatTime iTimeZoneMinutes))

/-! ## Reading -/

def GetMonthFromString : List Char → Nat
  | ['J', 'a', 'n'] => 1
  | ['F', 'e', 'b'] => 2
  | ['M', 'a', 'r'] => 3
  | ['A', 'p', 'r'] => 4
  | ['M', 'a', 'y'] => 5
  | ['J', 'u', 'n'] => 6
  | ['J', 'u', 'l'] => 7
  | ['A', 'u', 'g'] => 8
  | ['S', 'e', 'p'] => 9
  | ['O', 'c', 't'] => 10
  | ['N', 'o', 'v'] => 11
  | ['D', 'e', 'c'] => 12
  | _ => 1

/-- `std::stoi(s.substr(pos, len))`. -/
def readField (s : List Char) (pos len : Nat) : Except StdError Int := do
  stoi (← substr s pos len)

/-- The fields are `u16` but for the microseconds. -/
def fieldsOf (year month day hour minute second microsecond : Int) : OrbisRtcDateTime :=
  { year := (year % 2 ^ 16).toNat
    month := (month % 2 ^ 16).toNat
    day := (day % 2 ^ 16).toNat
    hour := (hour % 2 ^ 16).toNat
    minute := (minute % 2 ^ 16).toNat
    second := (second % 2 ^ 16).toNat
    microsecond := (microsecond % 2 ^ 32).toNat }

/-- The hours and the minutes of the time zone, in minutes. -/
def readZone (s : List Char) (hoursPos minutesPos : Nat) : Except StdError Int := do
  let hours ← readField s hoursPos 2
  let minutes ← readField s minutesPos 2
  return hours * 60 + minutes

/-- The result comes with `*pTickUtc` after the call; a failed conversion throws. -/
def sceRtcParseRFC3339 (pTickUtc : Option Nat) (pszDateTime : Option (List Char)) :
    Except StdError (RtcResult × Option Nat) :=
  match pTickUtc, pszDateTime with
  | some _, some s => do
    let year ← readField s 0 4
    let month ← readField s 5 2
    let day ← readField s 8 2
    let hour ← readField s 11 2
    let minute ← readField s 14 2
    let second ← readField s 17 2
    let point ← charAt s 19
    let timezonePos := if point = '.' then 22 else 19
    let microsecond ← if point = '.' then readField s 20 2 else .ok 0
    let (_, _, pTickUtc) := sceRtcGetTick (some (fieldsOf year month day hour minute second microsecond)) pTickUtc
    let zone ← charAt s timezonePos
    if zone = '-' then
      let timeZoneOffset ← readZone s (timezonePos + 1) (timezonePos + 4)
      return (.ok, (sceRtcTickAddMinutes pTickUtc pTickUtc (timeZoneOffset * -1)).2)
    else if zone = '+' then
      let timeZoneOffset ← readZone s (timezonePos + 1) (timezonePos + 4)
      return (.ok, (sceRtcTickAddMinutes pTickUtc pTickUtc timeZoneOffset).2)
    else return (.ok, pTickUtc)
  | _, _ => .ok (.invalidPointer, pTickUtc)

/-- The branch for RFC 2822 texts. -/
def parseRFC2822 (pTickUtc : Option Nat) (s : List Char) : Except StdError (RtcResult × Option Nat) := do
  let day ← readField s 5 2
  let month ← substr s 8 3
  let year ← readField s 12 4
  let hour ← readField s 17 2
  let minute ← readField s 20 2
  let second ← readField s 23 2
  let (_, _, pTickUtc) := sceRtcGetTick
    (some (fieldsOf year (GetMonthFromString month) day hour minute second 0)) pTickUtc
  let zone ← charAt s 26
  if zone = '+' then
    let timeZoneOffset ← readZone s 27 29
    return (.ok, (sceRtcTickAddMinutes pTickUtc pTickUtc timeZoneOffset).2)
  else if zone = '-' then
    let timeZoneOffset ← readZone s 27 29
    return (.ok, (sceRtcTickAddMinutes pTickUtc pTickUtc (timeZoneOffset * -1)).2)
  else return (.ok, pTickUtc)

/-- The branch for texts of `asctime`. -/
def parseAsctime (pTickUtc : Option Nat) (s : List Char) : Except StdError (RtcResult × Option Nat) := do
  let month ← substr s 4 3
  let day ← readField s 8 2
  let hour ← readField s 11 2
  let minute ← readField s 14 2
  let second ← readField s 17 2
  let year ← readField s 20 4
  let (_, _, pTickUtc) := sceRtcGetTick
    (some (fieldsOf year (GetMonthFromString month) day hour minute second 0)) pTickUtc
  return (.ok, pTickUtc)

inductive TextFormat where
  | rfc3339
  | rfc2822
  | asctime
deriving DecidableEq, Repr

/-- The format that the character at the key's position stands for. -/
def formatOfKey (formatKey : Char) : TextFormat :=
  if formatKey = 'Z' ∨ formatKey = '-' ∨ formatKey = '+' ∨ formatKey = '.' then .rfc3339
  else if formatKey = ':' then .rfc2822
  else .asctime

/-- The result comes with `*pTickUtc` after the call. -/
def sceRtcParseDateTime (pTickUtc : Option Nat) (pszDateTime : Option (List Char)) :
    Except StdError (RtcResult × Option Nat) :=
  match pTickUtc, pszDateTime with
  | some _, some s => do
    let formatKey ← charAt s 19
    match formatOfKey formatKey with
    | .rfc3339 =>
      let (_, pTickUtc) ← sceRtcParseRFC3339 pTickUtc pszDateTime
      return (.ok, pTickUtc)
    | .rfc2822 => parseRFC2822 pTickUtc s
    | .asctime => parseAsctime pTickUtc s
  | _, _ => .ok (.invalidPointer, pTickUtc)

end Rtc
