/-!
# Dates and instants

Dates of the proleptic Gregorian calendar from year 1 to 9999, and instants on them to the
microsecond. An instant may carry its distance from universal time; one without is local to nobody.
-/

namespace ModulePins

structure Date where
  year : Nat
  month : Nat
  day : Nat
  deriving DecidableEq, Repr, Inhabited

/-- A distance from universal time in minutes, and the name it was written with, if that is kept. -/
structure Zone where
  minutes : Int
  name : Option String := none
  deriving DecidableEq, Repr, Inhabited

structure Instant where
  date : Date
  hour : Nat := 0
  minute : Nat := 0
  second : Nat := 0
  micro : Nat := 0
  zone : Option Zone := none
  deriving DecidableEq, Repr, Inhabited

/-- `n` in decimal, padded with zeros to `width`. -/
def padded (width n : Nat) : String :=
  let digits := Nat.toDigits 10 n
  String.ofList (List.replicate (width - digits.length) '0' ++ digits)

namespace Date

def isLeap (year : Nat) : Bool :=
  year % 4 == 0 && (year % 100 != 0 || year % 400 == 0)

def daysInMonth (year month : Nat) : Nat :=
  if month = 2 then if isLeap year then 29 else 28
  else if month = 4 || month = 6 || month = 9 || month = 11 then 30
  else 31

def isValid (d : Date) : Bool :=
  1 ≤ d.year && d.year ≤ 9999 && 1 ≤ d.month && d.month ≤ 12 &&
    1 ≤ d.day && d.day ≤ daysInMonth d.year d.month

/-- The days from 1970-01-01 to a date. -/
def dayNumber (d : Date) : Int :=
  let year : Int := if d.month ≤ 2 then (d.year : Int) - 1 else d.year
  let era := year.fdiv 400
  let yearOfEra := year - era * 400
  let month : Int := ((d.month : Int) + 9) % 12
  let dayOfYear := (153 * month + 2) / 5 + d.day - 1
  era * 146097 + yearOfEra * 365 + yearOfEra / 4 - yearOfEra / 100 + dayOfYear - 719468

/-- The year, month and day that lie `n` days after 1970-01-01. -/
def ofDayNumber (n : Int) : Int × Nat × Nat :=
  let shifted := n + 719468
  let era := shifted.fdiv 146097
  let dayOfEra := shifted - era * 146097
  let yearOfEra := (dayOfEra - dayOfEra / 1460 + dayOfEra / 36524 - dayOfEra / 146096) / 365
  let dayOfYear := dayOfEra - (365 * yearOfEra + yearOfEra / 4 - yearOfEra / 100)
  let month := (5 * dayOfYear + 2) / 153
  let day := dayOfYear - (153 * month + 2) / 5 + 1
  let month := if month < 10 then month + 3 else month - 9
  (yearOfEra + era * 400 + (if month ≤ 2 then 1 else 0), month.toNat, day.toNat)

def text (d : Date) : String :=
  padded 4 d.year ++ "-" ++ padded 2 d.month ++ "-" ++ padded 2 d.day

end Date

namespace Instant

/-- The instant `seconds` and `micro` microseconds after the epoch, in universal time. -/
def ofEpoch? (seconds : Int) (micro : Nat) : Option Instant :=
  let (year, month, day) := Date.ofDayNumber (seconds.fdiv 86400)
  let date : Date := { year := year.toNat, month, day }
  let clock := (seconds.fmod 86400).toNat
  if 1 ≤ year && year ≤ 9999 then
    some {
      date
      hour := clock / 3600
      minute := clock / 60 % 60
      second := clock % 60
      micro
      zone := some { minutes := 0 } }
  else none

/-- The same local time one second later; years beyond 9999 do not exist. -/
def addSecond? (t : Instant) : Option Instant := do
  let seconds := t.date.dayNumber * 86400 + (t.hour * 3600 + t.minute * 60 + t.second : Nat) + 1
  let later ← ofEpoch? seconds t.micro
  return { later with zone := t.zone }

/-- Date and time of day; microseconds only when there are any. -/
def localText (t : Instant) : String :=
  t.date.text ++ "T" ++ padded 2 t.hour ++ ":" ++ padded 2 t.minute ++ ":" ++ padded 2 t.second ++
    (if t.micro = 0 then "" else "." ++ padded 6 t.micro)

def offsetText (minutes : Int) : String :=
  (if minutes < 0 then "-" else "+") ++ padded 2 (minutes.natAbs / 60) ++ ":" ++
    padded 2 (minutes.natAbs % 60)

/-- The full form, which writes universal time as `+00:00`. -/
def isoText (t : Instant) : String :=
  t.localText ++ (t.zone.map fun zone => offsetText zone.minutes).getD ""

/-- The short form, which writes universal time as `Z`. -/
def text (t : Instant) : String :=
  t.localText ++
    (t.zone.map fun zone => if zone.minutes = 0 then "Z" else offsetText zone.minutes).getD ""

end Instant

end ModulePins
