import ModulePins.Calendar.Basic
import ModulePins.Text.Digit
import ModulePins.Value
import ModulePins.Yaml.Fault

/-!
# Timestamps in YAML

A date alone, or a date and a time of day with blanks or the letter T between them, an optional
fraction of a second and an optional distance from universal time. The written form is split into
its numbers first; whether such a date exists is asked afterwards.
-/

namespace ModulePins.Yaml

/-- A distance from universal time as it is written. `spaced` tells whether a colon stands between
hours and minutes, or there are no minutes. -/
structure Timestamp.Offset where
  text : String
  negative : Bool := false
  hours : Nat := 0
  minutes : Nat := 0
  spaced : Bool := true
  deriving Repr

structure Timestamp.Clock where
  hour : Nat
  minute : Nat
  second : Nat
  fraction : List Char := []
  offset : Option Timestamp.Offset := none
  deriving Repr

/-- The parts of a written timestamp. `padded` tells whether month and day have two digits. -/
structure Timestamp where
  date : Date
  padded : Bool
  clock : Option Timestamp.Clock := none
  deriving Repr

namespace Timestamp

/-- Between `least` and `most` digits, as many as there are. -/
def digits? (least most : Nat) (cs : List Char) : Option (List Char × List Char) :=
  let digits := (cs.take most).takeWhile Char.isDigit
  if digits.length < least then none else some (digits, cs.drop digits.length)

def mark? (c : Char) (cs : List Char) : Option (List Char) :=
  if cs.head? == some c then some (cs.drop 1) else none

/-- The digits after a sign: hours, and minutes with or without a colon. -/
def offsetDigits? (text : String) (negative : Bool) (cs : List Char) : Option Offset :=
  let digits := cs.takeWhile Char.isDigit
  let hours (n : Nat) : Nat := Text.digitsValue (digits.take n)
  match digits.length, cs.drop digits.length with
  | 1, [] => some { text, negative, hours := hours 1 }
  | 2, [] => some { text, negative, hours := hours 2 }
  | 3, [] =>
    some { text, negative, hours := hours 1, minutes := Text.digitsValue (digits.drop 1)
           spaced := false }
  | 4, [] =>
    some { text, negative, hours := hours 2, minutes := Text.digitsValue (digits.drop 2)
           spaced := false }
  | count, ':' :: rest =>
    if (count = 1 || count = 2) && rest.length = 2 && rest.all Char.isDigit then
      some { text, negative, hours := hours count, minutes := Text.digitsValue rest }
    else none
  | _, _ => none

/-- The distance from universal time, which ends the text. -/
def offset? (cs : List Char) : Option (Option Offset) :=
  let cs := cs.dropWhile fun c => c == ' ' || c == '\t'
  match cs with
  | [] => some none
  | ['Z'] => some (some { text := "Z" })
  | '+' :: rest => some <$> offsetDigits? (String.ofList cs) false rest
  | '-' :: rest => some <$> offsetDigits? (String.ofList cs) true rest
  | _ => none

def clock? (cs : List Char) : Option Clock := do
  let (hour, cs) ← digits? 1 2 cs
  let cs ← mark? ':' cs
  let (minute, cs) ← digits? 2 2 cs
  let cs ← mark? ':' cs
  let (second, cs) ← digits? 2 2 cs
  let afterPoint := mark? '.' cs
  let fraction := (afterPoint.getD []).takeWhile Char.isDigit
  let cs := (afterPoint.map (·.drop fraction.length)).getD cs
  -- blanks at the end belong to nothing
  let offset ← if !cs.isEmpty && cs.all (fun c => c == ' ' || c == '\t') then none else offset? cs
  return {
    hour := Text.digitsValue hour
    minute := Text.digitsValue minute
    second := Text.digitsValue second
    fraction
    offset }

/-- The blanks or the letter between date and time. -/
def gap? : List Char → Option (List Char)
  | 'T' :: rest => some rest
  | 't' :: rest => some rest
  | cs =>
    let rest := cs.dropWhile fun c => c == ' ' || c == '\t'
    if rest.length < cs.length then some rest else none

def read? (cs : List Char) : Option Timestamp := do
  let (year, cs) ← digits? 4 4 cs
  let cs ← mark? '-' cs
  let (month, cs) ← digits? 1 2 cs
  let cs ← mark? '-' cs
  let (day, cs) ← digits? 1 2 cs
  let date : Date := {
    year := Text.digitsValue year
    month := Text.digitsValue month
    day := Text.digitsValue day }
  let padded := month.length = 2 && day.length = 2
  if cs.isEmpty then return { date, padded }
  else
    let clock ← clock? (← gap? cs)
    return { date, padded, clock := some clock }

/-- Whether a text that is not marked as a timestamp reads as one. -/
def isImplicit (t : Timestamp) : Bool :=
  match t.clock with
  | none => t.padded
  | some clock => clock.offset.all Offset.spaced

def checkDate (d : Date) : Except Fault Unit :=
  if d.year = 0 || 9999 < d.year then
    .error (.badValue ("year " ++ toString d.year ++ " is out of range"))
  else if d.month = 0 || 12 < d.month then .error (.badValue "month must be in 1..12")
  else if d.day = 0 || Date.daysInMonth d.year d.month < d.day then
    .error (.badValue "day is out of range for month")
  else .ok ()

def checkClock (c : Clock) : Except Fault Unit :=
  if 23 < c.hour then .error (.badValue "hour must be in 0..23")
  else if 59 < c.minute then .error (.badValue "minute must be in 0..59")
  else if 59 < c.second then .error (.badValue "second must be in 0..59")
  else .ok ()

/-- A distance from universal time has to be less than a day. -/
def Offset.zone (o : Offset) : Except Fault Zone :=
  let size : Int := o.hours * 60 + o.minutes
  let minutes := if o.negative then -size else size
  if size < 1440 then .ok { minutes, name := some o.text }
  else
    .error (.badValue
      ("offset must be a timedelta strictly between -timedelta(hours=24) and " ++
        "timedelta(hours=24), not " ++ Value.shownOffset minutes ++ "."))

/-- The fraction in microseconds; its seventh digit rounds. -/
def microseconds (fraction : List Char) : Nat :=
  let kept := fraction.take 6
  let up : Bool := match (fraction.drop 6).head? with
    | some c => 4 < Text.digitsValue [c]
    | none => false
  Text.digitsValue kept * Nat.pow 10 (6 - kept.length) + if up then 1 else 0

/-- The date or instant that was written, if there is one. -/
def value (t : Timestamp) : Except Fault Value :=
  match t.clock with
  | none => do
    checkDate t.date
    return .date t.date
  | some c => do
    let zone ← c.offset.mapM Offset.zone
    checkDate t.date
    checkClock c
    let micro := microseconds c.fraction
    let instant : Instant := {
      date := t.date, hour := c.hour, minute := c.minute, second := c.second, zone
      micro := micro % 1000000 }
    if micro < 1000000 then return .instant instant
    else
      match instant.addSecond? with
      | some later => return .instant later
      | none => .error (.overflow "date value out of range")

end Timestamp

end ModulePins.Yaml
