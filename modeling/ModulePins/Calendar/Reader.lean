import ModulePins.Calendar.Basic
import ModulePins.Number.Double
import ModulePins.Text.Digit

/-!
# Reading instants

An instant is written as a date, a separator and a time of day with or without a distance from
universal time; a date alone means its midnight. A number counts the seconds since the epoch in
universal time, or the milliseconds when it is beyond any likely second.
-/

namespace ModulePins.Instant

/-- Numbers beyond this count milliseconds. -/
def millisecondsFrom : Nat := 20000000000

/-- The value of exactly `count` ASCII digits at the head of a text. -/
def digits? (count : Nat) (cs : List Char) : Option (Nat × List Char) :=
  let digits := cs.take count
  if digits.length = count && digits.all Char.isDigit then
    some (Text.digitsValue digits, cs.drop count)
  else none

def mark? (marks : List Char) (cs : List Char) : Option (List Char) :=
  match cs with
  | c :: rest => if marks.contains c then some rest else none
  | [] => none

/-- A date as `YYYY-MM-DD`. -/
def date? (cs : List Char) : Option (Date × List Char) := do
  let (year, cs) ← digits? 4 cs
  let cs ← mark? ['-'] cs
  let (month, cs) ← digits? 2 cs
  let cs ← mark? ['-'] cs
  let (day, cs) ← digits? 2 cs
  let date : Date := { year, month, day }
  if date.isValid then some (date, cs) else none

/-- Microseconds after a point or comma; digits after the sixth are cut off. -/
def fraction? (cs : List Char) : Option (Nat × List Char) :=
  match mark? ['.', ','] cs with
  | none => some (0, cs)
  | some rest =>
    let digits := rest.takeWhile Char.isDigit
    let kept := digits.take 6
    if digits.isEmpty then none
    else some (Text.digitsValue kept * Nat.pow 10 (6 - kept.length), rest.drop digits.length)

def seconds? (cs : List Char) : Option (Nat × Nat × List Char) :=
  match cs with
  | ':' :: rest => do
    let (second, rest) ← digits? 2 rest
    let (micro, rest) ← fraction? rest
    if second ≤ 59 then some (second, micro, rest) else none
  | _ => some (0, 0, cs)

/-- The distance from universal time, which ends the text. -/
def zone? (cs : List Char) : Option (Option Zone) :=
  match cs with
  | [] => some none
  | ['Z'] => some (some { minutes := 0 })
  | ['z'] => some (some { minutes := 0 })
  | sign :: rest => do
    let negative := sign == '-' || sign.toNat == 0x2212
    let (hours, rest) ← digits? 2 rest
    let rest := (mark? [':'] rest).getD rest
    let (minutes, rest) ← digits? 2 rest
    let size : Int := hours * 60 + minutes
    if (negative || sign == '+') && hours ≤ 23 && minutes ≤ 59 && rest.isEmpty then
      some (some { minutes := if negative then -size else size })
    else none

def dateTime? (cs : List Char) : Option Instant := do
  let (date, cs) ← date? cs
  let cs ← mark? ['T', 't', ' ', '_'] cs
  let (hour, cs) ← digits? 2 cs
  let cs ← mark? [':'] cs
  let (minute, cs) ← digits? 2 cs
  let (second, micro, cs) ← seconds? cs
  let zone ← zone? cs
  if hour ≤ 23 && minute ≤ 59 then some { date, hour, minute, second, micro, zone } else none

/-- The instant a whole number of seconds or milliseconds after the epoch, and `micro` more. -/
def ofStamp? (stamp : Int) (micro : Nat) : Option Instant :=
  if stamp.natAbs ≤ millisecondsFrom then
    ofEpoch? (stamp + micro / 1000000) (micro % 1000000)
  else
    let micro := micro + (stamp.fmod 1000).toNat * 1000
    ofEpoch? (stamp.fdiv 1000 + micro / 1000000) (micro % 1000000)

/-- The instant a double stands for: whole seconds downwards, and the size of the fraction. -/
def ofDouble? (x : Double) : Option Instant := do
  let (num, den) ← x.toRatio?
  let fraction := num.natAbs % den * 1000000
  ofStamp? (num.fdiv den) ((2 * fraction + den) / (2 * den))

/-- The instant a numeral in seconds or milliseconds stands for. -/
def numeral? (cs : List Char) : Option Instant := do
  let negative := cs.head? == some '-'
  let unsigned := if negative || cs.head? == some '+' then cs.drop 1 else cs
  let whole := unsigned.takeWhile Char.isDigit
  let signed (n : Nat) : Int := if negative then -n else n
  if whole.isEmpty then none
  match unsigned.drop whole.length with
  | [] => ofStamp? (signed (Text.digitsValue whole)) 0
  | '.' :: places =>
    if places.all Char.isDigit then
      let den := Nat.pow 10 places.length
      let num := signed (Text.digitsValue (whole ++ places))
      let den := if millisecondsFrom * den < num.natAbs then den * 1000 else den
      let seconds := num.fdiv den
      let rest := (num - seconds * den).toNat * 1000000
      let micro := (2 * rest + den) / (2 * den)
      ofEpoch? (seconds + micro / 1000000) (micro % 1000000)
    else none
  | _ => none

def read? (text : String) : Option Instant :=
  let cs := text.toList
  (dateTime? cs).or <| (numeral? cs).or <|
    match date? cs with
    | some (date, []) => some { date }
    | _ => none

end ModulePins.Instant
