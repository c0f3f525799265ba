import ModulePins.Calendar.Basic
import ModulePins.Nesting
import ModulePins.Number.Double
import ModulePins.Text.Digit
import ModulePins.Text.Quoted

/-!
# Values

What a manifest, a lockfile or a release record is before it is checked: the values that structured
text can express. Mappings keep their entries in the order written. Messages show values, except
those with a number of too many digits and those nested too deeply.
-/

namespace ModulePins

inductive Value where
  | null
  | bool (b : Bool)
  | int (n : Int)
  | float (x : Double)
  | text (s : String)
  | date (d : Date)
  | instant (t : Instant)
  | bytes (data : List UInt8)
  | list (items : List Value)
  | row (items : List Value)
  | set (members : List Value)
  | mapping (entries : List (Value × Value))
  deriving Repr, Inhabited

namespace Value

def isNull : Value → Bool
  | null => true
  | _ => false

/-- A boolean counts as a number in comparisons. -/
def wholeNumber? : Value → Option Int
  | bool b => some (if b then 1 else 0)
  | int n => some n
  | float x => x.toInt?
  | _ => none

mutual

/-- Equality of values: numbers compare by value whatever their kind, entries of mappings and
members of sets in the order written. -/
def same : Value → Value → Bool
  | null, null => true
  | text s, text t => s == t
  | date d, date e => d == e
  | instant t, instant u => t == u
  | bytes b, bytes c => b == c
  | list xs, list ys => sameItems xs ys
  | row xs, row ys => sameItems xs ys
  | set xs, set ys => sameItems xs ys
  | mapping xs, mapping ys => sameEntries xs ys
  | float x, float y => x.sameValue y
  | v, w =>
    match v.wholeNumber?, w.wholeNumber? with
    | some m, some n => m == n
    | _, _ => false

def sameItems : List Value → List Value → Bool
  | [], [] => true
  | x :: xs, y :: ys => same x y && sameItems xs ys
  | _, _ => false

def sameEntries : List (Value × Value) → List (Value × Value) → Bool
  | [], [] => true
  | (j, x) :: xs, (k, y) :: ys => same j k && same x y && sameEntries xs ys
  | _, _ => false

end

def field? (entries : List (Value × Value)) (name : String) : Option Value :=
  (entries.find? fun (key, _) => key.same (.text name)).map Prod.snd

/-- Sets a key: an entry that is there keeps its place and its key. -/
def setKey (entries : List (Value × Value)) (key value : Value) : List (Value × Value) :=
  if entries.any fun (k, _) => k.same key then
    entries.map fun (k, v) => if k.same key then (k, value) else (k, v)
  else entries ++ [(key, value)]

/-- Whether a value counts as true: empty things, zeros and null do not. -/
def isTruthy : Value → Bool
  | null => false
  | bool b => b
  | int n => n != 0
  | float x => !x.isZero
  | text s => s != ""
  | date _ => true
  | instant _ => true
  | bytes data => !data.isEmpty
  | list items => !items.isEmpty
  | row items => !items.isEmpty
  | set members => !members.isEmpty
  | mapping entries => !entries.isEmpty

def kindName : Value → String
  | null => "NoneType"
  | bool _ => "bool"
  | int _ => "int"
  | float _ => "float"
  | text _ => "str"
  | date _ => "date"
  | instant _ => "datetime"
  | bytes _ => "bytes"
  | list _ => "list"
  | row _ => "tuple"
  | set _ => "set"
  | mapping _ => "dict"

def shownByte (close : Char) (b : UInt8) : List Char :=
  let c := Char.ofNat b.toNat
  if c == '\\' || c == close then ['\\', c]
  else if c == '\n' then ['\\', 'n']
  else if c == '\r' then ['\\', 'r']
  else if c == '\t' then ['\\', 't']
  else if 0x20 ≤ b && b < 0x7F then [c]
  else '\\' :: 'x' :: Text.hexDigits 2 b.toNat

def shownBytes (data : List UInt8) : String :=
  let mark := Text.quoteMark (data.map fun b => Char.ofNat b.toNat)
  String.ofList ('b' :: mark :: data.flatMap (shownByte mark) ++ [mark])

def shownDate (d : Date) : String :=
  "datetime.date(" ++ ", ".intercalate ([d.year, d.month, d.day].map toString) ++ ")"

def shownOffset (minutes : Int) : String :=
  let days := minutes.fdiv 1440
  let seconds := minutes.fmod 1440 * 60
  let parts := (if days = 0 then [] else ["days=" ++ toString days]) ++
    (if seconds = 0 then [] else ["seconds=" ++ toString seconds])
  "datetime.timedelta(" ++ (if parts.isEmpty then "0" else ", ".intercalate parts) ++ ")"

def shownZone (zone : Zone) : String :=
  match zone.name with
  | some name =>
    "datetime.timezone(" ++ shownOffset zone.minutes ++ ", " ++ Text.quote name ++ ")"
  | none =>
    if zone.minutes = 0 then "datetime.timezone.utc"
    else "datetime.timezone(" ++ shownOffset zone.minutes ++ ")"

/-- An instant: seconds and microseconds are left out when they and all that follow are zero. -/
def shownInstant (t : Instant) : String :=
  let clock := [t.date.year, t.date.month, t.date.day, t.hour, t.minute] ++
    (if t.micro = 0 then if t.second = 0 then [] else [t.second] else [t.second, t.micro])
  let zone := (t.zone.map fun zone => ", tzinfo=" ++ shownZone zone).getD ""
  "datetime.datetime(" ++ ", ".intercalate (clock.map toString) ++ zone ++ ")"

/-- The brackets within an instant: its zone, and the distance from universal time in that. -/
def zoneDepth (t : Instant) : Nat :=
  match t.zone with
  | none => 0
  | some zone => if zone.name.isNone && zone.minutes = 0 then 1 else 2

inductive Unshown where
  | longNumber
  | tooDeep
  deriving DecidableEq, Repr

def Unshown.message : Unshown → String
  | longNumber => Text.longNumber
  | tooDeep => Overflow.showing.message

def shownInt (n : Int) : Except Unshown String :=
  if n.natAbs < Text.digitBound then .ok (toString n) else .error .longNumber

def shownRow : List String → String
  | [item] => "(" ++ item ++ ",)"
  | items => "(" ++ ", ".intercalate items ++ ")"

mutual

/-- A value as messages show it, where `depth` more brackets may be nested in it. A set is shown
through the list of its members. -/
def shown (depth : Nat) : Value → Except Unshown String
  | null => .ok "None"
  | bool b => .ok (if b then "True" else "False")
  | int n => shownInt n
  | float x => .ok x.text
  | text s => .ok (Text.quote s)
  | date d => .ok (shownDate d)
  | instant t => if zoneDepth t ≤ depth then .ok (shownInstant t) else .error .tooDeep
  | bytes data => .ok (shownBytes data)
  | list items => do return "[" ++ ", ".intercalate (← shownItems depth items) ++ "]"
  | row items => do return shownRow (← shownItems depth items)
  | set members =>
    if members.isEmpty then .ok "set()"
    else do return "\x7b" ++ ", ".intercalate (← shownItems (depth - 1) members) ++ "\x7d"
  | mapping entries => do
    return "\x7b" ++ ", ".intercalate (← shownEntries depth entries) ++ "\x7d"

def shownItems (depth : Nat) : List Value → Except Unshown (List String)
  | [] => .ok []
  | item :: rest =>
    match depth with
    | 0 => .error .tooDeep
    | depth + 1 => do
      let first ← shown depth item
      return first :: (← shownItems (depth + 1) rest)

def shownEntries (depth : Nat) : List (Value × Value) → Except Unshown (List String)
  | [] => .ok []
  | (key, value) :: rest =>
    match depth with
    | 0 => .error .tooDeep
    | depth + 1 => do
      let name ← shown depth key
      let content ← shown depth value
      return (name ++ ": " ++ content) :: (← shownEntries (depth + 1) rest)

end

/-- A value as text: a text stands for itself. -/
def spelled (depth : Nat) : Value → Except Unshown String
  | text s => .ok s
  | v => v.shown depth

/-- A value where something must be said: what cannot be shown is named by its kind. -/
def plain (v : Value) (depth : Nat := Nesting.limit) : String :=
  match v.spelled depth with
  | .ok s => s
  | .error _ => "<unprintable " ++ v.kindName ++ " object>"

end Value

end ModulePins
