import ModulePins.Number.Double
import ModulePins.Text.Blank
import ModulePins.Text.Digit
import ModulePins.Text.Quoted
import ModulePins.Yaml.Fault

/-!
# Numbers in YAML

Numbers may have a sign and underscores anywhere. Whole numbers are written in base ten, or with a
mark in base two, eight or sixteen. Version 1.1 also knows octal numbers that start with a zero, and
numbers to base sixty with colons between the digits.
-/

namespace ModulePins.Yaml.Number

def digitOf? (base : Nat) (c : Char) : Option Nat :=
  let value := match Text.digitValue? c with
    | some n => some n
    | none =>
      if 'a' ≤ c && c ≤ 'f' then some (c.toNat - 0x57)
      else if 'A' ≤ c && c ≤ 'F' then some (c.toNat - 0x37)
      else none
  value.filter (· < base)

/-- A mark for a base may be repeated before the digits. -/
def dropBaseMark (base : Nat) (cs : List Char) : List Char :=
  let marks (lower upper : Char) : List Char :=
    match cs with
    | '0' :: c :: rest => if c == lower || c == upper then rest else cs
    | _ => cs
  match base with
  | 2 => marks 'b' 'B'
  | 8 => marks 'o' 'O'
  | 16 => marks 'x' 'X'
  | _ => cs

/-- Splits off a sign; true means negative. -/
def splitSign : List Char → Bool × List Char
  | '-' :: rest => (true, rest)
  | '+' :: rest => (false, rest)
  | cs => (false, cs)

def signed (negative : Bool) (n : Nat) : Int :=
  if negative then -n else n

/-- A whole number without underscores; blanks around it do not count. -/
def whole (base : Nat) (cs : List Char) : Except Fault Int :=
  let (negative, unsigned) := splitSign (Text.trim cs)
  let digits := dropBaseMark base unsigned
  let value := digits.foldlM (fun n c => (digitOf? base c).map (base * n + ·)) 0
  match value with
  | some n =>
    if digits.isEmpty then .error (.badValue (unreadable base cs))
    else if base = 10 && Text.maxDigits < digits.length then
      .error (.badValue (Text.tooManyDigits digits.length))
    else .ok (signed negative n)
  | none => .error (.badValue (unreadable base cs))
where
  unreadable (base : Nat) (cs : List Char) : String :=
    "invalid literal for int() with base " ++ toString base ++ ": " ++
      Text.quote (String.ofList cs)

def parts : List Char → List (List Char)
  | [] => [[]]
  | c :: rest =>
    match parts rest with
    | [] => [[c]]
    | part :: more => if c == ':' then [] :: part :: more else (c :: part) :: more

def readInt (older : Bool) (cs : List Char) : Except Fault Int := do
  let (negative, unsigned) := splitSign (cs.filter (· != '_'))
  let positive (n : Int) : Int := if negative then -n else n
  match unsigned with
  | [] => if cs.any (fun c => c == '-' || c == '+') && !older then whole 10 [] else .error .emptyNumber
  | ['0'] => return 0
  | '0' :: 'b' :: rest => positive <$> whole 2 rest
  | '0' :: 'x' :: rest => positive <$> whole 16 rest
  | '0' :: 'o' :: rest => positive <$> whole 8 rest
  | c :: rest =>
    if older && c == '0' then positive <$> whole 8 (c :: rest)
    else if older && (c :: rest).contains ':' then do
      let digits ← (parts (c :: rest)).mapM (whole 10)
      return positive (digits.foldl (fun n digit => 60 * n + digit) 0)
    else positive <$> whole 10 (c :: rest)

/-- An exponent: a sign and decimal digits, which end the text. -/
def exponent? (cs : List Char) : Option Int :=
  let (negative, digits) := splitSign cs
  if digits.isEmpty || !digits.all Text.isDecimal then none
  else some (signed negative (Text.digitsValue digits))

/-- A decimal numeral with an optional fraction and exponent, in lower case. -/
def decimal? (negative : Bool) (cs : List Char) : Option Double :=
  let whole := cs.takeWhile Text.isDecimal
  let rest := cs.drop whole.length
  let places := match rest with
    | '.' :: rest => rest.takeWhile Text.isDecimal
    | _ => []
  let rest := match rest with
    | '.' :: rest => rest.drop places.length
    | rest => rest
  let power := match rest with
    | [] => some 0
    | 'e' :: rest => exponent? rest
    | _ => none
  if whole.isEmpty && places.isEmpty then none
  else power.map fun power =>
    .ofDecimal negative (Text.digitsValue (whole ++ places)) (power - places.length)

/-- A double in lower case without underscores; blanks around it do not count. -/
def double? (cs : List Char) : Option Double :=
  let (negative, unsigned) := splitSign (Text.trim cs)
  if unsigned == "inf".toList || unsigned == "infinity".toList then some (.infinite negative)
  else if unsigned == "nan".toList then some .nan
  else decimal? negative unsigned

def double (cs : List Char) : Except Fault Double :=
  match double? cs with
  | some x => .ok x
  | none =>
    .error (.badValue ("could not convert string to float: " ++ Text.quote (String.ofList cs)))

def negate : Double → Double
  | .finite negative mantissa exponent => .finite (!negative) mantissa exponent
  | .infinite negative => .infinite (!negative)
  | .nan => .nan

/-- The number with these digits to base sixty, which may have fractions. -/
def ofSixties (digits : List Double) : Double :=
  let (num, den) := digits.foldl (fun (num, den) digit =>
    let (n, d) := digit.toRatio?.getD (0, 1)
    (60 * num * d + n * den, den * d)) ((0 : Int), 1)
  .ofRatio (num < 0) num.natAbs den

def readDouble (older : Bool) (cs : List Char) : Except Fault Double := do
  let cs := (cs.filter (· != '_')).map Char.toLower
  if cs.isEmpty then .error .emptyNumber
  else
    let (negative, unsigned) := splitSign cs
    let value ←
      if unsigned == ".inf".toList then pure (.infinite false)
      else if unsigned == ".nan".toList then pure .nan
      else if older && unsigned.contains ':' then ofSixties <$> (parts unsigned).mapM double
      else double unsigned
    return if negative then negate value else value

end ModulePins.Yaml.Number
