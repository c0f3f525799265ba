/-!
# Double-precision numbers

A finite double is a sign and `mantissa * 2 ^ exponent`, with a mantissa below `2 ^ 53`; the
mantissa is at least `2 ^ 52` unless the exponent is the least one. All arithmetic here is exact: a
decimal is rounded once, to the nearest double and on a tie to the even mantissa, and the decimal
shown for a double is the shortest one that is read as this double.
-/

namespace ModulePins

inductive Double where
  | nan
  | infinite (negative : Bool)
  | finite (negative : Bool) (mantissa : Nat) (exponent : Int)
  deriving DecidableEq, Repr, Inhabited

namespace Double

def leastExponent : Int := -1074

def greatestExponent : Int := 971

def zero (negative : Bool) : Double :=
  finite negative 0 leastExponent

def scaled (num den : Nat) (exponent : Int) : Nat × Nat :=
  if 0 ≤ exponent then (num, den * Nat.pow 2 exponent.toNat)
  else (num * Nat.pow 2 (-exponent).toNat, den)

/-- The nearest natural number to `num / den`; a tie goes to the even neighbour. -/
def roundEven (num den : Nat) : Nat :=
  let low := num / den
  let twice := 2 * (num % den)
  if twice < den then low
  else if den < twice then low + 1
  else low + low % 2

/-- The least exponent from `exponent` on, within `steps`, that leaves a mantissa of 53 bits. -/
def fitExponent (num den : Nat) : Nat → Int → Int
  | 0, exponent => exponent
  | steps + 1, exponent =>
    let (n, d) := scaled num den exponent
    if n / d < Nat.pow 2 53 then exponent else fitExponent num den steps (exponent + 1)

/-- The double nearest to `num / den`, for a positive denominator. -/
def ofRatio (negative : Bool) (num den : Nat) : Double :=
  if num = 0 then zero negative
  else
    let start := (Nat.log2 num : Int) - Nat.log2 den - 53
    let exponent := fitExponent num den 4 (max leastExponent start)
    let (n, d) := scaled num den exponent
    let mantissa := roundEven n d
    let (mantissa, exponent) :=
      if mantissa = Nat.pow 2 53 then (Nat.pow 2 52, exponent + 1) else (mantissa, exponent)
    if greatestExponent < exponent then infinite negative else finite negative mantissa exponent

def ofDecimal (negative : Bool) (digits : Nat) (power : Int) : Double :=
  let magnitude := power + (Nat.toDigits 10 digits).length
  if digits = 0 then zero negative
  else if 400 < magnitude then infinite negative
  else if magnitude < -400 then zero negative
  else if 0 ≤ power then ofRatio negative (digits * Nat.pow 10 power.toNat) 1
  else ofRatio negative digits (Nat.pow 10 (-power).toNat)

def isZero : Double → Bool
  | finite _ mantissa _ => mantissa == 0
  | _ => false

/-- The integer a double stands for, if its value is one. -/
def toInt? : Double → Option Int
  | finite negative mantissa exponent =>
    let signed (n : Nat) : Int := if negative then -n else n
    if 0 ≤ exponent then some (signed (mantissa * Nat.pow 2 exponent.toNat))
    else
      let unit := Nat.pow 2 (-exponent).toNat
      if mantissa % unit = 0 then some (signed (mantissa / unit)) else none
  | _ => none

/-- The value of a finite double as numerator and denominator. -/
def toRatio? : Double → Option (Int × Nat)
  | finite negative mantissa exponent =>
    let (n, d) := scaled mantissa 1 (-exponent)
    some (if negative then -n else n, d)
  | _ => none

/-- Equality of values: both zeros are equal, and a NaN equals nothing. -/
def sameValue : Double → Double → Bool
  | nan, _ => false
  | _, nan => false
  | x, y => x == y || (x.isZero && y.isZero)

/-- The least power of ten above `num / den`, searched upwards from `power` within `steps`. -/
def powerAbove (num den : Nat) : Nat → Int → Int
  | 0, power => power
  | steps + 1, power =>
    let below :=
      if 0 ≤ power then num < den * Nat.pow 10 power.toNat
      else num * Nat.pow 10 (-power).toNat < den
    if below then power else powerAbove num den steps (power + 1)

/-- `num / den` in units of `10 ^ power`, with both sides as natural numbers. -/
def inUnits (num den : Nat) (power : Int) : Nat × Nat :=
  if 0 ≤ power then (num, den * Nat.pow 10 power.toNat)
  else (num * Nat.pow 10 (-power).toNat, den)

/-- The neighbours of `num / den` on the grid of whole numbers, the nearer one first. -/
def neighbours (num den : Nat) : List Nat :=
  let low := num / den
  let twice := 2 * (num % den)
  if twice < den || (twice == den && low % 2 == 0) then [low, low + 1] else [low + 1, low]

/-- Searches the grids of `count`, `count + 1`, … digits for a decimal that is read as the double
`target`, whose value is `num / den` and lies below `10 ^ top`. -/
def searchDigits (target : Double) (num den : Nat) (top : Int) : Nat → Nat → Nat × Int
  | 0, count => ((inUnits num den (top - count)).1, top - count)
  | fuel + 1, count =>
    let power := top - count
    let (n, d) := inUnits num den power
    match (neighbours n d).find? fun digits => ofDecimal false digits power == target with
    | some digits => (digits, power)
    | none => searchDigits target num den top fuel (count + 1)

/-- The shortest decimal `(digits, power)` that is read as the positive double
`mantissa * 2 ^ exponent`, the nearest one of that length. -/
def shortest (mantissa : Nat) (exponent : Int) : Nat × Int :=
  let (num, den) := scaled mantissa 1 (-exponent)
  let estimate := ((Nat.log2 num : Int) - Nat.log2 den) * 30103 / 100000 - 1
  searchDigits (finite false mantissa exponent) num den (powerAbove num den 5 estimate) 17 1

/-- How a decimal is laid out: positional when the point falls within `leastPoint … mostPoint`
digits of the first digit, and otherwise with an exponent of at least two digits. -/
def layout (digits : List Char) (point : Int) : List Char :=
  if -4 < point && point ≤ 16 then
    if point ≤ 0 then '0' :: '.' :: (List.replicate (-point).toNat '0' ++ digits)
    else if digits.length ≤ point.toNat then
      digits ++ List.replicate (point.toNat - digits.length) '0' ++ ['.', '0']
    else digits.take point.toNat ++ '.' :: digits.drop point.toNat
  else
    let exponent := point - 1
    let size := Nat.toDigits 10 exponent.natAbs
    let size := List.replicate (2 - size.length) '0' ++ size
    let body :=
      match digits with
      | [d] => [d]
      | d :: rest => d :: '.' :: rest
      | [] => []
    body ++ 'e' :: (if exponent < 0 then '-' else '+') :: size

/-- The text of a double: the shortest decimal that is read back as it. -/
def text : Double → String
  | nan => "nan"
  | infinite negative => if negative then "-inf" else "inf"
  | finite negative mantissa exponent =>
    let body :=
      if mantissa = 0 then ['0', '.', '0']
      else
        let (digits, power) := shortest mantissa exponent
        let written := Nat.toDigits 10 digits
        let kept := (written.reverse.dropWhile (· == '0')).reverse
        layout kept (power + written.length)
    String.ofList (if negative then '-' :: body else body)

end Double

end ModulePins
