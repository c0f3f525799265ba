import ModulePins.Text.Digit
import ModulePins.Yaml.Timestamp
import ModulePins.Yaml.Token

/-!
# Tags

A tag names the kind of a node. A plain scalar without a tag has the kind that its text looks like:
null, a truth value, a number, a timestamp, one of two special keys, or otherwise text.
-/

namespace ModulePins.Yaml

inductive Tag where
  | null
  | bool
  | int
  | float
  | binary
  | timestamp
  | orderedMapping
  | pairs
  | set
  | text
  | sequence
  | mapping
  | mergeKey
  | defaultKey
  | other (address : String)
  deriving DecidableEq, Repr, Inhabited

namespace Tag

/-- The address under which the common tags are found. -/
def commonAddress : String := "tag:yaml.org,2002:"

def commonNames : List (String × Tag) :=
  [("null", null), ("bool", bool), ("int", int), ("float", float), ("binary", binary),
    ("timestamp", timestamp), ("omap", orderedMapping), ("pairs", pairs), ("set", set),
    ("str", text), ("seq", sequence), ("map", mapping), ("merge", mergeKey), ("value", defaultKey)]

def ofAddress (address : String) : Tag :=
  ((commonNames.find? fun (name, _) => commonAddress ++ name == address).map Prod.snd).getD
    (.other address)

/-- Words for the truth values in the current version. -/
def boolWords : List String :=
  ["true", "True", "TRUE", "false", "False", "FALSE"]

/-- Further words for the truth values in version 1.1. -/
def olderBoolWords : List String :=
  ["y", "Y", "yes", "Yes", "YES", "n", "N", "no", "No", "NO", "on", "On", "ON", "off", "Off", "OFF"]

def nullWords : List String :=
  ["", "~", "null", "Null", "NULL"]

def isDigitOrLow (c : Char) : Bool :=
  c.isDigit || c == '_'

/-- A run of characters of a class that is not empty and ends the text. -/
def isRun (p : Char → Bool) (cs : List Char) : Bool :=
  !cs.isEmpty && cs.all p

def isOctal (c : Char) : Bool :=
  c == '_' || ('0' ≤ c && c ≤ '7')

def isHexadecimal (c : Char) : Bool :=
  isDigitOrLow c || ('a' ≤ c && c ≤ 'f') || ('A' ≤ c && c ≤ 'F')

def dropSign (cs : List Char) : List Char :=
  match cs with
  | '-' :: rest => rest
  | '+' :: rest => rest
  | cs => cs

/-- One or two digits below sixty after every colon, at least once. -/
def isSixties (allowPoint : Bool) : Nat → List Char → Bool
  | 0, _ => false
  | fuel + 1, cs =>
    match cs with
    | ':' :: rest =>
      let digits := rest.takeWhile Char.isDigit
      let rest := rest.drop digits.length
      let good := digits.length = 1 || (digits.length = 2 && digits.head?.any (· ≤ '5'))
      good && ((!allowPoint && rest.isEmpty) || isSixties allowPoint fuel rest ||
        (allowPoint && rest.head? == some '.' && (rest.drop 1).all isDigitOrLow))
    | _ => false

def looksWhole (older : Bool) (cs : List Char) : Bool :=
  let body := dropSign cs
  let radix := match body with
    | '0' :: 'b' :: rest => isRun (fun c => c == '0' || c == '1' || c == '_') rest
    | '0' :: 'x' :: rest => isRun isHexadecimal rest
    | '0' :: 'o' :: rest => !older && isRun isOctal rest
    | _ => false
  let starts := cs.head?.any fun c => c.isDigit || c == '-' || c == '+'
  let row := if older then isRun isOctal body || startsWithOne body else isRun isDigitOrLow body
  starts && (radix || row)
where
  startsWithOne (body : List Char) : Bool :=
    match body with
    | [] => false
    | c :: rest =>
      '1' ≤ c && c ≤ '9' &&
        (rest.all isDigitOrLow || isSixties false rest.length (rest.dropWhile isDigitOrLow))

/-- An exponent with its digits; the sign may be required. -/
def isExponent (needsSign : Bool) (cs : List Char) : Bool :=
  match cs with
  | mark :: rest =>
    let digits := dropSign rest
    (mark == 'e' || mark == 'E') && isRun Char.isDigit digits &&
      (!needsSign || digits.length < rest.length)
  | [] => false

/-- Whether a text looks like a number with a fraction or an exponent, or a number beyond all. -/
def looksFractional (older : Bool) (cs : List Char) : Bool :=
  let body := dropSign cs
  let whole := body.takeWhile isDigitOrLow
  let rest := body.drop whole.length
  if [".inf", ".Inf", ".INF"].contains (String.ofList body) then true
  else if [".nan", ".NaN", ".NAN"].contains (String.ofList cs) then true
  else if whole.head?.any Char.isDigit then
    match rest with
    | '.' :: rest =>
      let rest := rest.dropWhile isDigitOrLow
      rest.isEmpty || isExponent false rest
    | rest => isExponent false rest || (older && isSixties true rest.length rest)
  else if whole.isEmpty && !(older && body.length < cs.length) then
    match rest with
    | '.' :: rest =>
      let places := rest.takeWhile isDigitOrLow
      let rest := rest.drop places.length
      !places.isEmpty && (rest.isEmpty || isExponent true rest)
    | _ => false
  else false

/-- The tag of a plain scalar in versions 1.1 and 1.2; no other version says. -/
def ofPlain (version : Version) (s : String) : Except Fault Tag :=
  let older := version.isOlder
  let cs := s.toList
  if !older && version != {} then .error (.unknownVersion version.major version.minor)
  else if boolWords.contains s || (older && olderBoolWords.contains s) then .ok .bool
  else if looksFractional older cs then .ok .float
  else if looksWhole older cs then .ok .int
  else if s == "<<" then .ok .mergeKey
  else if nullWords.contains s then .ok .null
  else if (Timestamp.read? cs).any Timestamp.isImplicit then .ok .timestamp
  else if s == "=" then .ok .defaultKey
  else .ok .text

end Tag

end ModulePins.Yaml
