import ModulePins.SemVer.Basic
import ModulePins.Text.Blank
import ModulePins.Text.Digit

/-!
# Reading versions leniently

Surrounding blanks and one leading `v` are dropped, one or two numbers stand for a triple, leading
zeros are ignored, a fourth number counts as build, and characters that no version may hold become
dashes. What is left must then be well formed: no identifier is empty, a numeric pre-release
identifier has no leading zero, and no number has more than `Text.maxDigits` digits.
-/

namespace ModulePins.SemVer

open Text

/-- Letters and digits of ASCII: they glue a following `v` to a word. -/
def isWordChar (c : Char) : Bool :=
  c.isAlphanum

def isV (c : Char) : Bool :=
  c == 'v' || c == 'V'

/-- Whether a `v` stands at the head of `cs` as the mark of a version: `before` does not glue it to
a word, and a digit follows. -/
def startsMark (before : Option Char) (cs : List Char) : Bool :=
  match cs with
  | c :: d :: _ => isV c && isDecimal d && !before.any isWordChar
  | _ => false

/-- Drops the first version mark, wherever it stands. -/
def dropFirstMark (before : Option Char) : List Char → List Char
  | [] => []
  | c :: rest =>
    if startsMark before (c :: rest) then rest else c :: dropFirstMark (some c) rest

def dropMarks (before : Option Char) : List Char → List Char
  | [] => []
  | c :: rest =>
    if startsMark before (c :: rest) then dropMarks (some c) rest
    else c :: dropMarks (some c) rest

/-- The value of a row of digits that is not too long. -/
def number? (digits : List Char) : Option Nat :=
  if digits.length ≤ maxDigits then some (digitsValue digits) else none

/-- The value of a component: leading zeros do not count. -/
def component? (digits : List Char) : Option Nat :=
  number? (digits.dropWhile (· == '0'))

/-- Splits at a separator; there is always at least one piece. -/
def splitAt (sep : Char) : List Char → List (List Char)
  | [] => [[]]
  | c :: rest =>
    if c == sep then [] :: splitAt sep rest
    else
      match splitAt sep rest with
      | piece :: pieces => (c :: piece) :: pieces
      | [] => [[c]]

def identifier? (cs : List Char) : Option Identifier :=
  if cs.isEmpty then none
  else if cs.all Char.isDigit then
    if cs.head? == some '0' && cs.length != 1 then none
    else (number? cs).map .numeric
  else some (.word (String.ofList cs))

/-- A build identifier: leading zeros are kept, but a number must not be too long. -/
def buildIdentifier? (cs : List Char) : Option String :=
  if cs.isEmpty || (cs.all Char.isDigit && maxDigits < cs.length) then none
  else some (String.ofList cs)

/-- The dot-separated pre-release identifiers; the empty text has none. -/
def prerelease? (cs : List Char) : Option (List Identifier) :=
  if cs.isEmpty then some [] else (splitAt '.' cs).mapM identifier?

def build? (cs : List Char) : Option (List String) :=
  if cs.isEmpty then some [] else (splitAt '.' cs).mapM buildIdentifier?

/-- A dot and the digits after it, if digits follow. -/
def nextComponent (cs : List Char) : List Char × List Char :=
  match cs with
  | '.' :: rest =>
    if (rest.takeWhile isDecimal).isEmpty then ([], cs)
    else (rest.takeWhile isDecimal, rest.dropWhile isDecimal)
  | _ => ([], cs)

def isSuffixChar (c : Char) : Bool :=
  c.isAlphanum || c == '+' || c == '.' || c == '-'

/-- Splits at the first plus sign; the sign itself is dropped. -/
def splitPlus (cs : List Char) : List Char × List Char :=
  (cs.takeWhile (· != '+'), (cs.dropWhile (· != '+')).drop 1)

/-- Divides what follows the triple into pre-release and build. -/
def splitSuffix (suffix : List Char) : List Char × List Char :=
  match suffix with
  | '+' :: rest => ([], rest)
  | '.' :: rest => ([], rest)
  | '-' :: rest => splitPlus rest
  | _ => splitPlus suffix

/-- Reads a version from text without surrounding blanks and version mark. -/
def readBare? (cs : List Char) : Option SemVer := do
  let major := cs.takeWhile isDecimal
  if major.isEmpty then none
  let (minor, rest) := nextComponent (cs.dropWhile isDecimal)
  let (patch, rest) := if minor.isEmpty then ([], rest) else nextComponent rest
  let suffix := rest.map fun c => if isSuffixChar c then c else '-'
  let (pre, build) := splitSuffix suffix
  let major ← component? major
  let minor ← component? minor
  let patch ← component? patch
  let prerelease ← prerelease? pre
  let build ← build? (build.map fun c => if c == '+' then '.' else c)
  return { major, minor, patch, prerelease, build }

/-- Reads a version leniently. -/
def readChars? (cs : List Char) : Option SemVer :=
  readBare? (dropFirstMark none (trim cs))

def read? (text : String) : Option SemVer :=
  readChars? text.toList

end ModulePins.SemVer
