import ModulePins.SemVer.Range
import ModulePins.SemVer.Reader
import ModulePins.Text.Quoted

/-!
# Constraints

A constraint is a range together with the text it was read from. Groups are separated by `||`. A
group is a row of comparators, or two ends around a dash that stands between spaces. Commas count as
blanks, blanks between an operator and its version are ignored, and so is the `v` before a version.

Reading fails in two ways: the text is not a range, or one end of a dash range is not a version.
-/

namespace ModulePins

inductive RangeFault where
  | notARange
  | brokenEnd
  deriving DecidableEq, Repr

namespace Comparator

open SemVer

/-- The operator at the head of a comparator; none written means equality. -/
def splitOperator : List Char → Operator × List Char
  | '<' :: '=' :: rest => (.le, rest)
  | '<' :: rest => (.lt, rest)
  | '>' :: '=' :: rest => (.ge, rest)
  | '>' :: rest => (.gt, rest)
  | '=' :: rest => (.eq, rest)
  | '^' :: rest => (.caret, rest)
  | '~' :: rest => (.tilde, rest)
  | rest => (.eq, rest)

/-- One number as written: a wildcard, or digits without leading zeros. -/
inductive Part where
  | wildcard
  | digits (ds : List Char)
  deriving DecidableEq, Repr

def splitPart? (cs : List Char) : Option (Part × List Char) :=
  match cs with
  | [] => none
  | c :: rest =>
    if c == 'x' || c == 'X' || c == '*' then some (.wildcard, rest)
    else if c == '0' then some (.digits ['0'], rest)
    else if c.isDigit then some (.digits (cs.takeWhile Char.isDigit), cs.dropWhile Char.isDigit)
    else none

/-- A dot and the number after it. `none` means a dot without a number. -/
def splitNext? (cs : List Char) : Option (Option Part × List Char) :=
  match cs with
  | '.' :: rest => (splitPart? rest).map fun (part, rest) => (some part, rest)
  | _ => some (none, cs)

def isLabelChar (c : Char) : Bool :=
  c.isAlphanum || c == '.' || c == '-'

/-- A label introduced by `mark`. -/
def splitLabel (mark : Char) (cs : List Char) : List Char × List Char :=
  match cs with
  | c :: rest =>
    if c == mark then (rest.takeWhile isLabelChar, rest.dropWhile isLabelChar) else ([], cs)
  | [] => ([], [])

structure Written where
  operator : Operator
  major : Part
  minor : Option Part
  patch : Option Part
  prerelease : List Char
  build : List Char
  deriving DecidableEq, Repr

/-- Cuts a comparator into its pieces; fails if the text has another shape. -/
def written? (cs : List Char) : Option Written := do
  let cs := if cs.head? == some 'v' then cs.drop 1 else cs
  let (operator, cs) := splitOperator cs
  let (major, cs) ← splitPart? cs
  let (minor, cs) ← splitNext? cs
  let (patch, cs) ← if minor.isNone then some (none, cs) else splitNext? cs
  let (prerelease, cs) := splitLabel '-' cs
  let (build, cs) := splitLabel '+' cs
  if cs.isEmpty then some { operator, major, minor, patch, prerelease, build } else none

/-- The number of a part, `none` for a wildcard; fails on numbers that are too long. -/
def partValue? : Option Part → Option (Option Nat)
  | some (.digits ds) => (number? ds).map some
  | _ => some none

/-- The comparator that the pieces mean. A build only counts after `=`; a version with a wildcard
has neither pre-release nor build, and a wildcard alone goes with `=` and `>=` only. -/
def ofWritten? (w : Written) : Option Comparator := do
  let build := if w.operator = .eq then w.build else []
  let labelled := !w.prerelease.isEmpty || !build.isEmpty
  let major ← partValue? (some w.major)
  let minor ← partValue? w.minor
  let patch ← partValue? w.patch
  match major, minor, patch with
  | none, _, _ =>
    if labelled || (w.operator ≠ .eq && w.operator ≠ .ge) then none else some ⟨.ge, .any⟩
  | some major, none, _ => if labelled then none else some ⟨w.operator, .majorLine major⟩
  | some major, some minor, none =>
    if labelled then none else some ⟨w.operator, .minorLine major minor⟩
  | some major, some minor, some patch =>
    let prerelease ← prerelease? w.prerelease
    let build ← build? build
    return ⟨w.operator, .full { major, minor, patch, prerelease, build }⟩

end Comparator

namespace Group

open SemVer Text

/-- Splits at every dash that stands between spaces. -/
def splitDash : List Char → List (List Char)
  | ' ' :: '-' :: ' ' :: rest => [] :: splitDash rest
  | c :: rest =>
    match splitDash rest with
    | piece :: pieces => (c :: piece) :: pieces
    | [] => [[c]]
  | [] => [[]]

/-- One end of a dash range, with the operator it stands for. -/
def readEnd (operator : List Char) (cs : List Char) : Except RangeFault Comparator :=
  match Comparator.written? (operator ++ cs) with
  | none => .error .brokenEnd
  | some written =>
    match Comparator.ofWritten? written with
    | none => .error .notARange
    | some comparator => .ok comparator

def readComparator (cs : List Char) : Except RangeFault Comparator :=
  match (Comparator.written? cs).bind Comparator.ofWritten? with
  | none => .error .notARange
  | some comparator => .ok comparator

/-- Reads one group; the empty group admits every release. -/
def read (cs : List Char) : Except RangeFault Group :=
  if cs.isEmpty then .ok everything
  else
    match splitDash cs with
    | [low, high] => do
      let low ← readEnd ['>', '='] low
      let high ← readEnd ['<', '='] high
      return ⟨[low, high]⟩
    | [_] => do
      let comparators ← (splitAt ' ' cs).mapM readComparator
      return ⟨comparators⟩
    | _ => .error .notARange

end Group

namespace Range

open SemVer Text

/-- Splits at every pair of bars. -/
def splitBars : List Char → List (List Char)
  | '|' :: '|' :: rest => [] :: splitBars rest
  | c :: rest =>
    match splitBars rest with
    | piece :: pieces => (c :: piece) :: pieces
    | [] => [[c]]
  | [] => [[]]

/-- Whether blanks that follow `before` separate an operator from its version. -/
def endsOperator (before : Option Char) : Bool :=
  before.any fun c => c == '<' || c == '>' || c == '=' || c == '^' || c == '~'

/-- Whether a version starts here, with or without its mark. -/
def startsVersion : List Char → Bool
  | c :: rest => isDecimal c || (isV c && rest.head?.any isDecimal)
  | [] => false

/-- Drops the blanks between an operator and its version. -/
def dropGaps (before : Option Char) : List Char → List Char
  | [] => []
  | c :: rest =>
    if isBlank c && endsOperator before && startsVersion (rest.dropWhile isBlank) then
      dropGaps before rest
    else c :: dropGaps (some c) rest

/-- The expression in its plain form: commas, gaps, marks and spare blanks are gone. -/
def normalize (cs : List Char) : List Char :=
  let spaced := cs.map fun c => if c == ',' then ' ' else c
  [' '].intercalate (words (dropMarks none (dropGaps none spaced)))

def readExpression (cs : List Char) : Except RangeFault Range := do
  let groups ← (splitBars cs).mapM fun group => Group.read (trim group)
  return ⟨groups⟩

/-- Reads a range from text that is not blank. -/
def read (cs : List Char) : Except RangeFault Range :=
  readExpression (normalize cs)

end Range

/-- A range and the text it was read from. -/
structure Constraint where
  text : String
  range : Range
  deriving DecidableEq, Repr

namespace Constraint

open Text

/-- Reads a constraint; blank text is none. -/
def read (text : String) : Except RangeFault Constraint :=
  if text.toList.all isBlank then .error .notARange
  else do
    let range ← Range.read text.toList
    return ⟨text, range⟩

def faultMessage (text : String) : String :=
  if text.toList.all isBlank then "improper constraint: empty string"
  else "improper constraint: " ++ trimmed text

def admits (c : Constraint) (v : SemVer) : Bool :=
  c.range.admits v

/-- Whether the version written as `text` is admitted; text that is no version never is. -/
def admitsText (c : Constraint) (text : String) : Bool :=
  (SemVer.read? text).any c.admits

/-- The constraint as diagnostics show it. -/
def label (c : Constraint) : String :=
  "Constraint(" ++ quote c.text ++ ")"

end Constraint

/-- Whether a text is a constraint; a broken dash range is neither a constraint nor a name. -/
def isConstraint (text : String) : Except RangeFault Bool :=
  match Constraint.read text with
  | .ok _ => .ok true
  | .error .notARange => .ok false
  | .error .brokenEnd => .error .brokenEnd

end ModulePins
