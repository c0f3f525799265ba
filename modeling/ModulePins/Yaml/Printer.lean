import ModulePins.Yaml.Character
import ModulePins.Yaml.Tag

/-!
# Writing scalars

A text is written plain if it reads back as this text, between single quotes if it holds none and
its spaces and breaks allow it, and between double quotes otherwise. Lines are broken at single
spaces once they are longer than 80 columns, and a longer word gets a line of its own.
-/

namespace ModulePins.Yaml.Printer

def width : Nat := 80

/-- The breaks that may be written as they are. -/
def isInnerBreak (c : Char) : Bool :=
  c == '\n' || c.toNat == 0x85 || isSeparator c

def isSpecial (c : Char) : Bool :=
  let n := c.toNat
  !(c == '\n' || (0x20 ≤ n && n ≤ 0x7E) || n == 0x85 || (0xA0 ≤ n && n ≤ 0xFFFD && n != 0xFEFF) ||
    0x10000 ≤ n)

/-- Whether a word is over at this point, for the purpose of writing. -/
def blankNext : List Char → Bool
  | [] => true
  | c :: _ => isSpaceOrTab c || isBreak c || c.toNat == 0

/-- Whether a space and a break meet. -/
def spacesMeetBreaks : List Char → Bool
  | a :: b :: rest =>
    (a == ' ' && isInnerBreak b) || (isInnerBreak a && b == ' ') || spacesMeetBreaks (b :: rest)
  | _ => false

/-- Whether a mark inside a plain scalar would end it: a colon that ends a word, or a number sign
that starts one. `after` is the character before. -/
def hasInnerMarks (after : Char) : List Char → Bool
  | [] => false
  | c :: rest =>
    (c == ':' && blankNext rest) || (c == '#' && blankNext [after]) || hasInnerMarks c rest

/-- Whether a text starts or goes on like something other than a plain scalar. -/
def hasMarks (cs : List Char) : Bool :=
  match cs with
  | [] => false
  | c :: rest =>
    "---".toList.isPrefixOf cs || "...".toList.isPrefixOf cs ||
      "#,[]\x7b\x7d&*!|>\x27\"%@".toList.contains c || c.toNat == 0x60 ||
      ((c == '?' || c == ':' || c == '-') && blankNext rest) || hasInnerMarks c rest

/-- Whether a text keeps its spaces and characters outside quotes. -/
def fitsPlain (cs : List Char) : Bool :=
  cs.all (fun c => !isSpecial c && !isInnerBreak c) &&
    cs.head? != some ' ' && cs.getLast? != some ' ' && !hasMarks cs

/-- Whether a text may be written between single quotes. -/
def fitsSingle (cs : List Char) : Bool :=
  cs.all (!isSpecial ·) && !spacesMeetBreaks cs

inductive Style where
  | plain
  | single
  | double
  deriving DecidableEq, Repr

def readsAsText (s : String) : Bool :=
  match Tag.ofPlain {} s with
  | .ok tag => tag == .text
  | .error _ => false

def styleOf (s : String) : Style :=
  let cs := s.toList
  if readsAsText s && fitsPlain cs then .plain
  else if cs.contains '\x27' || cs.contains '\n' then .double
  else if fitsSingle cs then .single
  else .double

def newLine (indent : Nat) : List Char :=
  '\n' :: List.replicate indent ' '

/-- What a character is for the purpose of breaking lines. -/
inductive Kind where
  | space
  | break
  | word
  deriving DecidableEq, Repr

def kindOf (c : Char) : Kind :=
  if c == ' ' then .space else if isInnerBreak c then .break else .word

/-- The longest runs of characters of one kind. -/
def runs (cs : List Char) : List (List Char) :=
  cs.splitBy fun a b => kindOf a == kindOf b

/-- Writes the runs of a plain scalar from a column on. -/
def plainFrom (indent column : Nat) : List (List Char) → List Char
  | [] => []
  | run :: rest =>
    if run == [' '] && width < column then newLine indent ++ plainFrom indent indent rest
    else if run.head? != some ' ' && width < run.length && indent < column then
      newLine indent ++ run ++ plainFrom indent (indent + run.length) rest
    else run ++ plainFrom indent (column + run.length) rest

/-- Writes the runs of a scalar between single quotes from a column on. Only inner spaces are broken
at; `first` tells whether nothing was written before. -/
def singleFrom (indent column : Nat) (first : Bool) : List (List Char) → List Char
  | [] => ['\x27']
  | run :: rest =>
    if run.head?.any isInnerBreak then
      run ++ List.replicate indent ' ' ++ singleFrom indent indent false rest
    else if run == [' '] && width < column && !first && !rest.isEmpty then
      newLine indent ++ singleFrom indent indent false rest
    else run ++ singleFrom indent (column + run.length) false rest

def shortEscape? (c : Char) : Option Char :=
  match c.toNat with
  | 0x00 => some '0'
  | 0x07 => some 'a'
  | 0x08 => some 'b'
  | 0x09 => some 't'
  | 0x0A => some 'n'
  | 0x0B => some 'v'
  | 0x0C => some 'f'
  | 0x0D => some 'r'
  | 0x1B => some 'e'
  | 0x22 => some '"'
  | 0x5C => some '\\'
  | 0x85 => some 'N'
  | 0xA0 => some '_'
  | 0x2028 => some 'L'
  | 0x2029 => some 'P'
  | _ => none

def hexDigits (digits n : Nat) : List Char :=
  let hex := (Nat.toDigits 16 n).map Char.toUpper
  List.replicate (digits - hex.length) '0' ++ hex

def escape (c : Char) : List Char :=
  match shortEscape? c with
  | some letter => ['\\', letter]
  | none =>
    let n := c.toNat
    if n ≤ 0xFF then '\\' :: 'x' :: hexDigits 2 n
    else if n ≤ 0xFFFF then '\\' :: 'u' :: hexDigits 4 n
    else '\\' :: 'U' :: hexDigits 8 n

def isEscaped (c : Char) : Bool :=
  let n := c.toNat
  c == '"' || c == '\\' || n == 0xFEFF || isSeparator c ||
    !((0x20 ≤ n && n ≤ 0x7E) || (0xA0 ≤ n && n ≤ 0xFFFD))

/-- Whether a line may be broken before `c` without a backslash: a space comes later, no quote
before it, and no two spaces meet here. -/
def breaksQuietly (before c : Char) (rest : List Char) : Bool :=
  let word := (c :: rest).takeWhile (· != ' ')
  (c :: rest).contains ' ' && !word.contains '"' && !word.contains '\x27' &&
    rest.head? != some ' ' && !(before == ' ' && c == ' ')

/-- Writes a scalar between double quotes from a column on. `before` is the last character, unless
this is the first one; `run` counts the characters since the last escape or line. A space at which a
line is broken is dropped, or kept behind a backslash. -/
def doubleFrom (indent column run : Nat) (before : Option Char) : List Char → List Char
  | [] => ['"']
  | c :: rest =>
    let inner := before.isSome && !rest.isEmpty
    let quiet := breaksQuietly (before.getD c) c rest
    if isEscaped c then
      let written := escape c
      let column := column + written.length
      if inner && width + 1 < column then
        if quiet then
          match rest with
          | ' ' :: rest => written ++ newLine indent ++ doubleFrom indent indent 0 (some ' ') rest
          | rest => written ++ newLine indent ++ doubleFrom indent indent 0 (some c) rest
        else
          let mark := if rest.head? == some ' ' then ['\\'] else []
          written ++ '\\' :: newLine indent ++ mark ++
            doubleFrom indent (indent + mark.length) 0 (some c) rest
      else written ++ doubleFrom indent column 0 (some c) rest
    else if inner && (c == ' ' || run = 0) && width < column then
      if quiet then
        if c == ' ' then newLine indent ++ doubleFrom indent indent 0 (some c) rest
        else newLine indent ++ c :: doubleFrom indent (indent + 1) 1 (some c) rest
      else
        let mark := if c == ' ' then ['\\'] else []
        '\\' :: newLine indent ++ mark ++
          c :: doubleFrom indent (indent + mark.length + 1) 1 (some c) rest
    else c :: doubleFrom indent (column + 1) (run + 1) (some c) rest

/-- Writes a scalar behind a space, from a column on; further lines are indented. -/
def scalar (indent column : Nat) (s : String) : List Char :=
  let cs := s.toList
  match styleOf s with
  | .plain => ' ' :: plainFrom indent (column + 1) (runs cs)
  | .single => ' ' :: '\x27' :: singleFrom indent (column + 2) true (runs cs)
  | .double => ' ' :: '"' :: doubleFrom indent (column + 2) 0 none cs

end ModulePins.Yaml.Printer
