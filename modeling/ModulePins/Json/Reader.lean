import ModulePins.Json.Fault
import ModulePins.Text.Digit
import ModulePins.Value

/-!
# Reading JSON

A reader takes the characters that are left and gives a value with the characters after it. When it
stops it says how many characters were left, which the entry point turns into a place. Of two
entries with one key the later value counts. Half a surrogate pair is read as a replacement
character.
-/

namespace ModulePins.Json

/-- Why reading stopped, with the number of characters left at that point. -/
inductive Stop where
  | flaw (what : Flaw) (left : Nat)
  | longNumber (digits : Nat)
  | tooDeep (overflow : Overflow)
  deriving DecidableEq, Repr

def isSpace (c : Char) : Bool :=
  c == ' ' || c == '\t' || c == '\n' || c == '\r'

def skipSpace (cs : List Char) : List Char :=
  cs.dropWhile isSpace

def hexValue? (c : Char) : Option Nat :=
  if c.isDigit then some (c.toNat - 0x30)
  else if 'a' ≤ c && c ≤ 'f' then some (c.toNat - 0x57)
  else if 'A' ≤ c && c ≤ 'F' then some (c.toNat - 0x37)
  else none

def codeUnit? (a b c d : Char) : Option Nat := do
  let a ← hexValue? a
  let b ← hexValue? b
  let c ← hexValue? c
  let d ← hexValue? d
  return ((a * 16 + b) * 16 + c) * 16 + d

/-- The character that a letter stands for after a backslash. -/
def shortEscape? (c : Char) : Option Char :=
  if c == '"' || c == '\\' || c == '/' then some c
  else if c == 'b' then some (Char.ofNat 0x08)
  else if c == 'f' then some (Char.ofNat 0x0C)
  else if c == 'n' then some '\n'
  else if c == 'r' then some '\r'
  else if c == 't' then some '\t'
  else none

def isHighHalf (unit : Nat) : Bool :=
  0xD800 ≤ unit && unit < 0xDC00

def isLowHalf (unit : Nat) : Bool :=
  0xDC00 ≤ unit && unit < 0xE000

def ofUnit (unit : Nat) : Char :=
  if isHighHalf unit || isLowHalf unit then Char.ofNat 0xFFFD else Char.ofNat unit

def ofPair (high low : Nat) : Char :=
  Char.ofNat (0x10000 + (high - 0xD800) * 0x400 + (low - 0xDC00))

/-- What follows a backslash and a `u`: the character, and how many characters spell it. The text
must go on after the digits. -/
def readUnit (cs : List Char) : Except Stop (Char × Nat) :=
  match cs with
  | a :: b :: c :: d :: next :: rest =>
    match codeUnit? a b c d with
    | none => .error (.flaw .badCodeUnit (cs.length + 1))
    | some unit =>
      if isHighHalf unit then
        match next :: rest with
        | '\\' :: 'u' :: e :: f :: g :: h :: _ :: _ =>
          match codeUnit? e f g h with
          | none => .error (.flaw .badCodeUnit (cs.length - 5))
          | some low => .ok (if isLowHalf low then (ofPair unit low, 10) else (ofUnit unit, 4))
        | _ => .ok (ofUnit unit, 4)
      else .ok (ofUnit unit, 4)
  | _ => .error (.flaw .badCodeUnit (cs.length + 1))

/-- Reads a string after its opening quote, with the characters read so far in reverse. `opened` is
the number of characters left at the quote, `skip` the number of characters already accounted
for. -/
def readString (opened : Nat) (read : List Char) (skip : Nat) :
    List Char → Except Stop (List Char × List Char)
  | [] => .error (.flaw .openString opened)
  | c :: rest =>
    match skip with
    | skip + 1 => readString opened read skip rest
    | 0 =>
      if c == '"' then .ok (read.reverse, rest)
      else if c == '\\' then
        match rest with
        | [] => .error (.flaw .openString opened)
        | 'u' :: digits => do
          let (char, width) ← readUnit digits
          readString opened (char :: read) (width + 1) rest
        | letter :: _ =>
          match shortEscape? letter with
          | some char => readString opened (char :: read) 1 rest
          | none => .error (.flaw .badEscape (rest.length + 1))
      else if c.toNat < 0x20 then .error (.flaw .controlCharacter (rest.length + 1))
      else readString opened (c :: read) 0 rest

/-- A point and the digits after it; without digits there is no fraction. -/
def splitFraction (cs : List Char) : List Char × List Char :=
  match cs with
  | '.' :: rest =>
    let digits := rest.takeWhile Char.isDigit
    if digits.isEmpty then ([], cs) else (digits, rest.dropWhile Char.isDigit)
  | _ => ([], cs)

/-- An exponent and its sign; without digits there is no exponent. -/
def splitExponent (cs : List Char) : Option Int × List Char :=
  match cs with
  | mark :: rest =>
    if mark == 'e' || mark == 'E' then
      let negative := rest.head? == some '-'
      let signed := negative || rest.head? == some '+'
      let rest := if signed then rest.drop 1 else rest
      let digits := rest.takeWhile Char.isDigit
      if digits.isEmpty then (none, cs)
      else
        let size : Int := Text.digitsValue digits
        (some (if negative then -size else size), rest.dropWhile Char.isDigit)
    else (none, cs)
  | [] => (none, cs)

/-- The digits of a whole number: a zero stands alone. -/
def splitWhole (cs : List Char) : List Char × List Char :=
  match cs with
  | '0' :: rest => (['0'], rest)
  | _ => (cs.takeWhile Char.isDigit, cs.dropWhile Char.isDigit)

/-- Reads a number; `left` is the number of characters left at its start. -/
def readNumber (left : Nat) (negative : Bool) (cs : List Char) :
    Except Stop (Value × List Char) :=
  let (whole, rest) := splitWhole cs
  if whole.isEmpty then .error (.flaw .noValue left)
  else
    let (fraction, rest) := splitFraction rest
    let (exponent, rest) := splitExponent rest
    if fraction.isEmpty && exponent.isNone then
      if Text.maxDigits < whole.length then .error (.longNumber whole.length)
      else
        let size : Int := Text.digitsValue whole
        .ok (.int (if negative then -size else size), rest)
    else
      let power := exponent.getD 0 - fraction.length
      .ok (.float (.ofDecimal negative (Text.digitsValue (whole ++ fraction)) power), rest)

def dropWord? (word : String) (cs : List Char) : Option (List Char) :=
  if word.toList.isPrefixOf cs then some (cs.drop word.length) else none

/-- Reads a value that is neither a string nor bracketed. -/
def readWord (cs : List Char) : Except Stop (Value × List Char) :=
  match dropWord? "null" cs, dropWord? "true" cs, dropWord? "false" cs with
  | some rest, _, _ => .ok (.null, rest)
  | _, some rest, _ => .ok (.bool true, rest)
  | _, _, some rest => .ok (.bool false, rest)
  | none, none, none =>
    match dropWord? "NaN" cs, dropWord? "Infinity" cs, dropWord? "-Infinity" cs with
    | some rest, _, _ => .ok (.float .nan, rest)
    | _, some rest, _ => .ok (.float (.infinite false), rest)
    | _, _, some rest => .ok (.float (.infinite true), rest)
    | none, none, none =>
      match cs with
      | '-' :: rest => readNumber cs.length true rest
      | _ => readNumber cs.length false cs

abbrev ValueReader := List Char → Except Stop (Value × List Char)

/-- Reads the items of a list, at the first of them, with `items` read so far in reverse. -/
def readItems (readItem : ValueReader) (items : List Value) :
    Nat → List Char → Except Stop (Value × List Char)
  | 0, cs => .error (.flaw .noValue cs.length)
  | fuel + 1, cs => do
    let (item, rest) ← readItem cs
    match skipSpace rest with
    | ']' :: rest => return (.list (item :: items).reverse, rest)
    | ',' :: rest => readItems readItem (item :: items) fuel (skipSpace rest)
    | rest => .error (.flaw .noComma rest.length)

/-- Reads the entries of a mapping, at the name of the first of them. -/
def readEntries (readItem : ValueReader) (entries : List (Value × Value)) :
    Nat → List Char → Except Stop (Value × List Char)
  | 0, cs => .error (.flaw .noName cs.length)
  | fuel + 1, cs =>
    match cs with
    | '"' :: rest => do
      let (name, rest) ← readString cs.length [] 0 rest
      match skipSpace rest with
      | ':' :: rest => do
        let (value, rest) ← readItem (skipSpace rest)
        let entries := Value.setKey entries (.text (String.ofList name)) value
        match skipSpace rest with
        | '}' :: rest => return (.mapping entries, rest)
        | ',' :: rest => readEntries readItem entries fuel (skipSpace rest)
        | rest => .error (.flaw .noComma rest.length)
      | rest => .error (.flaw .noColon rest.length)
    | _ => .error (.flaw .noName cs.length)

/-- Reads one value, with at most `depth` further brackets around its parts. -/
def readValue (depth : Nat) : ValueReader := fun cs =>
  match cs with
  | '"' :: rest => do
    let (chars, rest) ← readString cs.length [] 0 rest
    return (.text (String.ofList chars), rest)
  | '[' :: rest =>
    match depth with
    | 0 => .error (.tooDeep .readingList)
    | depth + 1 =>
      match skipSpace rest with
      | ']' :: rest => .ok (.list [], rest)
      | rest => readItems (readValue depth) [] (rest.length + 1) rest
  | '{' :: rest =>
    match depth with
    | 0 => .error (.tooDeep .readingMapping)
    | depth + 1 =>
      match skipSpace rest with
      | '}' :: rest => .ok (.mapping [], rest)
      | rest => readEntries (readValue depth) [] (rest.length + 1) rest
  | _ => readWord cs

def Stop.fault (cs : List Char) : Stop → Fault
  | flaw what left => .malformed what (.after (cs.take (cs.length - left)))
  | longNumber digits => .longNumber digits
  | tooDeep overflow => .tooDeep overflow

/-- Reads a whole text: one value, with nothing but white space around it. -/
def readDocument (depth : Nat) (cs : List Char) : Except Fault Value :=
  match readValue depth (skipSpace cs) with
  | .error stop => .error (stop.fault cs)
  | .ok (value, rest) =>
    match skipSpace rest with
    | [] => .ok value
    | rest => .error ((Stop.flaw .extraData rest.length).fault cs)

/-- Reads a text that has been decoded already, where a byte order mark is out of place. -/
def readText (depth : Nat) (cs : List Char) : Except Fault Value :=
  if cs.head? == some (Char.ofNat 0xFEFF) then .error (.malformed .byteOrderMark (.after []))
  else readDocument depth cs

def read (text : String) (depth : Nat := Nesting.limit) : Except Fault Value :=
  readText depth text.toList

end ModulePins.Json
