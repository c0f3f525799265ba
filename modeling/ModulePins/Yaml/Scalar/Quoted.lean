import ModulePins.Yaml.Cursor
import ModulePins.Yaml.Fault

/-!
# Quoted scalars

Between single quotes only the quote itself is special, and stands for itself when doubled. Between
double quotes a backslash begins an escape. In both, blanks around a line end are dropped and the
line end is folded.
-/

namespace ModulePins.Yaml.Quoted

def escape? (c : Char) : Option Char :=
  match c with
  | '0' => some (Char.ofNat 0x00)
  | 'a' => some (Char.ofNat 0x07)
  | 'b' => some (Char.ofNat 0x08)
  | 't' => some '\t'
  | '\t' => some '\t'
  | 'n' => some '\n'
  | 'v' => some (Char.ofNat 0x0B)
  | 'f' => some (Char.ofNat 0x0C)
  | 'r' => some '\r'
  | 'e' => some (Char.ofNat 0x1B)
  | ' ' => some ' '
  | '"' => some '"'
  | '/' => some '/'
  | '\\' => some '\\'
  | 'N' => some (Char.ofNat 0x85)
  | '_' => some (Char.ofNat 0xA0)
  | 'L' => some (Char.ofNat 0x2028)
  | 'P' => some (Char.ofNat 0x2029)
  | _ => none

/-- How many hexadecimal digits follow a letter after a backslash. -/
def escapeWidth? (c : Char) : Option Nat :=
  match c with
  | 'x' => some 2
  | 'u' => some 4
  | 'U' => some 8
  | _ => none

def hexValue? (c : Char) : Option Nat :=
  if c.isDigit then some (c.toNat - 0x30)
  else if 'a' ≤ c && c ≤ 'f' then some (c.toNat - 0x57)
  else if 'A' ≤ c && c ≤ 'F' then some (c.toNat - 0x37)
  else none

def hexNumber? (digits : List Char) : Option Nat :=
  digits.foldlM (fun n c => (hexValue? c).map (16 * n + ·)) 0

/-- The character of a code point; half a surrogate pair is a replacement character. -/
def ofCodePoint (n : Nat) : Except Fault Char :=
  if 0x7FFFFFFF < n then .error (.overflow "Python int too large to convert to C int")
  else if 0x10FFFF < n then .error (.badValue "chr() arg not in range(0x110000)")
  else .ok (if 0xD800 ≤ n && n < 0xE000 then Char.ofNat 0xFFFD else Char.ofNat n)

/-- The breaks of the empty lines that come next. A document boundary is out of place here. -/
def emptyLines (breaks : List Char) : Nat → Cursor → Except Fault (List Char × Cursor)
  | 0, _ => .error .malformed
  | fuel + 1, cur =>
    if (documentMark? cur.rest).isSome then .error .malformed
    else
      let cur := cur.skip isSpaceOrTab
      match cur.break? with
      | some (c, cur) => emptyLines (breaks ++ [c]) fuel cur
      | none => .ok (breaks, cur)

/-- What a run of blanks reads as: itself, or a folded line end. -/
def gap (cur : Cursor) : Except Fault (List Char × Cursor) :=
  let (blanks, cur) := cur.span isSpaceOrTab
  match cur.break? with
  | none => .ok (blanks, cur)
  | some (c, cur) => do
    let (breaks, cur) ← emptyLines [] (cur.rest.length + 1) cur
    return (folded c breaks, cur)

def escape (cur : Cursor) : Except Fault (List Char × Cursor) :=
  match cur.next.head? with
  | none => .error .malformed
  | some letter =>
    match escape? letter, escapeWidth? letter, cur.next.break? with
    | some c, _, _ => .ok ([c], cur.advance 2)
    | none, some width, _ =>
      let digits := (cur.rest.drop 2).take width
      match hexNumber? digits with
      | some n =>
        if digits.length = width then do
          let c ← ofCodePoint n
          return ([c], cur.advance (2 + width))
        else .error .malformed
      | none => .error .malformed
    | none, none, some (_, cur) => emptyLines [] (cur.rest.length + 1) cur
    | none, none, none => .error .malformed

/-- Reads up to the closing quote, with the characters read so far in reverse. -/
def readFrom (double : Bool) (read : List Char) : Nat → Cursor → Except Fault (List Char × Cursor)
  | 0, _ => .error .malformed
  | fuel + 1, cur =>
    match cur.rest with
    | [] => .error .malformed
    | c :: rest =>
      if isSpaceOrTab c || isBreak c then do
        let (chars, cur) ← gap cur
        readFrom double (chars.reverse ++ read) fuel cur
      else if double then
        if c == '"' then .ok (read.reverse, cur.next)
        else if c == '\\' then do
          let (chars, cur) ← escape cur
          readFrom double (chars.reverse ++ read) fuel cur
        else readFrom double (c :: read) fuel cur.next
      else if c == '\x27' then
        if rest.head? == some '\x27' then readFrom double (c :: read) fuel (cur.advance 2)
        else .ok (read.reverse, cur.next)
      else readFrom double (c :: read) fuel cur.next

def read (cur : Cursor) : Except Fault (List Char × Cursor) :=
  readFrom (cur.head? == some '"') [] (cur.rest.length + 1) cur.next

end ModulePins.Yaml.Quoted
