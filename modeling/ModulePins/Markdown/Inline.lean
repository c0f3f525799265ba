import ModulePins.Text.Blank

/-!
# The text of a Markdown paragraph

Marks of emphasis, code and links leave only their text. A row of marks opens a span if a word
follows it and closes one if a word stands before it; marks that find no partner stand for
themselves. The end of a line is a space, or a line feed if two spaces or a backslash stand there.
-/

namespace ModulePins.Markdown

def backquote : Char := Char.ofNat 0x60

def isPunctuation (c : Char) : Bool :=
  0x20 < c.toNat && c.toNat < 0x7F && !c.isAlphanum

/-- A row of marks of emphasis. A mark is one character, or two for a strike. -/
structure MarkRow where
  char : Char
  size : Nat
  /-- The marks written. -/
  length : Nat
  /-- The marks that have no partner yet. -/
  left : Nat
  opens : Bool
  closes : Bool
  deriving DecidableEq, Repr

inductive Piece where
  | text (cs : List Char)
  | marks (row : MarkRow)
  deriving DecidableEq, Repr

namespace MarkRow

/-- The row of `count` characters between two others. -/
def ofRow (char : Char) (count : Nat) (before after : Char) : MarkRow :=
  let leads := !Text.isBlank after &&
    (!isPunctuation after || Text.isBlank before || isPunctuation before)
  let trails := !Text.isBlank before &&
    (!isPunctuation before || Text.isBlank after || isPunctuation after)
  let size := if char == '~' then 2 else 1
  { char, size, length := count / size, left := count / size
    opens := if char == '_' then leads && (!trails || isPunctuation before) else leads
    closes := if char == '_' then trails && (!leads || isPunctuation after) else trails }

/-- The marks without a partner, as text. -/
def unpaired (row : MarkRow) : List Char :=
  List.replicate (row.size * row.left) row.char

/-- Whether the marks of two rows may be partners. Where a row might both open and close, the sum
of two lengths must not be a multiple of three, unless both are. -/
def fits (opener closer : MarkRow) : Bool :=
  opener.opens && opener.char == closer.char &&
    (opener.char == '~' || !(opener.closes || closer.opens) ||
      (opener.length + closer.length) % 3 != 0 ||
      (opener.length % 3 == 0 && closer.length % 3 == 0))

end MarkRow

namespace Piece

def chars : Piece → List Char
  | .text cs => cs
  | .marks row => row.unpaired

end Piece

/-- The nearest row that `closer` may close, the text since that row, and the pieces before it. The
pieces come last one first. -/
def opener? (closer : MarkRow) (inside : List Char) :
    List Piece → Option (MarkRow × List Char × List Piece)
  | [] => none
  | .text cs :: rest => opener? closer (cs ++ inside) rest
  | .marks row :: rest =>
    if row.fits closer then some (row, inside, rest)
    else opener? closer (row.unpaired ++ inside) rest

/-- Closes as many spans as a row with `left` marks can, and gives the marks that remain. -/
def closeSpans (closer : MarkRow) : (left : Nat) → List Piece → Nat × List Piece
  | 0, pieces => (0, pieces)
  | left + 1, pieces =>
    match opener? closer [] pieces with
    | none => (left + 1, pieces)
    | some (row, inside, rest) =>
      let rest := if row.left ≤ 1 then rest else .marks { row with left := row.left - 1 } :: rest
      closeSpans closer left (.text inside :: rest)

def addPiece (pieces : List Piece) : Piece → List Piece
  | .text cs => .text cs :: pieces
  | .marks row =>
    let (left, pieces) := if row.closes then closeSpans row row.left pieces else (row.left, pieces)
    let row := { row with left }
    if left = 0 then pieces
    else if row.opens then .marks row :: pieces
    else .text row.unpaired :: pieces

def textOf (pieces : List Piece) : List Char :=
  (pieces.foldl addPiece []).reverse.flatMap Piece.chars

def skipSpaces (cs : List Char) : List Char :=
  cs.dropWhile fun c => c == ' ' || c == '\t'

/-- The text up to a row of exactly `count` backquotes, and what follows it. -/
def codeSpan? (count : Nat) (inside : List Char) : List Char → Option (List Char × List Char)
  | [] => none
  | c :: rest =>
    if c == backquote && inside.head? != some backquote &&
        (rest.takeWhile (· == backquote)).length + 1 == count then
      some (inside.reverse, rest.dropWhile (· == backquote))
    else codeSpan? count (c :: inside) rest

/-- The text of a code span: ends of lines are spaces, and one space at each end is left out. -/
def codeText (cs : List Char) : List Char :=
  let cs := cs.map fun c => if c == '\n' then ' ' else c
  if cs.length > 2 && cs.head? == some ' ' && cs.getLast? == some ' ' && cs.any (· != ' ') then
    (cs.drop 1).dropLast
  else cs

def link? (cs : List Char) : Option (List Char × List Char) :=
  let label := cs.takeWhile fun c => c != '[' && c != ']'
  match cs.drop label.length with
  | ']' :: '(' :: rest =>
    let address := rest.takeWhile fun c => c != ')' && c != '\n'
    match rest.drop address.length with
    | ')' :: rest => some (label, rest)
    | _ => none
  | _ => none

def address? (cs : List Char) : Option (List Char × List Char) :=
  let scheme := cs.takeWhile Char.isAlpha
  let address := cs.takeWhile fun c => c != '>' && c != '<' && !Text.isBlank c
  match cs.drop scheme.length, cs.drop address.length with
  | ':' :: _, '>' :: rest => if scheme.length ≥ 2 then some (address, rest) else none
  | _, _ => none

/-- What stands at the head of a text: pieces, or the label of a link. -/
inductive Head where
  | pieces (ps : List Piece)
  | label (cs : List Char)
  deriving Repr

/-- What a row of backquotes or of marks of emphasis begins. -/
def splitRow (before c : Char) (rest : List Char) : Head × Char × List Char :=
  let row := c :: rest.takeWhile (· == c)
  let afterRow := rest.dropWhile (· == c)
  if c == backquote then
    match codeSpan? row.length [] afterRow with
    | some (inside, rest) => (.pieces [.text (codeText inside)], c, rest)
    | none => (.pieces [.text row], c, afterRow)
  else
    let marks := Piece.marks (.ofRow c row.length before (afterRow.headD ' '))
    if c == '~' then (.pieces [.text (row.take (row.length % 2)), marks], c, afterRow)
    else (.pieces [marks], c, afterRow)

/-- What stands at the head of a text whose lines end in line feeds, the character that comes before
the rest, and the rest. -/
def splitHead (before c : Char) (rest : List Char) : Head × Char × List Char :=
  let plain := (.pieces [.text [c]], c, rest)
  if c == ' ' || c == '\n' then
    let spaces := (c :: rest).takeWhile (· == ' ')
    match (c :: rest).drop spaces.length with
    | '\n' :: rest =>
      (.pieces [.text [if spaces.length ≥ 2 then '\n' else ' ']], ' ', skipSpaces rest)
    | _ => plain
  else if c == '\\' then
    match rest with
    | '\n' :: rest => (.pieces [.text ['\n']], ' ', skipSpaces rest)
    | d :: rest => if isPunctuation d then (.pieces [.text [d]], d, rest) else plain
    | [] => plain
  else if c == '[' then
    match link? rest with
    | some (label, rest) => (.label label, ')', rest)
    | none => plain
  else if c == '<' then
    match address? rest with
    | some (address, rest) => (.pieces [.text address], '>', rest)
    | none => plain
  else if c == backquote || c == '*' || c == '_' || c == '~' then splitRow before c rest
  else plain

/-- The pieces of a text, in at most `fuel` steps. -/
def pieces : (fuel : Nat) → (before : Char) → List Char → List Piece
  | 0, _, _ => []
  | _ + 1, _, [] => []
  | fuel + 1, before, c :: rest =>
    match splitHead before c rest with
    | (.pieces ps, last, rest) => ps ++ pieces fuel last rest
    | (.label cs, last, rest) => .text (textOf (pieces fuel ' ' cs)) :: pieces fuel last rest

/-- The text that a paragraph leaves on a terminal. -/
def inlineText (cs : List Char) : List Char :=
  textOf (pieces (cs.length + 1) ' ' cs)

end ModulePins.Markdown
