import ModulePins.SemVer.Reader
import ModulePins.Text.Blank
import ModulePins.Text.Digit
import ModulePins.Text.Line

/-!
# The blocks of a Markdown text

A text is a row of blocks: headings, paragraphs, rules, code, quotes and lists. Quotes and the items
of lists hold blocks themselves. A line without a mark goes on with the paragraph before it.
-/

namespace ModulePins.Markdown

inductive Block where
  | rule
  | heading (text : List Char)
  | code (lines : List (List Char))
  | paragraph (text : List Char)
  | quote (blocks : List Block)
  /-- A list whose items are marked by `mark`: a dot or a bracket after a number, or a bullet. -/
  | list (mark : Char) (first : Nat) (items : List (List Block))
  deriving Repr

/-- What a line begins, if it stands by itself. -/
inductive Line where
  | blank
  | indented (text : List Char)
  | fence (char : Char) (length : Nat)
  | rule
  | heading (text : List Char)
  | quoted (text : List Char)
  | item (mark : Char) (number : Nat) (offset : Nat) (text : List Char)
  | text (text : List Char)
  deriving DecidableEq, Repr

def indent (cs : List Char) : Nat :=
  (cs.takeWhile (· == ' ')).length

/-- The text of a heading, without a closing row of hashes. -/
def headingText (cs : List Char) : List Char :=
  let cs := Text.trim cs
  let opened := (cs.reverse.dropWhile (· == '#')).reverse
  if opened.isEmpty || opened.getLast?.any Text.isBlank then Text.trimEnd opened else cs

/-- A row of at least `least` times one of some characters, between spaces at most. -/
def isRow (chars : List Char) (least : Nat) (cs : List Char) : Bool :=
  let marks := cs.filter fun c => c != ' ' && c != '\t'
  marks.length ≥ least && chars.any fun c => marks.all (· == c)

/-- An item whose text follows `width` characters of indentation and mark. -/
def Line.ofItem (mark : Char) (number width : Nat) (rest : List Char) : Line :=
  let spaces := indent rest
  if (Text.trim rest).isEmpty then .item mark number (width + 1) []
  else if spaces > 4 then .item mark number (width + 1) (rest.drop 1)
  else .item mark number (width + spaces) (rest.drop spaces)

def item? (margin : Nat) (body : List Char) : Option Line :=
  let ends (rest : List Char) : Bool := rest.isEmpty || rest.head?.any Text.isBlank
  let digits := body.takeWhile Char.isDigit
  match digits, body.drop digits.length with
  | [], mark :: rest =>
    if ['*', '-', '+'].contains mark && ends rest then some (.ofItem mark 0 (margin + 1) rest)
    else none
  | digits, mark :: rest =>
    if ['.', ')'].contains mark && ends rest && digits.length ≤ 9 then
      some (.ofItem mark (Text.digitsValue digits) (margin + digits.length + 1) rest)
    else none
  | _, [] => none

def Line.read (cs : List Char) : Line :=
  let body := cs.drop (indent cs)
  let row := body.takeWhile (some · == body.head?)
  let after := body.drop row.length
  if (Text.trim cs).isEmpty then .blank
  else if indent cs ≥ 4 then .indented (cs.drop 4)
  else if isRow ['-', '*', '_'] 3 body then .rule
  else
    match body with
    | '#' :: _ =>
      if row.length ≤ 6 && (after.isEmpty || after.head?.any Text.isBlank) then
        .heading (headingText after)
      else .text body
    | '>' :: ' ' :: rest => .quoted rest
    | '>' :: rest => .quoted rest
    | c :: _ =>
      if row.length ≥ 3 && (c == '~' || c == Char.ofNat 0x60 && !after.contains c) then
        .fence c row.length
      else (item? (indent cs) body).getD (.text body)
    | [] => .blank

/-- Whether a line goes on with the paragraph before it: it has no mark, it is a list that may not
break a paragraph, or it is indented. -/
def Line.continues : Line → Bool
  | .text _ | .indented _ => true
  | .item mark number _ body => body.isEmpty || (mark == '.' || mark == ')') && number != 1
  | _ => false

/-- The lines of a paragraph that follow its first one, whether a row under them makes it a heading,
and the lines after it. -/
def takeParagraph : List (List Char) → List (List Char) × Bool × List (List Char)
  | [] => ([], false, [])
  | l :: rest =>
    let body := l.dropWhile (fun c => c == ' ' || c == '\t')
    if indent l < 4 && (isRow ['='] 1 l || isRow ['-'] 1 l) && !(Text.trimEnd body).contains ' ' then
      ([], true, rest)
    else if (Line.read l).continues then
      let (lines, isHeading, rest) := takeParagraph rest
      (body :: lines, isHeading, rest)
    else ([], false, l :: rest)

/-- The lines of an item: those indented to its text, blank ones, and those that go on with its
paragraph. -/
def takeItem (offset : Nat) (isOpen : Bool) :
    List (List Char) → List (List Char) × List (List Char)
  | [] => ([], [])
  | l :: rest =>
    let take (text : List Char) (isOpen : Bool) : List (List Char) × List (List Char) :=
      let (lines, rest) := takeItem offset isOpen rest
      (text :: lines, rest)
    match Line.read l with
    | .blank => take [] false
    | .text _ =>
      if indent l ≥ offset then take (l.drop offset) true
      else if isOpen then take l true
      else ([], l :: rest)
    | _ => if indent l ≥ offset then take (l.drop offset) true else ([], l :: rest)

/-- The lines of a quote without their marks. -/
def takeQuote : List (List Char) → List (List Char) × List (List Char)
  | [] => ([], [])
  | l :: rest =>
    match Line.read l with
    | .quoted text | .text text =>
      let (lines, rest) := takeQuote rest
      (text :: lines, rest)
    | _ => ([], l :: rest)

def takeIndented : List (List Char) → List (List Char) × List (List Char)
  | [] => ([], [])
  | l :: rest =>
    if indent l ≥ 4 || (Text.trim l).isEmpty then
      let (lines, rest) := takeIndented rest
      (l.drop 4 :: lines, rest)
    else ([], l :: rest)

/-- The lines up to a closing fence, and those after it. -/
def takeFenced (char : Char) (length : Nat) : List (List Char) → List (List Char) × List (List Char)
  | [] => ([], [])
  | l :: rest =>
    if indent l < 4 && isRow [char] length l then ([], rest)
    else
      let (lines, rest) := takeFenced char length rest
      (l :: lines, rest)

/-- Joins an item with the list that follows it, if its mark is the same. -/
def consItem (mark : Char) (first : Nat) (item : List Block) : List Block → List Block
  | .list other next items :: rest =>
    if mark == other then .list mark first (item :: items) :: rest
    else .list mark first [item] :: .list other next items :: rest
  | blocks => .list mark first [item] :: blocks

/-- The blocks of some lines, in at most `fuel` steps. -/
def blocksOf : (fuel : Nat) → List (List Char) → List Block
  | 0, _ => []
  | _ + 1, [] => []
  | fuel + 1, l :: rest =>
    match Line.read l with
    | .blank => blocksOf fuel rest
    | .rule => .rule :: blocksOf fuel rest
    | .heading text => .heading text :: blocksOf fuel rest
    | .indented text =>
      let (lines, rest) := takeIndented rest
      let lines := (text :: lines).reverse.dropWhile fun l => (Text.trim l).isEmpty
      .code lines.reverse :: blocksOf fuel rest
    | .fence char length =>
      let (lines, rest) := takeFenced char length rest
      .code lines :: blocksOf fuel rest
    | .quoted text =>
      let (lines, rest) := takeQuote rest
      .quote (blocksOf fuel (text :: lines)) :: blocksOf fuel rest
    | .item mark number offset text =>
      let (lines, rest) := takeItem offset true rest
      consItem mark number (blocksOf fuel (text :: lines)) (blocksOf fuel rest)
    | .text text =>
      let (lines, isHeading, rest) := takeParagraph rest
      let text := Text.trim (['\n'].intercalate (text :: lines))
      (if isHeading then .heading text else .paragraph text) :: blocksOf fuel rest

def blocks (cs : List Char) : List Block :=
  let cs := (Text.unifyLineEnds cs).map fun c => if c == '\x00' then Char.ofNat 0xFFFD else c
  blocksOf (cs.length + 2) (SemVer.splitAt '\n' cs)

end ModulePins.Markdown
