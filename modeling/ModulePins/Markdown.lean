import ModulePins.Markdown.Block
import ModulePins.Markdown.Inline
import ModulePins.Text.Width

/-!
# Plain Markdown

Release notes are shown on a terminal without colours. A paragraph becomes one line however long it
is. What stands in a list, a quote or code is cut or filled to the width of the terminal. Blocks are
parted by empty lines, but not within a list or quote.
-/

namespace ModulePins.Markdown

def width : Nat := 80

/-- Whether a character is shown: a bell, a step back and the like are not. -/
def isShown (c : Char) : Bool :=
  !(c == '\x07' || c == '\x08' || c == '\x0b' || c == '\x0c' || c == '\r')

/-- Fills each tabulator to the next multiple of eight cells; `column` cells come before. -/
def expandTabs (column : Nat) : List Char → List Char
  | [] => []
  | c :: rest =>
    if c == '\t' then
      let spaces := 8 - column % 8
      List.replicate spaces ' ' ++ expandTabs (column + spaces) rest
    else c :: expandTabs (column + Text.cells c) rest

def textLines (cs : List Char) : List (List Char) :=
  (SemVer.splitAt '\n' ((inlineText cs).filter isShown)).map (expandTabs 0)

/-- Code stands between two empty lines and two spaces. -/
def codeLines (width : Nat) (lines : List (List Char)) : List (List Char) :=
  let blank := List.replicate width ' '
  let body := lines.map fun l => ' ' :: Text.fit (width - 2) (l.filter isShown) ++ [' ']
  blank :: (if body.isEmpty then [blank] else body) ++ [blank]

/-- Puts a mark before the first line, and as much room before the others. -/
def hang (mark : List Char) : List (List Char) → List (List Char)
  | [] => []
  | l :: rest => (mark ++ l) :: rest.map (List.replicate mark.length ' ' ++ ·)

/-- The mark of an item. The numbers of a list take as much room as the number after the last. -/
def itemMark (mark : Char) (number next : Nat) : List Char :=
  if mark == '.' || mark == ')' then
    let digits := Nat.toDigits 10 number
    List.replicate ((Nat.toDigits 10 next).length + 1 - digits.length) ' ' ++ digits ++ [' ']
  else " • ".toList

mutual

def Block.lines (width : Nat) : Block → List (List Char)
  | .rule => [List.replicate width '-', []]
  | .heading text | .paragraph text => textLines text
  | .code lines => codeLines width lines
  | .quote blocks =>
    (blockLines (width - 4) blocks).map fun l => "▌ ".toList ++ Text.fit (width - 4) l
  | .list mark first items => itemLines width mark first (first + items.length) items

def blockLines (width : Nat) : List Block → List (List Char)
  | [] => []
  | b :: rest => b.lines width ++ blockLines width rest

def itemLines (width : Nat) (mark : Char) (number next : Nat) :
    List (List Block) → List (List Char)
  | [] => []
  | item :: rest =>
    let label := itemMark mark number next
    let room := width - label.length
    hang label ((blockLines room item).map (Text.fit room)) ++
      itemLines width mark (number + 1) next rest

end

/-- The lines of a whole text. An empty line comes before each block but the first and those after a
rule, and always before a list or quote. -/
def documentLines (gap : Bool) : List Block → List (List Char)
  | [] => []
  | b :: rest =>
    let (gap, gapAfter) :=
      match b with
      | .quote _ | .list .. => (true, true)
      | .rule => (gap, false)
      | _ => (gap, true)
    (if gap then [[]] else []) ++ b.lines width ++ documentLines gapAfter rest

def render (text : String) : String :=
  String.ofList ((documentLines false (blocks text.toList)).flatMap (· ++ ['\n']))

end ModulePins.Markdown
