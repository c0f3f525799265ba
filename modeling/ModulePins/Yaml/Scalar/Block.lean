import ModulePins.Yaml.Cursor
import ModulePins.Yaml.Fault

/-!
# Block scalars

A block scalar is the indented lines after its header, literally or with its lines folded. The
header says how the line ends at the end are kept and may give the indentation, which is otherwise
that of the first line.
-/

namespace ModulePins.Yaml.Block

/-- What becomes of the line ends at the end of a block. -/
inductive Ending where
  | strip
  | clip
  | keep
  deriving DecidableEq, Repr

structure Header where
  ending : Ending := .clip
  indentation : Option Nat := none
  deriving Repr

def ending? (cur : Cursor) : Option Ending :=
  match cur.head? with
  | some '+' => some .keep
  | some '-' => some .strip
  | _ => none

/-- The indentation a header gives, from one to nine columns. -/
def indentation? (cur : Cursor) : Option Nat :=
  match cur.head? with
  | some c => if c.isDigit then some (c.toNat - 0x30) else none
  | none => none

/-- Reads a header, with its two marks in either order, and the rest of its line. -/
def readHeader (cur : Cursor) : Except Fault (Header × Cursor) :=
  let first := ending? cur
  let cur := if first.isSome then cur.next else cur
  let indentation := indentation? cur
  let cur := if indentation.isSome then cur.next else cur
  let second := if first.isSome then none else ending? cur
  let cur := if second.isSome then cur.next else cur
  if indentation == some 0 || !overOr isSpaceOrBreak cur.rest then .error .malformed
  else
    let cur := (cur.skip (· == ' ')).skipComment
    if overOr isBreak cur.rest then
      .ok ({ ending := (first.or second).getD .clip, indentation },
        (cur.break?.map Prod.snd).getD cur)
    else .error .malformed

/-- The breaks of the empty lines at the top of a block, and the columns of the deepest one among
them and the first line. No line may be deeper than the first when that one is empty but
indented. -/
def leadingLines (breaks : List Char) (first : Option Nat) (deepest : Nat) :
    Nat → Cursor → Except Fault (List Char × Nat × Cursor)
  | 0, _ => .error .malformed
  | fuel + 1, cur =>
    let cur := cur.skip (· == ' ')
    let deepest := max deepest cur.column
    match cur.break? with
    | some (c, after) => leadingLines (breaks ++ [c]) (first.or (some cur.column)) deepest fuel after
    | none =>
      if first.any fun first => 0 < first && first < deepest then .error .malformed
      else .ok (breaks, deepest, cur)

def skipIndentation (indent : Nat) (cur : Cursor) : Cursor :=
  cur.advance ((cur.rest.takeWhile (· == ' ')).length.min (indent - cur.column))

/-- The breaks of the empty lines that come next inside a block. -/
def emptyLines (indent : Nat) (breaks : List Char) : Nat → Cursor → List Char × Cursor
  | 0, cur => (breaks, cur)
  | fuel + 1, cur =>
    let cur := skipIndentation indent cur
    match cur.break? with
    | some (c, cur) => emptyLines indent (breaks ++ [c]) fuel cur
    | none => (breaks, cur)

/-- The lines of a block, the break after the last of them, and the breaks of the empty lines
behind. -/
structure Lines where
  text : List Char
  last : List Char
  trailing : List Char
  after : Cursor

def atLine (indent : Nat) (cur : Cursor) : Bool :=
  cur.column == indent && !cur.rest.isEmpty

def joint (folds : Bool) (flush : Bool) (last breaks : List Char) (cur : Cursor) : List Char :=
  if folds && last == ['\n'] && flush && !overOr isSpaceOrTab cur.rest then
    if breaks.isEmpty then [' '] else []
  else last

/-- Reads the lines of a block, at the first of them. A block outside all collections ends at a
document boundary. -/
def readLines (folds outermost : Bool) (indent : Nat) (text breaks : List Char) :
    Nat → Cursor → Lines
  | 0, cur => { text, last := [], trailing := breaks, after := cur }
  | fuel + 1, cur =>
    let flush := !overOr isSpaceOrTab cur.rest
    let (line, cur) := cur.span (!isLineEnd ·)
    let text := text ++ breaks ++ line
    let (last, cur) := match cur.break? with
      | some (c, cur) => ([c], cur)
      | none => ([], cur)
    let (breaks, cur) := emptyLines indent [] (cur.rest.length + 1) cur
    if atLine indent cur && !(outermost && cur.boundary?.isSome) then
      readLines folds outermost indent (text ++ joint folds flush last breaks cur) breaks fuel cur
    else { text, last, trailing := breaks, after := cur }

/-- Reads a block scalar, at its mark. `parent` is the column of the collection around it. -/
def read (parent : Option Nat) (cur : Cursor) : Except Fault (List Char × Cursor) := do
  let folds := cur.head? == some '>'
  let (header, cur) ← readHeader cur.next
  let least := match parent with
    | some column => column + 1
    | none => 0
  let (breaks, indent, cur) ← match header.indentation with
    | none => do
      let (breaks, deepest, cur) ← leadingLines [] none 0 (cur.rest.length + 1) cur
      pure (breaks, max least deepest, cur)
    | some columns =>
      let indent := max least 1 + columns - 1
      let (breaks, cur) := emptyLines indent [] (cur.rest.length + 1) cur
      pure (breaks, indent, cur)
  let outermost := parent.isNone && header.indentation.isNone
  let lines :=
    if atLine indent cur then readLines folds outermost indent [] breaks (cur.rest.length + 1) cur
    else { text := [], last := [], trailing := breaks, after := cur }
  let ending := match header.ending with
    | .strip => []
    | .clip => lines.last
    | .keep => lines.last ++ lines.trailing
  return (lines.text ++ ending, lines.after)

end ModulePins.Yaml.Block
