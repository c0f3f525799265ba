import ModulePins.Yaml.Character

/-!
# Places in a YAML text

A cursor holds the characters that are left and says where they start. Lines and columns count from
zero; a carriage return and a line feed together end one line, and a byte order mark takes no
column.
-/

namespace ModulePins.Yaml

structure Cursor where
  rest : List Char
  index : Nat := 0
  line : Nat := 0
  column : Nat := 0
  deriving Repr, Inhabited

namespace Cursor

def next (cur : Cursor) : Cursor :=
  match cur.rest with
  | [] => cur
  | c :: rest =>
    if isBreak c && !(c == '\r' && rest.head? == some '\n') then
      { rest, index := cur.index + 1, line := cur.line + 1, column := 0 }
    else
      { rest, index := cur.index + 1, line := cur.line
        column := if isByteOrderMark c then cur.column else cur.column + 1 }

def advance : Nat → Cursor → Cursor
  | 0, cur => cur
  | n + 1, cur => advance n cur.next

def head? (cur : Cursor) : Option Char :=
  cur.rest.head?

/-- The characters of a class that come next, and the place after them. -/
def span (p : Char → Bool) (cur : Cursor) : List Char × Cursor :=
  let taken := cur.rest.takeWhile p
  (taken, cur.advance taken.length)

def skip (p : Char → Bool) (cur : Cursor) : Cursor :=
  (cur.span p).2

/-- The break at this place as it reads: every end of a line is a line feed, and a separator stands
for itself. -/
def break? (cur : Cursor) : Option (Char × Cursor) :=
  match cur.rest with
  | '\r' :: '\n' :: _ => some ('\n', cur.advance 2)
  | c :: _ =>
    if isLineEnd c then some ('\n', cur.next)
    else if isSeparator c then some (c, cur.next)
    else none
  | [] => none

def skipComment (cur : Cursor) : Cursor :=
  if cur.head? == some '#' then cur.skip (!isLineEnd ·) else cur

/-- The mark of a document boundary at this place, if it is the first of its line. -/
def boundary? (cur : Cursor) : Option Char :=
  if cur.column = 0 then documentMark? cur.rest else none

theorem rest_next (cur : Cursor) : cur.next.rest = cur.rest.tail := by
  unfold next
  split
  · simp_all
  · split <;> simp_all

theorem rest_advance (n : Nat) (cur : Cursor) : (cur.advance n).rest = cur.rest.drop n := by
  induction n generalizing cur with
  | zero => simp [advance]
  | succ n ih => simp [advance, ih, rest_next, List.drop_tail]

end Cursor

/-- How breaks read inside a scalar whose lines are folded: a single line feed is a space, and more
breaks stand for themselves without the first line feed. -/
def folded (first : Char) (more : List Char) : List Char :=
  if first != '\n' then first :: more
  else if more.isEmpty then [' ']
  else more

end ModulePins.Yaml
