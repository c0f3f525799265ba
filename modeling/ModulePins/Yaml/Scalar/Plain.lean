import ModulePins.Yaml.Cursor

/-!
# Plain scalars

A plain scalar has no quotes and ends where the context says: at a colon that ends a word, at a
comment, inside brackets at a bracket or comma, and otherwise at a line that is not indented far
enough. Its lines are folded.
-/

namespace ModulePins.Yaml.Plain

/-- The next word and the colons and marks inside it. Between brackets of version 1.1 a question
mark ends a word. -/
def word (inFlow older : Bool) : List Char → List Char
  | [] => []
  | c :: rest =>
    if c == ':' then if wordOver rest then [] else c :: word inFlow older rest
    else if isSpaceOrTab c || isLineEnd c then []
    else if inFlow && (isFlowMark c || (older && c == '?')) then []
    else c :: word inFlow older rest

/-- The breaks of the empty lines that come next, and the place after the indentation that follows;
nothing at a document boundary. -/
def emptyLines (breaks : List Char) : Nat → Cursor → Option (List Char) × Cursor
  | 0, cur => (some breaks, cur)
  | fuel + 1, cur =>
    let cur := cur.skip (· == ' ')
    match cur.break? with
    | none => (some breaks, cur)
    | some (c, cur) =>
      if (documentMark? cur.rest).isSome then (none, cur)
      else emptyLines (breaks ++ [c]) fuel cur

structure Gap where
  /-- What the gap reads as; nothing if the scalar cannot go on. -/
  text : List Char
  crossesLine : Bool
  after : Cursor

def gap (cur : Cursor) : Gap :=
  let (blanks, cur) := cur.span (· == ' ')
  match cur.break? with
  | none => { text := blanks, crossesLine := false, after := cur }
  | some (c, cur) =>
    if (documentMark? cur.rest).isSome then { text := [], crossesLine := true, after := cur }
    else
      match emptyLines [] (cur.rest.length + 1) cur with
      | (none, cur) => { text := [], crossesLine := true, after := cur }
      | (some breaks, cur) => { text := folded c breaks, crossesLine := true, after := cur }

/-- A plain scalar, the place after it and the blanks behind it, and whether those end a line. -/
structure Result where
  text : List Char
  endsLine : Bool
  after : Cursor

/-- Reads words while the scalar goes on. `before` is the text read and the gap after it. -/
def readFrom (inFlow older : Bool) (indent : Nat) (text gapText : List Char) (endsLine : Bool) :
    Nat → Cursor → Result
  | 0, cur => { text, endsLine, after := cur }
  | fuel + 1, cur =>
    let part := word inFlow older cur.rest
    if part.isEmpty then { text, endsLine, after := cur }
    else
      let text := text ++ gapText ++ part
      let g := gap (cur.advance part.length)
      if g.text.isEmpty || g.after.head? == some '#' || (!inFlow && g.after.column < indent) then
        { text, endsLine := g.crossesLine, after := g.after }
      else readFrom inFlow older indent text g.text g.crossesLine fuel g.after

/-- Reads a plain scalar whose further lines are indented by `indent` columns outside brackets. -/
def read (inFlow older : Bool) (indent : Nat) (cur : Cursor) : Result :=
  readFrom inFlow older indent [] [] false (cur.rest.length + 1) cur

end ModulePins.Yaml.Plain
