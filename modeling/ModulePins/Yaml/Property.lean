import ModulePins.Text.Utf8
import ModulePins.Yaml.Scalar.Quoted
import ModulePins.Yaml.Token

/-!
# Anchors, tags and directives

An anchor names a node and an alias repeats it. A tag says what kind of value a node stands for: by
a full address, or by a handle and a name. Directives before a document give the version and define
handles.
-/

namespace ModulePins.Yaml.Property

/-- Whether the character may follow the name of an anchor. -/
def endsName (c : Char) : Bool :=
  isSpaceOrTab c || isBreak c || isFlowMark c || "?:%@".toList.contains c || c.toNat == 0x60

def readName (cur : Cursor) : Except Fault (String × Cursor) :=
  let (name, cur) := cur.next.span isAnchorCharacter
  if name.isEmpty || !overOr endsName cur.rest then .error .malformed
  else .ok (String.ofList name, cur)

/-- Bytes written as percent signs and two digits each. -/
def escapedBytes : List Char → Option (List UInt8)
  | '%' :: a :: b :: rest => do
    let n ← Quoted.hexNumber? [a, b]
    let more ← escapedBytes rest
    return n.toUInt8 :: more
  | '%' :: _ => none
  | _ => some []

/-- Reads the characters of an address; percent signs spell bytes of UTF-8. The number sign belongs
to addresses from version 1.2 on. -/
def addressFrom (withNumberSign : Bool) (read : List Char) :
    Nat → Cursor → Except Fault (List Char × Cursor)
  | 0, _ => .error .malformed
  | fuel + 1, cur =>
    match cur.rest with
    | [] => .ok (read.reverse, cur)
    | c :: _ =>
      if c == '%' then
        match escapedBytes cur.rest with
        | none => .error .malformed
        | some bytes =>
          match Text.Utf8.decode bytes with
          | .error _ => .error .malformed
          | .ok chars =>
            addressFrom withNumberSign (chars.reverse ++ read) fuel (cur.advance (3 * bytes.length))
      else if isAddressCharacter c || (withNumberSign && c == '#') then
        addressFrom withNumberSign (c :: read) fuel cur.next
      else .ok (read.reverse, cur)

def readAddress (withNumberSign : Bool) (cur : Cursor) : Except Fault (String × Cursor) := do
  let start := cur.rest.length
  let (address, cur) ← addressFrom withNumberSign [] (start + 1) cur
  if cur.rest.length = start then .error .malformed
  else .ok (String.ofList address, cur)

/-- Reads a handle: an exclamation mark, alone or closing a word after a first one. -/
def readHandle (cur : Cursor) : Except Fault (String × Cursor) :=
  match cur.rest with
  | '!' :: ' ' :: _ => .ok ("!", cur.next)
  | '!' :: rest =>
    let word := rest.takeWhile isHandleCharacter
    if (rest.drop word.length).head? == some '!' then
      .ok (String.ofList ('!' :: word ++ ['!']), cur.advance (word.length + 2))
    else .error .malformed
  | _ => .error .malformed

/-- The part of a tag after its exclamation marks, which `short` holds: an address in angle
brackets, nothing, or a handle and a name. -/
def readTagBody (withNumberSign : Bool) (short : String) (cur : Cursor) :
    Except Fault (Token × Cursor) := do
  let body := cur.rest.drop 1
  if body.head? == some '<' then
    let (address, cur) ← readAddress withNumberSign (cur.advance 2)
    if cur.head? == some '>' then return (.tag none address, cur.next)
    else .error .malformed
  else if wordOver body then return (.tag none short, cur.next)
  else
    let word := body.takeWhile fun c => !isSpaceOrBreak c
    if word.contains '!' then
      let (handle, cur) ← readHandle cur
      let (name, cur) ← readAddress withNumberSign cur
      return (.tag (some handle) name, cur)
    else
      let (name, cur) ← readAddress withNumberSign cur.next
      return (.tag (some short) name, cur)

def readTag (withNumberSign : Bool) (cur : Cursor) : Except Fault (Token × Cursor) := do
  let (token, cur) ←
    if cur.next.head? == some '!' then readTagBody withNumberSign "!!" cur.next
    else readTagBody withNumberSign "!" cur
  if overOr isSpaceOrBreak cur.rest then return (token, cur)
  else .error .malformed

def readNumber (cur : Cursor) : Except Fault (Nat × Cursor) :=
  let (digits, cur) := cur.span Char.isDigit
  if digits.isEmpty then .error .malformed
  else .ok (digits.foldl (fun n c => 10 * n + (c.toNat - 0x30)) 0, cur)

def readVersion (cur : Cursor) : Except Fault (Token × Cursor) := do
  let (major, cur) ← readNumber (cur.skip (· == ' '))
  if cur.head? == some '.' then
    let (minor, cur) ← readNumber cur.next
    if overOr isSpaceOrBreak cur.rest then return (.version { major, minor }, cur)
    else .error .malformed
  else .error .malformed

def readTagHandle (withNumberSign : Bool) (cur : Cursor) : Except Fault (Token × Cursor) := do
  let (handle, cur) ← readHandle (cur.skip (· == ' '))
  if cur.head? == some ' ' then
    let (address, cur) ← readAddress withNumberSign (cur.skip (· == ' '))
    if overOr isSpaceOrBreak cur.rest then return (.tagHandle handle address, cur)
    else .error .malformed
  else .error .malformed

/-- Reads a directive, at its percent sign, up to the end of its line. Directives with unknown names
are passed over. -/
def readDirective (withNumberSign : Bool) (cur : Cursor) : Except Fault (Token × Cursor) := do
  let (name, cur) := cur.next.span fun c => isHandleCharacter c || c == ':' || c == '.'
  if name.isEmpty || !overOr isSpaceOrBreak cur.rest then .error .malformed
  else
    let (token, cur) ←
      if name == "YAML".toList then readVersion cur
      else if name == "TAG".toList then readTagHandle withNumberSign cur
      else pure (.directive, cur.skip (!isLineEnd ·))
    let cur := (cur.skip (· == ' ')).skipComment
    if overOr isBreak cur.rest then return (token, (cur.break?.map Prod.snd).getD cur)
    else .error .malformed

end ModulePins.Yaml.Property
