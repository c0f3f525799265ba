import ModulePins.Yaml.Property
import ModulePins.Yaml.Scalar.Block
import ModulePins.Yaml.Scalar.Plain

/-!
# From text to tokens

The scan goes over the text once. Indentation opens and closes block collections. Whether a node is
a key shows only at the colon behind it, so the place of every node that may be a key is kept until
then, and the key token is put there. A key and its colon stand on one line and within 1024
characters.
-/

namespace ModulePins.Yaml

/-- A node that may turn out to be a key. `number` counts the tokens before it. -/
structure PossibleKey where
  number : Nat
  index : Nat
  line : Nat
  column : Nat
  required : Bool
  deriving Repr

/-- An open flow collection and the possible key inside it. -/
structure FlowLevel where
  isSequence : Bool
  key : Option PossibleKey := none
  deriving Repr

/-- The state of a scan. `columns` are those of the open block collections and `flow` the open flow
collections, innermost first; `key` is the possible key outside all flow collections. -/
structure Scan where
  cursor : Cursor
  tokens : Array Token := #[]
  columns : List Nat := []
  flow : List FlowLevel := []
  key : Option PossibleKey := none
  mayStartKey : Bool := true
  version : Version := {}
  deriving Repr

namespace Scan

def longestKey : Nat := 1024

def inFlow (s : Scan) : Bool :=
  !s.flow.isEmpty

def emit (s : Scan) (token : Token) : Scan :=
  { s with tokens := s.tokens.push token }

def take (s : Scan) (n : Nat) (token : Token) : Scan :=
  { s.emit token with cursor := s.cursor.advance n }

def currentKey (s : Scan) : Option PossibleKey :=
  match s.flow with
  | [] => s.key
  | level :: _ => level.key

def setKey (s : Scan) (key : Option PossibleKey) : Scan :=
  match s.flow with
  | [] => { s with key }
  | level :: rest => { s with flow := { level with key } :: rest }

/-- Whether a colon at the cursor would come too late for a key. -/
def isStale (s : Scan) (key : PossibleKey) : Bool :=
  key.line != s.cursor.line || longestKey < s.cursor.index - key.index

/-- Gives up the keys whose colon would come too late. -/
def dropStale (s : Scan) : Except Fault Scan :=
  let fresh (key : Option PossibleKey) := key.filter fun key => !s.isStale key
  let all := s.key.toList ++ s.flow.filterMap FlowLevel.key
  if all.any fun key => key.required && s.isStale key then .error .malformed
  else .ok { s with
    key := fresh s.key
    flow := s.flow.map fun level => { level with key := fresh level.key } }

def dropKey (s : Scan) : Except Fault Scan :=
  if s.currentKey.any PossibleKey.required then .error .malformed else .ok (s.setKey none)

/-- Keeps the place of the next token, if a key may start here. A node at the column of the block
mapping around it has to be a key. -/
def saveKey (s : Scan) : Except Fault Scan :=
  if s.mayStartKey then do
    let required := !s.inFlow && s.columns.head? == some s.cursor.column
    let s ← s.dropKey
    return s.setKey (some {
      number := s.tokens.size
      index := s.cursor.index
      line := s.cursor.line
      column := s.cursor.column
      required })
  else .ok s

/-- Closes the block collections that are indented deeper than `column`. -/
def closeBlocks (column : Nat) (s : Scan) : Scan :=
  let closed := s.columns.takeWhile (column < ·)
  { s with
    columns := s.columns.drop closed.length
    tokens := s.tokens ++ closed.map fun _ => Token.blockEnd }

def closeAllBlocks (s : Scan) : Scan :=
  { s with columns := [], tokens := s.tokens ++ s.columns.map fun _ => Token.blockEnd }

def opensBlock (s : Scan) (column : Nat) : Bool :=
  match s.columns with
  | [] => true
  | current :: _ => current < column

/-- Opens a block collection at the cursor, unless it is open. -/
def openBlock (token : Token) (s : Scan) : Scan :=
  if s.opensBlock s.cursor.column then
    { s.emit token with columns := s.cursor.column :: s.columns }
  else s

/-- Skips blanks, comments and line ends. After a line end outside brackets a key may start. -/
def skipBlanks (s : Scan) : Nat → Scan
  | 0 => s
  | fuel + 1 =>
    let blank (c : Char) : Bool := c == ' ' || (s.inFlow && c == '\t')
    let cur := (s.cursor.skip blank).skipComment
    match cur.break? with
    | some (_, cur) =>
      skipBlanks { s with cursor := cur, mayStartKey := s.mayStartKey || !s.inFlow } fuel
    | none => { s with cursor := cur }

/-- Passes over a byte order mark at the head of the text. -/
def skipByteOrderMark (s : Scan) : Scan :=
  if s.cursor.index = 0 && s.cursor.head?.any isByteOrderMark then
    { s with cursor := s.cursor.next }
  else s

def readItem (s : Scan) : Except Fault Scan := do
  if !s.inFlow && !s.mayStartKey then .error .malformed
  else
    let s := if s.inFlow then s else s.openBlock .blockSequence
    let s ← s.dropKey
    return { s.take 1 .item with mayStartKey := true }

def readKey (s : Scan) : Except Fault Scan := do
  if !s.inFlow && !s.mayStartKey then .error .malformed
  else
    let s := if s.inFlow then s else s.openBlock .blockMapping
    let s ← s.dropKey
    return { s.take 1 .key with mayStartKey := !s.inFlow }

/-- Puts a key token before the node that has turned out to be a key, and opens its mapping. -/
def insertKey (key : PossibleKey) (s : Scan) : Scan :=
  let s := { s.setKey none with
    tokens := s.tokens.insertIdxIfInBounds key.number .key
    mayStartKey := false }
  if !s.inFlow && s.opensBlock key.column then
    { s with
      columns := key.column :: s.columns
      tokens := s.tokens.insertIdxIfInBounds key.number .blockMapping }
  else s

/-- The colon between a key and its value. -/
def readValueMark (s : Scan) : Except Fault Scan := do
  match s.currentKey with
  | some key => return (s.insertKey key).take 1 .value
  | none =>
    if !s.inFlow && !s.mayStartKey then .error .malformed
    else
      let s := if s.inFlow then s else s.openBlock .blockMapping
      let s ← s.dropKey
      return { s.take 1 .value with mayStartKey := !s.inFlow }

/-- Whether a question mark at the cursor marks a key. -/
def marksKey (s : Scan) : Bool :=
  s.inFlow || wordOver (s.cursor.rest.drop 1)

/-- Whether a colon at the cursor marks a value. Between square brackets it has to end a word;
between curly ones it has to right after another such colon. `keyPending` tells whether the tokens
since an earlier possible key are still held back. -/
def marksValue (s : Scan) (keyPending : Bool) : Bool :=
  let ended := wordOver (s.cursor.rest.drop 1)
  match s.flow with
  | [] => ended
  | level :: _ =>
    if s.version.isOlder then true
    else if level.isSequence then ended
    else if keyPending && s.tokens.back? == some .value then ended
    else true

def startsPlain (s : Scan) : Bool :=
  match s.cursor.rest with
  | [] => false
  | c :: rest =>
    if !(isIndicator c || isSpaceOrTab c || isBreak c) then true
    else if !s.version.isOlder && c == ':' && s.inFlow && !(rest.head?.any isSpaceOrTab) then true
    else !wordOver rest && (c == '-' || (!s.inFlow && (c == '?' || c == ':')))

/-- Writes a scalar that was read up to `after`. -/
def putScalar (s : Scan) (isPlain : Bool) (text : List Char) (after : Cursor) : Scan :=
  { s.emit (.scalar isPlain (String.ofList text)) with cursor := after }

def readQuoted (s : Scan) : Except Fault Scan := do
  let s ← s.saveKey
  let (text, after) ← Quoted.read s.cursor
  return { s.putScalar false text after with mayStartKey := false }

def readBlock (s : Scan) : Except Fault Scan := do
  let s ← s.dropKey
  let (text, after) ← Block.read s.columns.head? s.cursor
  return { s.putScalar false text after with mayStartKey := true }

def readPlain (s : Scan) : Except Fault Scan := do
  let s ← s.saveKey
  let indent := match s.columns with
    | [] => 0
    | column :: _ => column + 1
  let r := Plain.read s.inFlow s.version.isOlder indent s.cursor
  return { s.putScalar true r.text r.after with mayStartKey := r.endsLine }

/-- An anchor, alias or tag, which may begin a key. -/
def readProperty (read : Cursor → Except Fault (Token × Cursor)) (s : Scan) :
    Except Fault Scan := do
  let s ← s.saveKey
  let (token, after) ← read s.cursor
  return { s.emit token with cursor := after, mayStartKey := false }

def readName (token : String → Token) (s : Scan) : Except Fault Scan :=
  s.readProperty fun cur => do
    let (name, cur) ← Property.readName cur
    return (token name, cur)

def openFlow (isSequence : Bool) (s : Scan) : Except Fault Scan := do
  let s ← s.saveKey
  let s := s.take 1 (if isSequence then .flowSequence else .flowMapping)
  return { s with flow := { isSequence } :: s.flow, mayStartKey := true }

def closeFlow (token : Token) (s : Scan) : Except Fault Scan := do
  let s ← s.dropKey
  return { s.take 1 token with flow := s.flow.drop 1, mayStartKey := false }

def readComma (s : Scan) : Except Fault Scan := do
  let s ← s.dropKey
  return { s.take 1 .comma with mayStartKey := true }

/-- A boundary between documents, which closes all block collections. -/
def readBoundary (token : Token) (s : Scan) : Except Fault Scan := do
  let s ← s.closeAllBlocks.dropKey
  return { s.take 3 token with mayStartKey := false }

def readDirective (s : Scan) : Except Fault Scan := do
  let s ← s.closeAllBlocks.dropKey
  let (token, after) ← Property.readDirective s.version.isNewer s.cursor
  let version := match token with
    | .version v => v
    | _ => s.version
  return { s.emit token with cursor := after, mayStartKey := false, version }

/-- Reads the token at the cursor, which stands at the character `c` and is followed by `rest`. -/
def readToken (keyPending : Bool) (c : Char) (rest : List Char) (s : Scan) : Except Fault Scan :=
  if c == '%' && s.cursor.column = 0 then s.readDirective
  else if s.cursor.boundary? == some '-' then s.readBoundary .documentStart
  else if s.cursor.boundary? == some '.' then s.readBoundary .documentEnd
  else if c == '[' then s.openFlow true
  else if c == '{' then s.openFlow false
  else if c == ']' then s.closeFlow .flowSequenceEnd
  else if c == '}' then s.closeFlow .flowMappingEnd
  else if c == ',' then s.readComma
  else if c == '-' && wordOver rest then s.readItem
  else if c == '?' && s.marksKey then s.readKey
  else if c == ':' && s.marksValue keyPending then s.readValueMark
  else if c == '*' then s.readName .alias
  else if c == '&' then s.readName .anchor
  else if c == '!' then s.readProperty (Property.readTag s.version.isNewer)
  else if (c == '|' || c == '>') && !s.inFlow then s.readBlock
  else if c == '\x27' || c == '"' then s.readQuoted
  else if s.startsPlain then s.readPlain
  else .error .malformed

/-- Reads one token and whatever its place implies; nothing is left to do at the end of the text. -/
def step (s : Scan) : Except Fault (Scan × Bool) := do
  let keyPending := ((s.key.toList ++ s.flow.filterMap FlowLevel.key).any fun key => !s.isStale key)
  let s := s.skipByteOrderMark
  let s ← (s.skipBlanks (s.cursor.rest.length + 1)).dropStale
  let s := if s.inFlow then s else s.closeBlocks s.cursor.column
  match s.cursor.rest with
  | [] => do
    let s ← s.closeAllBlocks.dropKey
    return (s.emit .streamEnd, true)
  | c :: rest => do
    let s ← s.readToken keyPending c rest
    return (s, false)

def run : Nat → Scan → Except Fault Scan
  | 0, _ => .error .malformed
  | fuel + 1, s => do
    let (s, done) ← s.step
    if done then return s else run fuel s

end Scan

/-- The tokens of a text and the version it asks for. -/
def tokens (cs : List Char) : Except Fault (List Token × Version) :=
  if cs.all isAllowed then do
    let s ← Scan.run (cs.length + 2) { cursor := { rest := cs } }
    return (s.tokens.toList, s.version)
  else .error .malformed

end ModulePins.Yaml
