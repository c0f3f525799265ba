import ModulePins.Yaml.Tag
import ModulePins.Yaml.Tokens

/-!
# From tokens to nodes

A document is one node: a scalar, a sequence or a mapping. A mapping may take over entries of
others, which is worked out later; until then nothing is merged into it. An alias stands for the
node that carries its anchor, and the later of two anchors of one name counts; no node contains
itself. A text holds at most one document.
-/

namespace ModulePins.Yaml

inductive Node where
  | scalar (tag : Tag) (text : String)
  | sequence (tag : Tag) (items : List Node)
  | mapping (tag : Tag) (entries : List (Node × Node)) (isMerged : Bool)
  deriving Repr, Inhabited

namespace Node

def tag : Node → Tag
  | scalar tag _ => tag
  | sequence tag _ => tag
  | mapping tag _ _ => tag

/-- A mapping as it is written. -/
def blankMapping (tag : Tag) (entries : List (Node × Node)) : Node :=
  mapping tag entries false

/-- What tags mean in a document: its version and the addresses of the handles. -/
structure Dialect where
  version : Version
  handles : List (String × String) := [("!", "!"), ("!!", Tag.commonAddress)]

/-- The tokens that are left, and the nodes with anchors; one that is still open has no node yet. -/
structure Reading where
  tokens : List Token
  anchors : List (String × Option Node) := []

abbrev Read := StateT Reading (Except Fault)

def malformed {α : Type} : Read α :=
  throw .malformed

def peek : Read Token := do
  return (← get).tokens.headD .streamEnd

def drop : Read Unit :=
  modify fun r => { r with tokens := r.tokens.drop 1 }

def accept (token : Token) : Read Bool := do
  if (← peek) == token then
    drop
    return true
  else return false

/-- Notes an anchor, with its node or still open. -/
def noteAnchor (anchor : Option String) (node : Option Node) : Read Unit :=
  match anchor with
  | none => pure ()
  | some name => modify fun r => { r with anchors := (name, node) :: r.anchors }

def closeAnchor (anchor : Option String) (node : Node) : Read Unit := do
  match anchor with
  | none => pure ()
  | some name =>
    match (← get).anchors.lookup name with
    | some none => noteAnchor anchor (some node)
    | _ => pure ()

def ofAlias (name : String) : Read Node := do
  match (← get).anchors.lookup name with
  | some (some node) => return node
  | _ => malformed

/-- The address of a tag: by itself, or from its handle. -/
def tagAddress (d : Dialect) (handle : Option String) (name : String) : Except Fault String :=
  match handle with
  | none => .ok name
  | some handle =>
    match d.handles.lookup handle with
    | some address => .ok (address ++ name)
    | none => .error .malformed

/-- Reads an anchor and the address of a tag, in either order. -/
def properties (d : Dialect) : Read (Option String × Option String) := do
  match ← peek with
  | .anchor name =>
    drop
    match ← peek with
    | .tag handle tagName =>
      drop
      return (some name, some (← tagAddress d handle tagName))
    | _ => return (some name, none)
  | .tag handle tagName =>
    drop
    match ← peek with
    | .anchor name =>
      drop
      return (some name, some (← tagAddress d handle tagName))
    | _ => return (none, some (← tagAddress d handle tagName))
  | _ => return (none, none)

/-- The tag of a scalar: the one given, the one its text looks like, or that of text. A lone
exclamation mark asks for the one its text looks like, even between quotes. -/
def scalarTag (d : Dialect) (address : Option String) (isPlain : Bool) (text : String) :
    Except Fault Tag :=
  match address with
  | none => if isPlain then Tag.ofPlain d.version text else .ok .text
  | some address => if address == "!" then Tag.ofPlain d.version text else .ok (.ofAddress address)

def collectionTag (own : Tag) : Option String → Tag
  | none => own
  | some address => if address == "!" then own else .ofAddress address

def makeScalar (d : Dialect) (anchor address : Option String) (isPlain : Bool) (text : String) :
    Read Node := do
  let node := scalar (← scalarTag d address isPlain text) text
  noteAnchor anchor (some node)
  return node

def empty (d : Dialect) : Read Node :=
  makeScalar d none none true ""

/-- Reads a collection between noting its anchor as open and noting its node. -/
def makeCollection (anchor : Option String) (read : Read Node) : Read Node := do
  noteAnchor anchor none
  let node ← read
  closeAnchor anchor node
  return node

def comesBefore (tokens : List Token) : Read Bool := do
  return tokens.contains (← peek)

mutual

/-- Reads a node. Block collections may be out of place, and a block sequence may stand without
brackets of its own where a mapping has its values. -/
def readNode (d : Dialect) (inBlock unbracketed : Bool) : Nat → Read Node
  | 0 => malformed
  | fuel + 1 => do
    match ← peek with
    | .alias name =>
      drop
      ofAlias name
    | _ => do
      let (anchor, address) ← properties d
      match ← peek with
      | .item =>
        if unbracketed then
          makeCollection anchor <|
            sequence (collectionTag .sequence address) <$> readLooseItems d [] fuel
        else readNothing d anchor address
      | .scalar isPlain text =>
        drop
        makeScalar d anchor address isPlain text
      | .flowSequence =>
        drop
        makeCollection anchor <|
          sequence (collectionTag .sequence address) <$> readFlowItems d [] fuel
      | .flowMapping =>
        drop
        makeCollection anchor <|
          blankMapping (collectionTag .mapping address) <$> readFlowEntries d [] fuel
      | .blockSequence =>
        if inBlock then
          drop
          makeCollection anchor <|
            sequence (collectionTag .sequence address) <$> readBlockItems d [] fuel
        else readNothing d anchor address
      | .blockMapping =>
        if inBlock then
          drop
          makeCollection anchor <|
            blankMapping (collectionTag .mapping address) <$> readBlockEntries d [] fuel
        else readNothing d anchor address
      | _ => readNothing d anchor address

def readNothing (d : Dialect) (anchor address : Option String) : Read Node :=
  if anchor.isSome || address.isSome then makeScalar d anchor address true ""
  else malformed

def readUnless (d : Dialect) (stop : List Token) (inBlock unbracketed : Bool) : Nat → Read Node
  | 0 => malformed
  | fuel + 1 => do
    if ← comesBefore stop then empty d else readNode d inBlock unbracketed fuel

def readBlockItems (d : Dialect) (items : List Node) : Nat → Read (List Node)
  | 0 => malformed
  | fuel + 1 => do
    if ← accept .item then
      let item ← readUnless d [.item, .blockEnd] true false fuel
      readBlockItems d (item :: items) fuel
    else if ← accept .blockEnd then return items.reverse
    else malformed

/-- Reads the items of a sequence without brackets of its own. -/
def readLooseItems (d : Dialect) (items : List Node) : Nat → Read (List Node)
  | 0 => malformed
  | fuel + 1 => do
    if ← accept .item then
      let item ← readUnless d [.item, .key, .value, .blockEnd] true false fuel
      readLooseItems d (item :: items) fuel
    else return items.reverse

/-- Reads the entries of a block mapping, up to its end. A key may be left out from version 1.2
on. -/
def readBlockEntries (d : Dialect) (entries : List (Node × Node)) :
    Nat → Read (List (Node × Node))
  | 0 => malformed
  | fuel + 1 => do
    if ← accept .blockEnd then return entries.reverse
    else
      let key ←
        if ← accept .key then readUnless d [.key, .value, .blockEnd] true true fuel
        else if (← peek) == .value && d.version.isNewer then empty d
        else malformed
      let value ←
        if ← accept .value then readUnless d [.key, .value, .blockEnd] true true fuel
        else empty d
      readBlockEntries d ((key, value) :: entries) fuel

/-- Reads the items of a flow sequence, up to its end; an entry among them is a mapping. -/
def readFlowItems (d : Dialect) (items : List Node) : Nat → Read (List Node)
  | 0 => malformed
  | fuel + 1 => do
    if ← accept .flowSequenceEnd then return items.reverse
    let separated ← if items.isEmpty then pure true else accept .comma
    if !separated then malformed
    else if ← accept .key then
      let key ← readUnless d [.value, .comma, .flowSequenceEnd] false false fuel
      let value ←
        if ← accept .value then readUnless d [.comma, .flowSequenceEnd] false false fuel
        else empty d
      readFlowItems d (blankMapping .mapping [(key, value)] :: items) fuel
    else if ← accept .flowSequenceEnd then return items.reverse
    else
      let item ← readNode d false false fuel
      readFlowItems d (item :: items) fuel

/-- Reads the entries of a flow mapping, up to its end. A node that is no key has no value. -/
def readFlowEntries (d : Dialect) (entries : List (Node × Node)) : Nat → Read (List (Node × Node))
  | 0 => malformed
  | fuel + 1 => do
    if ← accept .flowMappingEnd then return entries.reverse
    let separated ← if entries.isEmpty then pure true else accept .comma
    if !separated then malformed
    else if ← accept .key then
      let key ← readUnless d [.value, .comma, .flowMappingEnd] false false fuel
      let value ← readFlowValue d fuel
      readFlowEntries d ((key, value) :: entries) fuel
    else if (← peek) == .value && d.version.isNewer then
      let key ← empty d
      let value ← readFlowValue d fuel
      readFlowEntries d ((key, value) :: entries) fuel
    else if ← accept .flowMappingEnd then return entries.reverse
    else
      let key ← readNode d false false fuel
      let value ← empty d
      readFlowEntries d ((key, value) :: entries) fuel

def readFlowValue (d : Dialect) : Nat → Read Node
  | 0 => malformed
  | fuel + 1 => do
    if ← accept .value then readUnless d [.comma, .flowMappingEnd] false false fuel
    else empty d

end

/-- What directives say: the version, if it is given, and handles. -/
structure Directives where
  version : Option Version := none
  handles : List (String × String) := []

/-- Reads directives up to the start of the document. None may come twice. -/
def readDirectives (said : Directives) : Nat → Read Directives
  | 0 => malformed
  | fuel + 1 => do
    match ← peek with
    | .directive =>
      drop
      readDirectives said fuel
    | .version v =>
      drop
      if said.version.isSome || v.major != 1 then malformed
      else readDirectives { said with version := some v } fuel
    | .tagHandle handle address =>
      drop
      if (said.handles.lookup handle).isSome then malformed
      else readDirectives { said with handles := (handle, address) :: said.handles } fuel
    | _ => return said

def readMarked (d : Dialect) (fuel : Nat) : Read Node := do
  let said ← readDirectives {} fuel
  if ← accept .documentStart then
    let d := { d with handles := said.handles ++ d.handles }
    match ← peek with
    | .directive | .version .. | .tagHandle .. | .documentStart | .documentEnd | .streamEnd =>
      empty d
    | _ => readNode d true false fuel
  else malformed

def readText (d : Dialect) (fuel : Nat) : Read (Option Node) := do
  match ← peek with
  | .streamEnd => return none
  | first =>
    let node ← match first with
      | .directive | .version .. | .tagHandle .. | .documentStart => readMarked d fuel
      | _ => readNode d true false fuel
    let _ ← accept .documentEnd
    if (← peek) == .streamEnd then return some node else malformed

/-- The node of the document in a text, and the version it asks for. -/
def ofText (cs : List Char) : Except Fault (Option Node × Version) := do
  let (tokens, version) ← Yaml.tokens cs
  let (node, _) ← (readText { version } (3 * tokens.length + 3)).run { tokens }
  return (node, version)

end Node

end ModulePins.Yaml
