import ModulePins.Digest.Sha256
import ModulePins.Failure
import ModulePins.Json.Printer
import ModulePins.Text.Line

/-!
# The cache of picks

The last pick for a repository and channel is kept in a file of its own, in a folder named by the
digest of the two. A file counts as long as it is young enough; what cannot be read as a record is
ignored with a notice. The caller says what time it is, in microseconds.
-/

namespace ModulePins

/-- The name under which the picks of a repository and channel are kept. -/
def cacheKey (uri channel : String) : String :=
  Sha256.hex (Text.Utf8.encode (uri.toList ++ Char.ofNat 0 :: channel.toList))

namespace Pick

/-- Why a value is no record of a pick. -/
inductive RecordFault where
  | notAMapping (kind : String)
  | noTag
  deriving DecidableEq, Repr

namespace RecordFault

def message : RecordFault → String
  | notAMapping kind => "'" ++ kind ++ "' object has no attribute 'get'"
  | noTag => "version payload requires a non-empty 'tag'"

end RecordFault

/-- Reads a record: the tag must be a text that is not empty. -/
def ofRecord : Value → Except RecordFault Pick
  | .mapping entries =>
    match Value.field? entries "tag" with
    | some (.text tag) =>
      if tag = "" then .error .noTag
      else .ok { tag, mutable := (Value.field? entries "mutable").any Value.isTruthy }
    | _ => .error .noTag
  | v => .error (.notAMapping v.kindName)

def record (pick : Pick) : String :=
  "\x7b\"tag\": " ++ Json.quoted pick.tag ++ ", \"mutable\": " ++
    (if pick.mutable then "true" else "false") ++ "\x7d"

end Pick

/-- What may stand in the place of a record. -/
inductive Slot.Content where
  | file (bytes : List UInt8)
  | folder
  deriving DecidableEq, Repr

structure Slot where
  content : Slot.Content
  stamp : Int
  deriving DecidableEq, Repr

/-- A cache below a folder, or below a file, where nothing can be kept. A record is itself in
brackets, and within it brackets may be nested to the given depth. -/
structure Cache where
  root : String
  rootIsFile : Bool := false
  ttl : Int := 1800000000
  depth : Nat := Nesting.limit - 1
  slots : List (String × Slot) := []
  deriving Repr

namespace Cache

def folderOf (c : Cache) (uri channel : String) : String :=
  c.root ++ "/module_version/" ++ cacheKey uri channel

def pathOf (c : Cache) (uri channel : String) : String :=
  c.folderOf uri channel ++ "/version.json"

def slot? (c : Cache) (uri channel : String) : Option Slot :=
  if c.rootIsFile then none else c.slots.lookup (cacheKey uri channel)

def fill (c : Cache) (uri channel : String) (slot : Slot) : Cache :=
  let key := cacheKey uri channel
  { c with slots := (key, slot) :: c.slots.filter fun (k, _) => k != key }

/-- A slot is fresh until the time to live has passed. -/
def isFreshSlot (c : Cache) (now : Int) (slot : Slot) : Bool :=
  now - slot.stamp ≤ c.ttl

def isFresh (c : Cache) (now : Int) (uri channel : String) : Bool :=
  (c.slot? uri channel).any (c.isFreshSlot now)

def corruptNotice (path cause : String) : Notice :=
  .warning ("Ignoring corrupt version cache " ++ path ++ ": " ++ cause)

/-- Reads the text of a record. What is no record counts as missing; only text nested beyond all
bounds is an accident. -/
def readRecord (depth : Nat) (path : String) (cs : List Char) : Report (Option Pick) :=
  let ignore (cause : String) : Report (Option Pick) :=
    { outcome := .ok none, notices := [corruptNotice path cause] }
  match Json.readText (depth + 1) (Text.unifyLineEnds cs) with
  | .ok v =>
    match Pick.ofRecord v with
    | .ok pick => .ok (some pick)
    | .error fault => ignore fault.message
  | .error (.tooDeep overflow) => .fail (.accident (.tooDeep overflow))
  | .error fault => ignore fault.message

/-- The pick kept for a repository and channel, if it is fresh and can be read. -/
def get (c : Cache) (now : Int) (uri channel : String) : Report (Option Pick) :=
  match (c.slot? uri channel).filter (c.isFreshSlot now) with
  | none => .ok none
  | some slot =>
    let path := c.pathOf uri channel
    match slot.content with
    | .folder => .fail (.accident (.file (.isADirectory path)))
    | .file bytes =>
      match Text.Utf8.decode bytes with
      | .error fault => .fail (.accident (.undecodable (.ofUtf8 bytes 0 fault)))
      | .ok cs => readRecord c.depth path cs

def put (c : Cache) (now : Int) (uri channel : String) (pick : Pick) : Except FileFault Cache :=
  if c.rootIsFile then .error (.notADirectory (c.folderOf uri channel))
  else
    match (c.slot? uri channel).map Slot.content with
    | some .folder =>
      .error (.cannotReplace (c.folderOf uri channel ++ "/.version_*") (c.pathOf uri channel))
    | _ =>
      .ok (c.fill uri channel
        { content := .file (Text.Utf8.encode pick.record.toList), stamp := now })

end Cache

end ModulePins
