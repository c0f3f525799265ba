import ModulePins.Cache

/-!
# The folders of a cache

A record is written to a draft first, a file with a free name in the same folder, and the draft then
takes the place of the record that was there. So nobody ever reads half a record. Whatever happens,
no draft is left behind.
-/

namespace ModulePins

/-- What lies in the folder of an entry, by name. -/
abbrev CacheFolder := List (String × Slot)

namespace CacheFolder

def recordName : String := "version.json"

def draftName (mark : String) : String :=
  ".version_" ++ mark

def names (folder : CacheFolder) : List String :=
  folder.map Prod.fst

def create (folder : CacheFolder) (name : String) (now : Int) : CacheFolder :=
  (name, { content := .file [], stamp := now }) :: folder

def write (folder : CacheFolder) (name : String) (bytes : List UInt8) (now : Int) : CacheFolder :=
  folder.map fun (k, slot) =>
    if k = name then (k, { content := .file bytes, stamp := now }) else (k, slot)

def remove (folder : CacheFolder) (name : String) : CacheFolder :=
  folder.filter fun (k, _) => k ≠ name

/-- Gives a file another name. A file of that name is replaced, a folder is not. -/
def rename (folder : CacheFolder) (source target : String) : Option CacheFolder :=
  match folder.lookup source, (folder.lookup target).map Slot.content with
  | none, _ => none
  | some _, some .folder => none
  | some slot, _ => some ((target, slot) :: (folder.remove source).remove target)

def noFreeName : FileFault :=
  .other "[Errno 17] No usable temporary file name found"

/-- Puts a record into the folder at `place`. The draft gets the first of `marks` that makes a free
name. Also gives the folder as it is after a failure. -/
def keep (folder : CacheFolder) (place : String) (marks : List String) (bytes : List UInt8)
    (now : Int) : CacheFolder × Except FileFault Unit :=
  match marks.find? fun mark => (folder.lookup (draftName mark)).isNone with
  | none => (folder, .error noFreeName)
  | some mark =>
    let draft := draftName mark
    let drafted := (folder.create draft now).write draft bytes now
    match drafted.rename draft recordName with
    | some folder => (folder.remove draft, .ok ())
    | none =>
      (drafted.remove draft,
        .error (.cannotReplace (place ++ "/" ++ draft) (place ++ "/" ++ recordName)))

end CacheFolder

/-- A cache as it lies on disk: a folder for every key. -/
structure CacheDisk where
  root : String
  rootIsFile : Bool := false
  ttl : Int := 1800000000
  depth : Nat := Nesting.limit - 1
  folders : List (String × CacheFolder) := []

namespace CacheDisk

/-- The cache that is read: of every folder only the record counts. -/
def cache (d : CacheDisk) : Cache where
  root := d.root
  rootIsFile := d.rootIsFile
  ttl := d.ttl
  depth := d.depth
  slots := d.folders.filterMap fun (key, folder) =>
    (folder.lookup CacheFolder.recordName).map (key, ·)

def folder? (d : CacheDisk) (uri channel : String) : Option CacheFolder :=
  d.folders.lookup (cacheKey uri channel)

/-- Keeps a pick for a repository and channel, in a folder that is made if it is missing. -/
def put (d : CacheDisk) (marks : List String) (now : Int) (uri channel : String) (pick : Pick) :
    CacheDisk × Except FileFault Unit :=
  let place := d.cache.folderOf uri channel
  if d.rootIsFile then (d, .error (.notADirectory place))
  else
    let key := cacheKey uri channel
    let bytes := Text.Utf8.encode pick.record.toList
    let (folder, outcome) := ((d.folder? uri channel).getD []).keep place marks bytes now
    ({ d with folders := (key, folder) :: d.folders.filter fun (k, _) => k != key }, outcome)

end CacheDisk

end ModulePins
