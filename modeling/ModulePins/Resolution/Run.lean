import ModulePins.Cache
import ModulePins.Manifest.Project
import ModulePins.Resolution.Agenda

/-!
# Resolution runs

A run takes requests off its agenda until none is left. For each it picks a version that satisfies
all demands recorded for the module, fetches the manifest of a module chosen anew, and puts the
requests of the manifest on the agenda. The first failure ends the run.

The version source and the manifest store may answer by what they were asked before. Workers share
the agenda; one that takes off a broken range goes away without a word.
-/

namespace ModulePins

structure Fetch where
  uri : String
  version : String
  deriving DecidableEq, Repr, Inhabited

/-- Picks versions, knowing the queries made before. -/
abbrev VersionSource := List Query → Query → Except Failure Pick

/-- Fetches manifests, knowing the fetches made before. -/
abbrev ManifestStore := List Fetch → Fetch → Report ModuleManifest

/-- What a run works with. The clock shows `now` at the next step and `later n` at the `n`th step
after that; it stands still unless told otherwise. -/
structure Surroundings where
  versions : VersionSource
  manifests : ManifestStore
  now : Int
  later : Nat → Int := fun _ => now

def Surroundings.next (s : Surroundings) : Surroundings :=
  { s with now := s.later 0, later := fun n => s.later (n + 1) }

structure Run where
  agenda : Agenda
  cache : Cache
  workers : Nat := 1
  manifests : Ledger ModuleManifest := {}
  queries : List Query := []
  fetches : List Fetch := []
  notices : List Notice := []
  failure : Option Failure := none
  deriving Repr

/-- What is resolved: a project, or the dependencies of a module that is used as it is. -/
inductive Goal where
  | project (p : Project)
  | module (m : PinnedModule)
  deriving Repr

namespace Goal

/-- Exactly one of the two must be there. -/
def choose (project : Option Project) (root : Option PinnedModule) : Except Failure Goal :=
  match project, root with
  | some p, none => .ok (.project p)
  | none, some m => .ok (.module m)
  | _, _ => .error (.accident (.badValue "exactly one of project or module is required"))

end Goal

/-- A requirement without a name cannot be made. -/
def Requirement.make (name version : String) : Except Failure Requirement :=
  match ({ name, version } : Requirement).complete.outcome with
  | .ok r => .ok r
  | .error issues => .error (.accident (.badRecord "ModuleRequest" issues))

/-- The local version: what lies in a folder changes any time. -/
def Pick.ofLocal : Pick :=
  { tag := "local", mutable := true }

namespace Run

def topLevel (name : String) : String :=
  name ++ " (top-level)"

/-- A run that has not begun, in the folder `base`. -/
def start (goal : Goal) (given : List PinnedModule) (workers : Int) (cache : Cache)
    (base : Path := .top) : Except Failure Run := do
  if workers < 1 then
    .error (.accident (.badValue ("concurrency must be at least 1, got " ++ toString workers)))
  let agenda ←
    match goal with
    | .project p =>
      let tasks := p.modules.map fun r => { requirement := r, parent := topLevel p.name }
      pure (Agenda.start tasks p.replacements given base)
    | .module m => do
      let requirement ← Requirement.make m.name ""
      pure (Agenda.start [{ requirement, parent := topLevel m.name }] [] (given ++ [m]) base)
  return { agenda, cache, workers := workers.toNat }

def cancelled (r : Run) : Bool :=
  r.failure.isSome

/-- Whether something is left to do. -/
def isActive (r : Run) : Bool :=
  r.failure.isNone && r.workers != 0 && !r.agenda.tasks.isEmpty

/-- A demand for a channel other than the one pinned by the history. -/
def conflict? (item : Item) (history : History) : Option Failure :=
  match history.pinning? with
  | none => none
  | some pinned =>
    if Demand.isOffStable item.channel && item.channel ≠ pinned.channel then
      some (.channelConflict item.name pinned.channel pinned.parent item.channel item.task.parent
        history)
    else none

def mutableNotice (name tag : String) : Notice :=
  .warning
    ("Module " ++ name ++ " resolved to mutable version " ++ tag ++
      ", result is non-deterministic")

/-- Whether a cached pick may stand in for an answer of the version source. -/
def isUsable (constraints : List String) (pick : Pick) : Bool :=
  pick.mutable || constraints.all fun text =>
    match Constraint.read text with
    | .ok c => c.admitsText pick.tag
    | .error _ => false

def versionFailure (name : String) (history : History) : Failure → Failure
  | .versionNotFound _ => .constraintConflict name history
  | .accident cause =>
    .collaborator name "resolve version" (history.text ++ "\n" ++ cause.message)
  | failure => failure

/-- Asks the version source, and keeps its answer in the cache. -/
def askVersion (s : Surroundings) (r : Run) (name uri : String) (history : History) :
    Run × Except Failure Pick :=
  let query : Query := { url := uri, channel := history.channel, constraints := history.constraints }
  let answer := s.versions r.queries query
  let r := { r with queries := r.queries ++ [query] }
  match answer with
  | .error failure => (r, .error (versionFailure name history failure))
  | .ok pick =>
    match r.cache.put s.now uri history.channel pick with
    | .error fault => (r, .error (.collaborator name "cache resolved version" fault.message))
    | .ok cache => ({ r with cache }, .ok pick)

/-- The failure to read the cache: only what the file system refuses is reported for the module. -/
def cacheFailure (name : String) : Failure → Failure
  | .accident (.file fault) => .collaborator name "read cached version" fault.message
  | failure => failure

/-- Takes the cached pick if it can be used, and asks the version source otherwise. -/
def lookUpVersion (s : Surroundings) (r : Run) (name uri : String) (history : History) :
    Run × Except Failure Pick :=
  let cached := r.cache.get s.now uri history.channel
  let r := { r with notices := r.notices ++ cached.notices }
  match cached.outcome with
  | .error failure => (r, .error (cacheFailure name failure))
  | .ok none => askVersion s r name uri history
  | .ok (some pick) =>
    if isUsable history.constraints pick then (r, .ok pick) else askVersion s r name uri history

/-- Picks a version that satisfies every demand recorded for the module. A mutable pick stays. -/
def choosePick (s : Surroundings) (r : Run) (item : Item) (uri : String) :
    Run × Except Failure Pick :=
  let history := r.agenda.history item.name
  match conflict? item history with
  | some failure => (r, .error failure)
  | none =>
    match ((r.agenda.find? item.name).bind Entry.pick).filter Pick.mutable with
    | some pick =>
      ({ r with notices := r.notices ++ [mutableNotice item.name pick.tag] }, .ok pick)
    | none =>
      if Location.isLocal uri then (r, .ok .ofLocal)
      else lookUpVersion s r item.name uri history

def fetchFailure (name : String) : Failure → Failure :=
  Failure.orAccident fun cause => .collaborator name "fetch manifest" cause.message

/-- Fetches the manifest of a module, which must declare the module's name. -/
def fetchManifest (s : Surroundings) (r : Run) (m : PinnedModule) :
    Run × Except Failure ModuleManifest :=
  let fetch : Fetch := { uri := m.uri, version := m.version }
  let answer := s.manifests r.fetches fetch
  let r := { r with fetches := r.fetches ++ [fetch], notices := r.notices ++ answer.notices }
  match answer.outcome with
  | .error failure => (r, .error (fetchFailure m.name failure))
  | .ok manifest =>
    if manifest.name = m.name then (r, .ok manifest)
    else (r, .error (.manifest (.wrongName manifest.name m.name)))

def fail (r : Run) (failure : Failure) : Run :=
  { r with failure := some failure }

/-- Records the manifest of a module and puts its requests on the agenda, unless that was done for
just this module before. -/
def expand (s : Surroundings) (r : Run) (m : PinnedModule) : Run :=
  if ((r.agenda.find? m.name).bind Entry.expanded) = some m then r
  else
    let r := { r with agenda := r.agenda.update m.name fun e => { e with expanded := some m } }
    match fetchManifest s r m with
    | (r, .error failure) => r.fail failure
    | (r, .ok manifest) =>
      let tasks := manifest.modules.map fun requirement => { requirement, parent := m.label }
      { r with
        manifests := r.manifests.put m.name manifest
        agenda := { r.agenda with tasks := r.agenda.tasks ++ tasks } }

/-- Deals with a request that was taken off the agenda. -/
def process (s : Surroundings) (r : Run) (item : Item) : Run :=
  match item.uri with
  | none =>
    match (r.agenda.find? item.name).bind Entry.chosen with
    | some m => expand s r m
    | none => r
  | some uri =>
    match choosePick s r item uri with
    | (r, .error failure) => r.fail failure
    | (r, .ok pick) =>
      let m : PinnedModule :=
        { name := item.name, uri, version := pick.tag, mutable := pick.mutable }
      let agenda := r.agenda.update item.name fun e =>
        { e with pick := some pick, chosen := some m }
      expand s { r with agenda } m

/-- Takes one request off the agenda and deals with it. -/
def step (s : Surroundings) (r : Run) : Run :=
  match r.agenda.pop with
  | .empty => r
  | .broken agenda => { r with agenda, workers := r.workers - 1 }
  | .item item agenda => process s { r with agenda } item

/-- Runs to the end, in at most `limit` steps. -/
def finish? (s : Surroundings) : Nat → Run → Option Run
  | 0, r => if r.isActive then none else some r
  | limit + 1, r => if r.isActive then finish? s.next limit (step s r) else some r

def outcome (r : Run) : Except Failure (List PinnedModule) :=
  match r.failure with
  | some failure => .error failure
  | none => .ok r.agenda.resolved

end Run

end ModulePins
