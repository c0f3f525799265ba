import ModulePins.Failure
import ModulePins.Lockfile
import ModulePins.Markdown

/-!
# The major version gate

A module whose major version went up since the lockfile was written is only taken with consent:
given beforehand for all modules, or asked for one by one after its release notes were shown. What
is no version on either side is let through.
-/

namespace ModulePins

/-- A module whose major version went up. -/
structure Upgrade where
  pinned : PinnedModule
  fromVersion : String
  deriving DecidableEq, Repr, Inhabited

namespace Upgrade

def toVersion (u : Upgrade) : String :=
  u.pinned.version

/-- Whether the version text `new` has a greater major number than `old`. -/
def isMajor (old new : String) : Bool :=
  match SemVer.read? old, SemVer.read? new with
  | some v, some w => v.major < w.major
  | _, _ => false

/-- The upgrade of a module over its locked version. -/
def ofModule? (lock : Lockfile) (m : PinnedModule) : Option Upgrade :=
  match lock.module? m.name with
  | some locked =>
    if isMajor locked.version m.version then some { pinned := m, fromVersion := locked.version }
    else none
  | none => none

def rejected (u : Upgrade) (reason : String) : Failure :=
  .upgradeRejected u.pinned.name u.fromVersion u.toVersion reason

def allowedNotice (u : Upgrade) : Notice :=
  .info
    ("Upgrading " ++ u.pinned.name ++ " from " ++ u.fromVersion ++ " to " ++ u.toVersion ++
      " (major version upgrades allowed)")

end Upgrade

namespace Gate

/-- How consent is asked for. The state is whatever lies behind the questions. -/
structure Inquiry (σ : Type) where
  isInteractive : StateM σ Bool
  fetchNotes : String → String → Option String → StateM σ (Except Failure String)
  confirm : String → String → String → String → StateM σ (Except Failure Bool)

variable {σ : Type}

def notInteractive : String :=
  "confirmation is required but stdin is not interactive, " ++
    "re-run with --allow-major-version-upgrades to accept it"

def declined : String :=
  "Not updating, re-run with --frozen-lockfile to proceed"

/-- The notes to be shown. Notes that are not available are replaced by a notice. -/
def shownNotes (m : PinnedModule) : Except Failure String → Report String
  | .ok notes => .ok (Markdown.render notes)
  | .error (.notesUnavailable reason) =>
    { outcome := .ok ""
      notices :=
        [.warning ("Unable to show release notes for " ++ m.label ++ ": " ++ reason)] }
  | .error failure => .fail failure

/-- Whether an answer that did not come counts as a rejection of the upgrade. -/
def answerFailure (u : Upgrade) : Failure → Failure
  | .accident .aborted => u.rejected "failed to read confirmation: "
  | .accident (.endOfInput text) => u.rejected ("failed to read confirmation: " ++ text)
  | .accident (.file fault) => u.rejected ("failed to read confirmation: " ++ fault.message)
  | failure => failure

def judge (u : Upgrade) : Except Failure Bool → Except Failure Unit
  | .ok true => .ok ()
  | .ok false => .error (u.rejected declined)
  | .error failure => .error (answerFailure u failure)

def askFor (inquiry : Inquiry σ) (token : Option String) (u : Upgrade) :
    StateM σ (Report Unit) := do
  if ← inquiry.isInteractive then
    let notes := shownNotes u.pinned (← inquiry.fetchNotes u.pinned.name u.toVersion token)
    match notes.outcome with
    | .error failure => return { outcome := .error failure, notices := notes.notices }
    | .ok text =>
      let answer ← inquiry.confirm u.pinned.name u.fromVersion u.toVersion text
      return { outcome := judge u answer, notices := notes.notices }
  else return .fail (u.rejected notInteractive)

/-- Asks for consent to upgrades, one by one, until one is refused. -/
def askForAll (inquiry : Inquiry σ) (token : Option String) :
    List Upgrade → StateM σ (Report Unit)
  | [] => return .ok ()
  | u :: rest => do
    let first ← askFor inquiry token u
    match first.outcome with
    | .error _ => return first
    | .ok () =>
      let others ← askForAll inquiry token rest
      return { others with notices := first.notices ++ others.notices }

/-- Lets modules pass, or fails with the first upgrade that is not consented to. -/
def check (inquiry : Inquiry σ) (lock : Option Lockfile) (allowed : Bool) (token : Option String)
    (modules : List PinnedModule) : StateM σ (Report Unit) :=
  match lock with
  | none => return .ok ()
  | some lock =>
    let upgrades := modules.filterMap (Upgrade.ofModule? lock)
    if allowed then return { outcome := .ok (), notices := upgrades.map Upgrade.allowedNotice }
    else askForAll inquiry token upgrades

end Gate

end ModulePins
