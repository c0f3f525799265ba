import ModulePins.File.Location
import ModulePins.Lockfile
import ModulePins.Manifest.Project
import ModulePins.Resolution.Run

/-!
# Pinning a project to its lockfile

A frozen run uses the versions of the lockfile and nothing else. Every module of the project must be
locked, and no locked module may lie in a local folder. Locked modules that the project does not
list are added to it.
-/

namespace ModulePins.Pinning

def isLocked (lock : Lockfile) (name : String) : Bool :=
  lock.modules.any fun m => m.name == name

/-- One reason for each request that is not locked. -/
def missing (p : Project) (lock : Lockfile) : List String :=
  ((p.modules.map Requirement.name).filter fun name => !isLocked lock name).map fun name =>
    name ++ ": requested by " ++ p.name ++ " but not found in the lockfile"

/-- The first locked module that lies in a local folder. -/
def localModule? (lock : Lockfile) : Option LockedModule :=
  lock.modules.find? fun m => m.url ≠ "" && Location.isLocal m.url

/-- The version a module is pinned to: of two entries for one name the later one counts. -/
def versionOf (lock : Lockfile) (name : String) : String :=
  ((lock.modules.reverse.find? fun m => m.name == name).map LockedModule.version).getD ""

def pin (lock : Lockfile) (r : Requirement) : Requirement :=
  { r with version := versionOf lock r.name, channel := "", prerelease := false }

/-- Adds requests for locked modules, until one cannot be made. -/
def addAll : List LockedModule → Project → Project × Except Failure Unit
  | [], p => (p, .ok ())
  | m :: rest, p =>
    match Requirement.make m.name m.version with
    | .error failure => (p, .error failure)
    | .ok r => addAll rest { p with modules := p.modules ++ [r] }

/-- Pins a project to its lockfile. Also gives the project as it is after a failure. -/
def apply (p : Project) (lock : Option Lockfile) : Project × Except Failure Unit :=
  match lock with
  | none => (p, .error .lockfileRequired)
  | some lock =>
    if !(missing p lock).isEmpty then (p, .error (.missingFromLock (missing p lock)))
    else
      match localModule? lock with
      | some m => (p, .error (.localReplacement m.name m.url))
      | none =>
        let extra := lock.modules.filter fun m => p.modules.all fun r => r.name ≠ m.name
        addAll extra { p with modules := p.modules.map (pin lock) }

end ModulePins.Pinning
