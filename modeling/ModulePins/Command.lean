import ModulePins.Document
import ModulePins.Environment
import ModulePins.Gate
import ModulePins.Lockfile.Printer
import ModulePins.Pinning
import ModulePins.ToolVersion

/-!
# The resolve command

The command pins a frozen project to its lockfile, resolves the modules of the project, lets new
major versions pass the gate, and checks the version of the tool and the arguments against the
manifests of the modules. Its result is what the lockfile records.
-/

namespace ModulePins

structure Command.Options where
  frozen : Bool := false
  allowMajorUpgrades : Bool := false
  usePrerelease : Bool := false
  token : Option String := none
  toolVersion : String := "0.4.0"
  deriving DecidableEq, Repr, Inhabited

/-- A project, its lockfile if it has one, and the options of this run. -/
structure Command where
  project : Project
  lock : Option Lockfile := none
  options : Command.Options := {}
  deriving Repr, Inhabited

/-- Modules picked, with their manifests and the values of their arguments by module name. -/
structure Command.Result where
  modules : List PinnedModule
  manifests : Ledger ModuleManifest := {}
  arguments : List (String × List (String × Value)) := []
  deriving Repr, Inhabited

/-- How a command ended, and the resolution run if it came to one. -/
structure Command.Ending where
  run : Option Run := none
  report : Report Command.Result

namespace Command

/-- Loads a project and its lockfile from the texts of their files in a folder. -/
def load (folder : Path) (project lock : Option String) (options : Options) : Report Command := do
  let projectPath := (folder.child Project.fileName).text
  let lockPath := (folder.child Lockfile.fileName).text
  match project with
  | none => throw (.accident (.file (.notFound projectPath)))
  | some text => do
    let project ← Project.readText projectPath text
    match lock with
    | none => return { project, options }
    | some text =>
      let lock ← Lockfile.readText lockPath text
      return { project, lock := some lock, options }

/-- The project as the options want it: on the pre-release channel, pinned to the lockfile. -/
def prepared (c : Command) : Report Project :=
  let (project, notices) :=
    if c.options.usePrerelease then (c.project.usePrerelease, [Project.prereleaseNotice])
    else (c.project, [])
  if c.options.frozen then
    let (project, outcome) := Pinning.apply project c.lock
    { outcome := outcome.map fun () => project, notices }
  else { outcome := .ok project, notices }

/-- The values of the arguments of all modules; the first module with a problem is reported. -/
def argumentsOf (p : Project) (manifests : Ledger ModuleManifest) (depth : Nat) :
    Except Failure (List (String × List (String × Value))) :=
  manifests.entries.mapM fun (name, manifest) => do
    return (name, ← Argument.settle p.arguments manifest.arguments name depth)

def resolvedNotices (modules : List PinnedModule) : List Notice :=
  .info "Resolved modules:" :: modules.map fun m => .info (" -> " ++ m.name ++ " " ++ m.version)

def concluded (c : Command) (p : Project) (modules : List PinnedModule)
    (manifests : Ledger ModuleManifest) (depth : Nat) : Report Result :=
  let arguments := do
    ToolVersion.check manifests c.options.toolVersion
    argumentsOf p manifests depth
  match arguments with
  | .error failure => .fail failure
  | .ok arguments =>
    { outcome := .ok { modules, manifests, arguments }, notices := resolvedNotices modules }

variable {σ : Type}

/-- Runs a command in the folder of the environment. There is no ending if resolution takes more
than `limit` steps. The option `concurrency`, five by default, is left out: there is a single
worker, so requests are dealt with one after the other. -/
def run (c : Command) (env : Environment) (s : Surroundings) (cache : Cache) (limit : Nat)
    (inquiry : Gate.Inquiry σ) : StateM σ (Option Ending) := do
  let prepared := c.prepared
  let started := do
    let project ← prepared.outcome
    let run ← Run.start (.project project) [] 1 cache env.folder
    return (project, run)
  match started with
  | .error failure =>
    return some { report := { outcome := .error failure, notices := prepared.notices } }
  | .ok (project, start) =>
    match start.finish? s limit with
    | none => return none
    | some run => do
      let before := prepared.notices ++ run.notices
      match run.outcome with
      | .error failure =>
        return some { run := some run, report := { outcome := .error failure, notices := before } }
      | .ok modules =>
        let gate ← Gate.check inquiry c.lock c.options.allowMajorUpgrades
          (env.token? c.options.token) modules
        let report := gate.andThen fun () => c.concluded project modules run.manifests env.depth
        return some {
          run := some run
          report := { report with notices := before ++ report.notices } }

def lockfile (c : Command) (result : Result) : Lockfile :=
  .ofModules c.options.toolVersion result.modules

end Command

end ModulePins
