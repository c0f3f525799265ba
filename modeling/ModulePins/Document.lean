import ModulePins.Failure
import ModulePins.Lockfile
import ModulePins.Manifest.Project
import ModulePins.Yaml.Reader

/-!
# Documents

Manifests and lockfiles are written in YAML. A document that says nothing counts as an empty record,
and a complaint about a document names the file it came from or the module it belongs to.
-/

namespace ModulePins

/-- A document to be read. Failures to parse it call it by `name`, complaints about its contents by
`title`. -/
structure Document where
  name : String
  title : String
  text : String
  deriving Repr

namespace Document

def failure (d : Document) : Yaml.Fault → Failure
  | .malformed => .manifest (.unreadable d.name)
  | fault => .accident (.badScalar fault)

/-- Anything that counts as false stands for an empty record. -/
def record (v : Value) : Value :=
  if v.isTruthy then v else .mapping []

def report {α : Type} (d : Document) (c : Checked α) : Report α where
  notices := c.notices
  outcome := c.outcome.mapError fun issues =>
    match c.overflow with
    | some overflow => .accident (.tooDeep overflow)
    | none => .manifest (.invalid d.title issues)

def read {α : Type} (d : Document) (check : Value → Checked α) : Report α :=
  match Yaml.read d.text.toList with
  | .error fault => .fail (d.failure fault)
  | .ok v => d.report (check (record v))

end Document

def Project.readText (path text : String) : Report Project :=
  { name := path, title := "project manifest " ++ path, text : Document }.read Project.read

def ModuleManifest.readText (path text : String) (depth : Nat := Nesting.limit) :
    Report ModuleManifest :=
  { name := path, title := path, text : Document }.read fun v => ModuleManifest.read v depth

/-- Reads the manifest of a module that was imported under a name. The name must be the declared
one. -/
def ModuleManifest.readNamed (expected text : String) (depth : Nat := Nesting.limit) :
    Report ModuleManifest := do
  let name := "manifest of module " ++ expected
  let manifest ←
    { name, title := name, text : Document }.read fun v => ModuleManifest.read v depth
  if manifest.name = expected then return manifest
  else throw (.manifest (.wrongName manifest.name expected))

def Lockfile.readText (path text : String) : Report Lockfile :=
  { name := path, title := "lockfile " ++ path, text : Document }.read Lockfile.read

end ModulePins
