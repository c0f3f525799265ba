import ModulePins.Failure
import ModulePins.Ledger

/-!
# The version of the tool

A module may ask for a version of the tool that renders it. The modules are checked in the order of
their names.
-/

namespace ModulePins.ToolVersion

def checkModule (tool : String) (version : SemVer) (name required : String) :
    Except Failure Unit :=
  match Constraint.read required with
  | .error .notARange =>
    .error (.manifest (.toolConstraint required name (Constraint.faultMessage required)))
  | .error .brokenEnd => .error (.accident .brokenRange)
  | .ok c => if c.admits version then .ok () else .error (.toolVersionMismatch name tool required)

/-- The constraints that modules put on the tool, in the order of their names. -/
def demands (manifests : Ledger ModuleManifest) : List (String × String) :=
  (manifests.entries.mergeSort fun a b => a.1 ≤ b.1).filterMap fun (name, manifest) =>
    (manifest.toolVersion.filter (· ≠ "")).map (name, ·)

def check (manifests : Ledger ModuleManifest) (tool : String) : Except Failure Unit :=
  match SemVer.read? tool with
  | none => .error (.manifest (.toolVersion tool))
  | some version => (demands manifests).forM fun (name, required) =>
      checkModule tool version name required

end ModulePins.ToolVersion
