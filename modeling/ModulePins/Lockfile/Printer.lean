import ModulePins.Lockfile
import ModulePins.Resolution.Basic
import ModulePins.Yaml.Printer

/-!
# Writing lockfiles

A lockfile lists its modules and files in the order of their names, so that two of them can be
compared line by line. Every value stands behind its name on a line; values that are too long go on
below, deeper than their names.
-/

namespace ModulePins

namespace LockedModule

def ofPinned (m : PinnedModule) : LockedModule :=
  { name := m.name, url := m.uri, version := m.version }

end LockedModule

namespace Lockfile

/-- The lockfile of a run; its time is left open. -/
def ofModules (toolVersion : String) (modules : List PinnedModule)
    (files : List LockedFile := []) : Lockfile where
  version := toolVersion
  modules := (modules.mergeSort fun a b => a.name ≤ b.name).map LockedModule.ofPinned
  files := files.mergeSort fun a b => a.name ≤ b.name

/-- A line with a name and a value; `lead` stands before the name. -/
def line (lead : String) (name value : String) : String :=
  let before := lead ++ name ++ ":"
  before ++ String.ofList (Yaml.Printer.scalar (lead.length + 2) before.length value) ++ "\n"

def item : List (String × String) → String
  | [] => ""
  | (name, value) :: rest =>
    line "- " name value ++ String.join (rest.map fun (name, value) => line "  " name value)

def listing (name : String) (items : List (List (String × String))) : String :=
  if items.isEmpty then name ++ ": []\n" else name ++ ":\n" ++ String.join (items.map item)

/-- The text of a lockfile. A time that was left open is that of the writing. -/
def text (now : Instant) (lock : Lockfile) : String :=
  line "" "version" lock.version ++
    line "" "generated" (lock.generated.getD now).text ++
    listing "modules" (lock.modules.map fun m =>
      [("name", m.name), ("url", m.url), ("version", m.version)]) ++
    listing "files" (lock.files.map fun f =>
      [("name", f.name), ("template", f.template), ("module", f.moduleName)])

end Lockfile

end ModulePins
