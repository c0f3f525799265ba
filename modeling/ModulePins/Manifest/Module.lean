import ModulePins.Manifest.Argument
import ModulePins.Manifest.Requirement
import ModulePins.SemVer.Reader

/-!
# Module manifests

Every module of templates has a manifest at its root. It declares the import path of the module,
the modules it needs, the arguments of its templates, what is to be run after rendering and which
version of the tool can render it.
-/

namespace ModulePins

structure PostRunCommand where
  name : String := ""
  command : String
  deriving DecidableEq, Repr, Inhabited

namespace PostRunCommand

def read (v : Value) : Checked PostRunCommand :=
  v.asRecord fun entries =>
    mk <$> Checked.optional "name" "" Value.asText entries
      <*> Checked.required "command" Value.asText entries

end PostRunCommand

structure ModuleManifest where
  name : String
  modules : List Requirement := []
  types : List String := []
  arguments : List (String × Argument) := []
  postRunCommands : List PostRunCommand := []
  toolVersion : Option String := none
  deriving Repr, Inhabited

namespace ModuleManifest

/-- The items between commas, without surrounding blanks; blank items do not count. -/
def splitItems (s : String) : List String :=
  ((SemVer.splitAt ',' s.toList).map Text.trim).filterMap fun item =>
    if item.isEmpty then none else some (String.ofList item)

/-- Types come as a list or as one text with commas. -/
def readTypes : Value → Checked (List String)
  | .null => .ok []
  | .text s => .ok (splitItems s)
  | v => v.asList Value.asText

def read (v : Value) (depth : Nat := Nesting.limit) : Checked ModuleManifest :=
  v.asRecord fun entries =>
    mk <$> Checked.required "name" Value.asText entries
      <*> Checked.optional "modules" [] (Value.nullOr [] (Value.asList Requirement.read)) entries
      <*> Checked.optional "type" [] readTypes entries
      <*> Checked.optional "arguments" [] (Value.asEntries fun v => Argument.read v depth) entries
      <*> Checked.optionalEither "postRunCommand" "post_run_commands" []
        (Value.nullOr [] (Value.asList PostRunCommand.read)) entries
      <*> Checked.optionalEither "modforgeVersion" "modforge_version" none
        (Value.nullOr none fun v => some <$> v.asText) entries

/-- What is said when a module was imported under a name that it does not declare. -/
def nameMismatch (declared expected : String) : String :=
  "module declares its import path as " ++ Text.quote declared ++ " but was imported as " ++
    Text.quote expected

end ModuleManifest

end ModulePins
