import ModulePins.Manifest.Requirement

/-!
# Projects

The manifest of a generated project: the modules it is made of, the values for their arguments, and
other places to fetch modules from. The name of a project ends up in paths and identifiers, so it
is plain ASCII in lower case.
-/

namespace ModulePins

structure Project where
  name : String
  modules : List Requirement := []
  versions : List (String × String) := []
  arguments : List (String × Value) := []
  replacements : List (String × String) := []
  deriving Repr, Inhabited

namespace Project

def fileName : String := "modforge.yaml"

def startsName (c : Char) : Bool :=
  c == '_' || c.isLower

def continuesName (c : Char) : Bool :=
  c == '_' || c == '-' || c.isLower || c.isDigit

/-- Whether a name is allowed; one line end after it is tolerated. -/
def isName (name : String) : Bool :=
  match name.toList with
  | [] => false
  | c :: rest =>
    startsName c && ((rest.dropWhile continuesName).isEmpty || rest.dropWhile continuesName == ['\n'])

def checkName (v : Value) : Checked String :=
  v.asText.andThen fun name =>
    if isName name then .ok name
    else
      Checked.complain
        (.refused ("name " ++ Text.quote name ++ " must match ^[_a-z][_a-z0-9-]*$"))

def read (v : Value) : Checked Project :=
  v.asRecord fun entries =>
    mk <$> Checked.required "name" checkName entries
      <*> Checked.optional "modules" [] (Value.nullOr [] (Value.asList Requirement.read)) entries
      <*> Checked.optional "versions" [] (Value.nullOr [] (Value.asEntries Value.asText)) entries
      <*> Checked.optional "arguments" [] (Value.nullOr [] (Value.asEntries Checked.ok)) entries
      <*> Checked.optional "replacements" [] (Value.nullOr [] (Value.asEntries Value.asText)) entries

def prereleaseNotice : Notice :=
  .warning
    ("--use-prerelease is deprecated, set 'rc' as the channel on each module in " ++ fileName ++
      " instead")

/-- Moves every module onto the pre-release channel. -/
def usePrerelease (p : Project) : Project :=
  { p with
    modules := p.modules.map fun r =>
      { r with channel := Requirement.prereleaseChannel, version := "" } }

end Project

end ModulePins
