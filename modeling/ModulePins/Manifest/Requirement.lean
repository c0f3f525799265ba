import ModulePins.Checked
import ModulePins.Manifest.ImportPath

/-!
# Requirements

A requirement asks for a module: by import path, or by the repository it lives in, which is the old
way. The version is a constraint or the name of a branch; the channel selects pre-releases or a
branch.
-/

namespace ModulePins

structure Requirement where
  name : String := ""
  version : String := ""
  channel : String := ""
  url : String := ""
  prerelease : Bool := false
  deriving DecidableEq, Repr, Inhabited

namespace Requirement

/-- The channel that the old pre-release mark stands for. -/
def prereleaseChannel : String := "rc"

/-- The channel of modules that ask for no other. -/
def stableChannel : String := "stable"

/-- The channel asked for, in the new or the old way. -/
def requestedChannel (r : Requirement) : String :=
  if r.channel ≠ "" then r.channel else if r.prerelease then prereleaseChannel else ""

def urlNotice (url : String) : Notice :=
  .warning ("Module url " ++ Text.quote url ++ " is deprecated, use name instead")

def unnamedReason : String :=
  "module entries require a name"

/-- Derives the name from the repository where there is none; every requirement has a name. -/
def complete (r : Requirement) : Checked Requirement :=
  if r.name ≠ "" then .ok r
  else if r.url = "" then Checked.complain (.refused unnamedReason)
  else
    { notices := [urlNotice r.url]
      outcome :=
        match ImportPath.ofUrl r.url with
        | .ok name => .ok { r with name }
        | .error fault => .error [{ complaint := .refused fault.message }] }

def read (v : Value) : Checked Requirement :=
  v.asRecord fun entries =>
    Checked.andThen (f := complete) <|
      mk <$> Checked.optional "name" "" Value.asText entries
        <*> Checked.optional "version" "" Value.asText entries
        <*> Checked.optional "channel" "" Value.asText entries
        <*> Checked.optional "url" "" Value.asText entries
        <*> Checked.optional "prerelease" false Value.asBool entries

end Requirement

end ModulePins
