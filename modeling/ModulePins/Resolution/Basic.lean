import ModulePins.Manifest.Requirement

/-!
# Picks, pins and demands

A pick is a version chosen for a repository. A pinned module is a module with its repository and
pick. A demand is what one parent asked of a module; the demands on a module, oldest first, are its
history.
-/

namespace ModulePins

/-- A version picked for a repository. A mutable pick is a branch or another tag that moves. -/
structure Pick where
  tag : String
  mutable : Bool := false
  deriving DecidableEq, Repr, Inhabited

structure PinnedModule where
  name : String
  uri : String
  version : String
  mutable : Bool := false
  deriving DecidableEq, Repr, Inhabited

namespace PinnedModule

def label (m : PinnedModule) : String :=
  m.name ++ "@" ++ m.version

def pick (m : PinnedModule) : Pick :=
  { tag := m.version, mutable := m.mutable }

end PinnedModule

/-- What one parent asked of a module. -/
structure Demand where
  constraint : String
  channel : String
  parent : String
  deriving DecidableEq, Repr, Inhabited

namespace Demand

def wants (d : Demand) : String :=
  if d.constraint ≠ "" then d.constraint
  else if d.channel ≠ "" then "(channel) " ++ d.channel
  else "*"

/-- Whether a channel is anything but the stable one. -/
def isOffStable (channel : String) : Bool :=
  channel ≠ "" && channel ≠ Requirement.stableChannel

end Demand

abbrev History := List Demand

namespace History

/-- The first demand for a channel other than the stable one. -/
def pinning? (history : History) : Option Demand :=
  history.find? fun d => Demand.isOffStable d.channel

/-- The channel that the history pins. -/
def channel (history : History) : String :=
  (history.pinning?.map Demand.channel).getD ""

def constraints (history : History) : List String :=
  (history.map Demand.constraint).filter (· ≠ "")

/-- One line per demand, each two spaces deeper than the one before. -/
def linesFrom : Nat → History → List String
  | _, [] => []
  | depth, d :: rest =>
    ("".pushn ' ' (2 * depth) ++ "└─ " ++ d.parent ++ " wants " ++ d.wants) ::
      linesFrom (depth + 1) rest

def text (history : History) : String :=
  "\n".intercalate (linesFrom 0 history)

end History

/-- What a version is to be picked by. -/
structure Query where
  url : String
  channel : String := ""
  constraints : List String := []
  allowBranches : Bool := true
  deriving DecidableEq, Repr, Inhabited

end ModulePins
