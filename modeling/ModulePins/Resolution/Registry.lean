import ModulePins.Failure

/-!
# Registries

A registry knows the tags of repositories and the branches that stand for their channels. A channel
with a branch is served by the branch; otherwise the highest tag that satisfies all constraints is
picked. Without channel and constraints pre-releases are not considered.
-/

namespace ModulePins

/-- The branch that serves a channel of a repository. -/
structure Branch where
  url : String
  channel : String
  name : String
  deriving DecidableEq, Repr, Inhabited

/-- Tags by repository, and branches; a later branch replaces an earlier one for its channel. -/
structure Registry where
  tags : List (String × List String) := []
  branches : List Branch := []
  deriving Repr, Inhabited

namespace Registry

def tagsOf (r : Registry) (url : String) : List String :=
  (r.tags.lookup url).getD []

def branch? (r : Registry) (url channel : String) : Option String :=
  (r.branches.reverse.find? fun b => b.url == url && b.channel == channel).map Branch.name

structure Candidate where
  version : SemVer
  tag : String
  deriving DecidableEq, Repr

/-- Whether a version may be picked at all for a query with these constraints. -/
def isEligible (q : Query) (constraints : List Constraint) (v : SemVer) : Bool :=
  !(v.isPrerelease && q.channel == "" && constraints.isEmpty) && constraints.all (·.admits v)

/-- The tags that may be picked, in the order listed. -/
def candidates (r : Registry) (q : Query) (constraints : List Constraint) : List Candidate :=
  (r.tagsOf q.url).filterMap fun tag =>
    match SemVer.read? tag with
    | some version => if isEligible q constraints version then some ⟨version, tag⟩ else none
    | none => none

/-- Whether `d` displaces `c`: by precedence, or by tag when both name one version. -/
def displaces (d c : Candidate) : Bool :=
  if c.version = d.version then c.tag < d.tag else c.version.precedes d.version

/-- The candidate that no later one displaces. -/
def highest : List Candidate → Option Candidate
  | [] => none
  | first :: rest => some (rest.foldl (fun best d => if displaces d best then d else best) first)

def readConstraint (text : String) : Except Failure Constraint :=
  match Constraint.read text with
  | .ok c => .ok c
  | .error .notARange => .error (.accident (.badConstraint text))
  | .error .brokenEnd => .error (.accident .brokenRange)

def pick (r : Registry) (q : Query) : Except Failure Pick :=
  match if q.allowBranches then r.branch? q.url q.channel else none with
  | some name => .ok { tag := name, mutable := true }
  | none => do
    let constraints ← q.constraints.mapM readConstraint
    match highest (r.candidates q constraints) with
    | some best => return { tag := best.tag }
    | none => .error (.versionNotFound ("no version found matching criteria for " ++ q.url))

end Registry

end ModulePins
