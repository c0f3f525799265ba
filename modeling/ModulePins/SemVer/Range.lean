import ModulePins.SemVer.Basic

/-!
# Version ranges

A range is a choice of groups, and a group is a list of comparators that must all hold. A comparator
is kept as it was written; `Comparator.clauses` gives the plain bounds it stands for.

Pre-releases are admitted sparingly: a bound admits a pre-release only of the same triple as its own
version. A group that names pre-releases has a second reading in which these bounds also confine the
version to the patch or minor line they name.
-/

namespace ModulePins

inductive Operator where
  | lt | le | gt | ge | eq | tilde | caret
  deriving DecidableEq, Repr

/-- How much of a version a comparator names. -/
inductive Operand where
  | any
  | majorLine (major : Nat)
  | minorLine (major minor : Nat)
  | full (version : SemVer)
  deriving DecidableEq, Repr

structure Comparator where
  operator : Operator
  operand : Operand
  deriving DecidableEq, Repr

inductive Relation where
  | lt | le | gt | ge | eq
  deriving DecidableEq, Repr

structure Clause where
  relation : Relation
  target : SemVer
  deriving DecidableEq, Repr

namespace Clause

/-- The relation alone, by precedence; an exact bound that names a build asks for that build. -/
def holds (c : Clause) (v : SemVer) : Bool :=
  match c.relation with
  | .lt => v.precedence c.target == .lt
  | .le => v.precedence c.target != .gt
  | .gt => v.precedence c.target == .gt
  | .ge => v.precedence c.target != .lt
  | .eq =>
    v.withoutBuild == c.target.withoutBuild && (c.target.build.isEmpty || v.build == c.target.build)

/-- A pre-release is only admitted by a bound on its own triple. -/
def admits (c : Clause) (v : SemVer) : Bool :=
  (!v.isPrerelease || v.core == c.target.core) && c.holds v

/-- The line a bound on a pre-release confines the version to. -/
def confines (c : Clause) (v : SemVer) : Bool :=
  match c.relation with
  | .gt | .ge => v.precedes c.target.bumpPatch
  | .lt | .le => !v.precedes (.release c.target.major c.target.minor 0)
  | .eq => true

def released (c : Clause) : Clause :=
  if c.target.isPrerelease then { c with target := c.target.core } else c

end Clause

namespace Comparator

/-- The first version above the line or caret range of an operand. -/
def caretEnd : Operand → SemVer
  | .any => .release 1 0 0
  | .majorLine major => .release (major + 1) 0 0
  | .minorLine major minor =>
    if major ≠ 0 then .release (major + 1) 0 0 else .release 0 (minor + 1) 0
  | .full v =>
    if v.major ≠ 0 then .release (v.major + 1) 0 0
    else if v.minor ≠ 0 then .release 0 (v.minor + 1) 0
    else .release 0 0 (v.patch + 1)

/-- The first version after the line an operand names. -/
def lineEnd : Operand → SemVer
  | .any => .release 1 0 0
  | .majorLine major => .release (major + 1) 0 0
  | .minorLine major minor => .release major (minor + 1) 0
  | .full v => v.nextMinor

def lineStart : Operand → SemVer
  | .any => .release 0 0 0
  | .majorLine major => .release major 0 0
  | .minorLine major minor => .release major minor 0
  | .full v => v

def clauses (c : Comparator) : List Clause :=
  let first := lineStart c.operand
  match c.operator, c.operand with
  | _, .any => [⟨.ge, first⟩]
  | .caret, operand => [⟨.ge, first⟩, ⟨.lt, caretEnd operand⟩]
  | .tilde, operand => [⟨.ge, first⟩, ⟨.lt, lineEnd operand⟩]
  | .eq, .full v => [⟨.eq, v⟩]
  | .eq, operand => [⟨.ge, first⟩, ⟨.lt, lineEnd operand⟩]
  | .gt, .full v => [⟨.gt, v⟩]
  | .gt, operand => [⟨.ge, lineEnd operand⟩]
  | .le, .full v => [⟨.le, v⟩]
  | .le, operand => [⟨.lt, lineEnd operand⟩]
  | .lt, _ => [⟨.lt, first⟩]
  | .ge, _ => [⟨.ge, first⟩]

end Comparator

/-- Comparators that must all hold. -/
structure Group where
  comparators : List Comparator
  deriving DecidableEq, Repr

namespace Group

/-- The group that admits every release. -/
def everything : Group :=
  ⟨[⟨.ge, .any⟩]⟩

def clauses (g : Group) : List Clause :=
  g.comparators.flatMap Comparator.clauses

/-- The reading for versions near the pre-releases the group names. -/
def admitsNearPrerelease (g : Group) (v : SemVer) : Bool :=
  let named := g.clauses.filter (·.target.isPrerelease)
  !named.isEmpty && named.all fun c => c.confines v && c.admits v

/-- The reading with all pre-releases cut off. -/
def admitsReleased (g : Group) (v : SemVer) : Bool :=
  g.clauses.all fun c => c.released.admits v

def admits (g : Group) (v : SemVer) : Bool :=
  g.admitsNearPrerelease v || g.admitsReleased v

end Group

structure Range where
  groups : List Group
  deriving DecidableEq, Repr

/-- Any group is enough. -/
def Range.admits (r : Range) (v : SemVer) : Bool :=
  r.groups.any (·.admits v)

end ModulePins
