/-!
# Semantic versions

A version is a release triple with optional pre-release and build identifiers. Equality compares all
five parts; precedence ignores the build. Pre-release identifiers are numbers or words: numbers come
before words, a list comes after its proper beginnings, and a release comes after its pre-releases.
-/

namespace ModulePins

/-- One dot-separated identifier of a pre-release. -/
inductive Identifier where
  | numeric (n : Nat)
  | word (text : String)
  deriving DecidableEq, Repr, Inhabited

namespace Identifier

def text : Identifier → String
  | numeric n => toString n
  | word t => t

/-- Numbers by value, words by code point, every number before every word. -/
def order : Identifier → Identifier → Ordering
  | numeric m, numeric n => compare m n
  | numeric _, word _ => .lt
  | word _, numeric _ => .gt
  | word s, word t => compare s t

instance : Ord Identifier := ⟨order⟩

end Identifier

structure SemVer where
  major : Nat
  minor : Nat
  patch : Nat
  prerelease : List Identifier := []
  build : List String := []
  deriving DecidableEq, Repr, Inhabited

namespace SemVer

def release (major minor patch : Nat) : SemVer :=
  { major, minor, patch }

/-- The release triple alone. -/
def core (v : SemVer) : SemVer :=
  release v.major v.minor v.patch

def withoutBuild (v : SemVer) : SemVer :=
  { v with build := [] }

def isPrerelease (v : SemVer) : Bool :=
  !v.prerelease.isEmpty

/-- The first release of the next minor line; a pre-release of `x.y.0` belongs before its own
line. -/
def nextMinor (v : SemVer) : SemVer :=
  if v.isPrerelease && v.patch == 0 then release v.major v.minor 0
  else release v.major (v.minor + 1) 0

/-- The release after the triple of `v`. -/
def bumpPatch (v : SemVer) : SemVer :=
  release v.major v.minor (v.patch + 1)

/-- A release comes after its pre-releases; pre-releases compare as lists of identifiers. -/
def prereleaseOrder : List Identifier → List Identifier → Ordering
  | [], [] => .eq
  | [], _ :: _ => .gt
  | _ :: _, [] => .lt
  | p :: ps, q :: qs => compare (p :: ps) (q :: qs)

/-- Precedence: the triple decides, then the pre-release. The build has no say. -/
def precedence (v w : SemVer) : Ordering :=
  (compare v.major w.major).then <| (compare v.minor w.minor).then <|
    (compare v.patch w.patch).then <| prereleaseOrder v.prerelease w.prerelease

/-- `v.precedes w` when `v` has lower precedence than `w`. -/
def precedes (v w : SemVer) : Bool :=
  precedence v w == .lt

def text (v : SemVer) : String :=
  let triple := toString v.major ++ "." ++ toString v.minor ++ "." ++ toString v.patch
  let pre := if v.prerelease.isEmpty then "" else
    "-" ++ ".".intercalate (v.prerelease.map Identifier.text)
  let build := if v.build.isEmpty then "" else "+" ++ ".".intercalate v.build
  triple ++ pre ++ build

end SemVer

end ModulePins
