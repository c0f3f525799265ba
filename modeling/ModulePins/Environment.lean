import ModulePins.File.Path
import ModulePins.Ledger
import ModulePins.Nesting
import ModulePins.Text.Blank

/-!
# The environment

Variables of the process, the folder it works in and whether a person sits at its terminal. They
decide where the cache lies, which folders bare paths lead to, which token is used and whether
questions can be asked. The process also bounds how deeply brackets may be nested.
-/

namespace ModulePins

structure Environment where
  «variables» : Ledger String := {}
  terminal : Bool := false
  folder : Path := .top
  depth : Nat := Nesting.limit
  deriving Repr, Inhabited

namespace Environment

/-- The value of a variable; one that is empty counts as not set. -/
def value? (env : Environment) (name : String) : Option String :=
  (env.«variables».get? name).filter (· ≠ "")

/-- Variables that mark automatic builds, where nobody answers. -/
def automationMarks : List String :=
  ["CI", "GITHUB_ACTIONS", "JENKINS_HOME", "GITLAB_CI", "CIRCLECI", "TRAVIS", "BUILDKITE"]

def isInteractive (env : Environment) : Bool :=
  env.terminal && automationMarks.all fun name => (env.value? name).isNone

def nonBlank? (s : String) : Option String :=
  let s := Text.trimmed s
  if s = "" then none else some s

/-- The token for the release service: the given one, or the first variable that holds one. -/
def token? (env : Environment) (given : Option String) : Option String :=
  [given, env.value? "GH_TOKEN", env.value? "GITHUB_TOKEN"].findSome? fun candidate =>
    candidate.bind nonBlank?

/-- The home folder of the user, without slashes at its end. -/
def home (env : Environment) : List Char :=
  (((env.«variables».get? "HOME").getD "").toList.reverse.dropWhile (· == '/')).reverse

/-- The folder of the cache: the one asked for, or the usual place below the user's caches. -/
def cacheFolder (env : Environment) : Path :=
  match env.value? "MODFORGE_CACHE_DIR" with
  | some folder => Path.read folder.toList
  | none =>
    let caches :=
      match (env.value? "XDG_CACHE_HOME").filter fun s => (nonBlank? s).isSome with
      | some folder => folder.toList
      | none => env.home ++ "/.cache".toList
    Path.read (caches ++ "/modforge".toList)

end Environment

end ModulePins
