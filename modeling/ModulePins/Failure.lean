import ModulePins.Json.Encoding
import ModulePins.Manifest.Module
import ModulePins.Resolution.Basic
import ModulePins.SemVer.Constraint
import ModulePins.Yaml.Fault

/-!
# Failures

Everything that can end a run. The library's own failures say what is wrong with the project, its
modules or its lockfile; accidents are what may go wrong around them, such as files that cannot be
read or answers that never come.
-/

namespace ModulePins

/-- What a file system refuses. -/
inductive FileFault where
  | notFound (path : String)
  | notADirectory (path : String)
  | isADirectory (path : String)
  | cannotReplace (source target : String)
  | other (text : String)
  deriving DecidableEq, Repr

namespace FileFault

def message : FileFault → String
  | notFound path => "[Errno 2] No such file or directory: " ++ Text.quote path
  | notADirectory path => "[Errno 20] Not a directory: " ++ Text.quote path
  | isADirectory path => "[Errno 21] Is a directory: " ++ Text.quote path
  | cannotReplace source target =>
    "[Errno 21] Is a directory: " ++ Text.quote source ++ " -> " ++ Text.quote target
  | other text => text

end FileFault

/-- What may go wrong around the library. -/
inductive Accident where
  | file (fault : FileFault)
  | undecodable (fault : Json.EncodingFault)
  | tooDeep (overflow : Overflow)
  | brokenRange
  | badConstraint (text : String)
  | unhashableKey (kind : String)
  | badValue (text : String)
  | badUrl (text : String)
  | unencodable (text : String) (first last : Nat)
  | endOfInput (text : String)
  | aborted
  | runtime (text : String)
  | badRecord (title : String) (issues : List Issue)
  | badScalar (fault : Yaml.Fault)
  deriving DecidableEq, Repr

namespace Accident

def escapeUnit (c : Char) : List Char :=
  let n := c.toNat
  if n < 0x100 then '\\' :: 'x' :: Text.hexDigits 2 n
  else if n < 0x10000 then '\\' :: 'u' :: Text.hexDigits 4 n
  else '\\' :: 'U' :: Text.hexDigits 8 n

def message : Accident → String
  | file fault => fault.message
  | undecodable fault => fault.message
  | tooDeep overflow => overflow.message
  | brokenRange => "'NoneType' object has no attribute 'groups'"
  | badConstraint text => Constraint.faultMessage text
  | unhashableKey kind => "unhashable type: '" ++ kind ++ "'"
  | badValue text => text
  | badUrl text => text
  | unencodable text first last =>
    "'ascii' codec can't encode character" ++
      (if first = last then
        " '" ++ String.ofList (((text.toList.drop first).take 1).flatMap escapeUnit) ++
          "' in position " ++ toString first
      else "s in position " ++ toString first ++ "-" ++ toString last) ++
      ": ordinal not in range(128)"
  | endOfInput text => text
  | aborted => ""
  | runtime text => text
  | badRecord title issues =>
    toString issues.length ++ " validation error" ++ (if issues.length = 1 then "" else "s") ++
      " for " ++ title
  | badScalar fault => fault.message

/-- What becomes of a value that cannot be shown. -/
def ofUnshown : Value.Unshown → Accident
  | .longNumber => .badValue Text.longNumber
  | .tooDeep => .tooDeep .showing

end Accident

/-- What is wrong with a manifest, a lockfile or a constraint in one of them. -/
inductive ManifestFault where
  | unreadable (subject : String)
  | invalid (subject : String) (issues : List Issue)
  | wrongName (declared expected : String)
  | arguments (moduleName : String) (problems : List Argument.Problem)
  | toolVersion (version : String)
  | toolConstraint (constraint moduleName reason : String)
  | other (text : String)
  deriving Repr

namespace ManifestFault

def message : ManifestFault → String
  | unreadable subject => "Failed to parse " ++ subject
  | invalid subject _ => "Invalid " ++ subject
  | wrongName declared expected => ModuleManifest.nameMismatch declared expected
  | arguments moduleName problems => Argument.report moduleName problems
  | toolVersion version =>
    "failed to parse modforge version " ++ Text.quote version ++ ": invalid version: " ++
      Text.quote version
  | toolConstraint constraint moduleName reason =>
    "failed to parse modforgeVersion constraint " ++ Text.quote constraint ++ " of module " ++
      moduleName ++ ": " ++ reason
  | other text => text

end ManifestFault

inductive Failure where
  | manifest (fault : ManifestFault)
  | constraintConflict (moduleName : String) (history : History)
  | channelConflict (moduleName previousChannel previousParent channel parent : String)
      (history : History)
  | lockfileRequired
  | missingFromLock (reasons : List String)
  | localReplacement (moduleName url : String)
  | upgradeRejected (moduleName fromVersion toVersion reason : String)
  | collaborator (moduleName action detail : String)
  | versionNotFound (text : String)
  | toolVersionMismatch (moduleName toolVersion constraint : String)
  | notesUnavailable (text : String)
  | unresolved (text : String)
  | other (text : String)
  | accident (cause : Accident)
  deriving Repr

namespace Failure

def message : Failure → String
  | manifest fault => fault.message
  | constraintConflict moduleName history =>
    "failed to resolve module '" ++ moduleName ++ "' with constraints\n" ++ history.text
  | channelConflict moduleName previousChannel previousParent channel parent _ =>
    "unable to resolve module " ++ moduleName ++ ": module was previously resolved with channel " ++
      previousChannel ++ " (parent: " ++ previousParent ++ "), but now requires channel " ++
      channel ++ " (parent: " ++ parent ++ ")"
  | lockfileRequired => "frozen lockfile requires a lockfile to exist"
  | missingFromLock reasons =>
    "frozen lockfile is missing " ++ toString reasons.length ++ " module(s):\n" ++
      "\n".intercalate (reasons.map fun reason => "  - " ++ reason)
  | localReplacement moduleName url =>
    "cannot use frozen lockfile for file dependency " ++ Text.quote moduleName ++ " (" ++ url ++
      "), re-add the replacement or run without --frozen-lockfile"
  | upgradeRejected moduleName fromVersion toVersion reason =>
    "major version upgrade of " ++ Text.quote moduleName ++ " (" ++ fromVersion ++ " -> " ++
      toVersion ++ ") was not applied: " ++ reason
  | collaborator moduleName action detail =>
    "failed to " ++ action ++ " for module " ++ Text.quote moduleName ++
      (if detail = "" then "" else "\n" ++ detail)
  | versionNotFound text => text
  | toolVersionMismatch moduleName toolVersion constraint =>
    "modforge version " ++ toolVersion ++ " does not match the version constraint (" ++
      constraint ++ ") for " ++ moduleName
  | notesUnavailable text => text
  | unresolved text => text
  | other text => text
  | accident cause => cause.message

/-- The failure to settle the arguments of a module. At a value that cannot be shown the check
breaks off, and no problem is reported. -/
def ofProblems (moduleName : String) (problems : List Argument.Problem) : Failure :=
  match problems.findSome? Argument.Problem.unshown? with
  | some reason => .accident (.ofUnshown reason)
  | none => .manifest (.arguments moduleName problems)

/-- Passes on the library's own failures and lets `f` name the cause of accidents. -/
def orAccident (f : Accident → Failure) : Failure → Failure
  | accident cause => f cause
  | failure => failure

end Failure

def Argument.settle (supplied : List (String × Value)) (declared : List (String × Argument))
    (moduleName : String) (depth : Nat := Nesting.limit) : Except Failure (List (String × Value)) :=
  (resolve supplied declared depth).mapError (Failure.ofProblems moduleName)

/-- What came of something that may fail, and the notices given on the way. -/
structure Report (α : Type) where
  outcome : Except Failure α
  notices : List Notice := []

namespace Report

variable {α β : Type}

def ok (a : α) : Report α :=
  { outcome := .ok a }

def fail (failure : Failure) : Report α :=
  { outcome := .error failure }

/-- Goes on with the result, if there is one; notices come first who came first. -/
def andThen (x : Report α) (f : α → Report β) : Report β :=
  match x.outcome with
  | .error failure => { outcome := .error failure, notices := x.notices }
  | .ok a => { outcome := (f a).outcome, notices := x.notices ++ (f a).notices }

instance : Monad Report where
  pure := ok
  bind := andThen

instance : MonadExceptOf Failure Report where
  throw := fail
  tryCatch x f :=
    match x.outcome with
    | .error failure =>
      { outcome := (f failure).outcome, notices := x.notices ++ (f failure).notices }
    | .ok _ => x

def tell (notice : Notice) : Report Unit :=
  { outcome := .ok (), notices := [notice] }

end Report

end ModulePins
