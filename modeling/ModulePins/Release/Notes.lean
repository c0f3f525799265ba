import ModulePins.Environment
import ModulePins.Failure
import ModulePins.Release.Locator

/-!
# Release notes

The notes of a release are asked of the release service of the host that keeps the repository.
Redirections are followed for a while; a token is not passed on to other services.
-/

namespace ModulePins.Release

structure Request where
  locator : Locator
  accept : String := "application/vnd.github+json"
  authorization : Option String
  deriving DecidableEq, Repr

structure Response where
  status : Nat
  location : Option String := none
  body : List UInt8 := []
  deriving DecidableEq, Repr, Inhabited

/-- Why there is no response: the service gives none, or a redirection leads nowhere. -/
inductive Fault where
  | unanswered (reason : String)
  | badTarget (fault : Locator.Fault)
  deriving DecidableEq, Repr

/-- Answers requests or says why there is no answer. The state is whatever lies behind. -/
abbrev Service (σ : Type) := Request → StateM σ (Except String Response)

def serviceUrl : String :=
  "https://api.github.com"

def maxRedirects : Nat := 20

/-- The address of a release; the import path of a module names host, owner and repository. -/
def address? (moduleName tag : String) : Option String :=
  match SemVer.splitAt '/' moduleName.toList with
  | _ :: owner :: repository :: _ =>
    some (serviceUrl ++ "/repos/" ++ String.ofList owner ++ "/" ++ String.ofList repository ++
      "/releases/tags/" ++ tag)
  | _ => none

def isRedirect (r : Response) : Bool :=
  [301, 302, 303, 307, 308].contains r.status && r.location.isSome

/-- A redirection that names a service but no host stays with the host that gave it. -/
def keepHost (from_ next : Locator) : Except Locator.Fault Locator :=
  if next.scheme.isEmpty || !next.host.isEmpty then .ok next
  else if !next.path.isEmpty && next.path.head? != some '/' then .error .rootlessPath
  else .ok { next with host := from_.host }

def target (from_ : Locator) (location : String) : Except Fault Locator := do
  let next ←
    (Locator.read location.toList).mapError fun fault =>
      .unanswered ("Invalid URL in location header: " ++ fault.message ++ ".")
  let next ← (keepHost from_ next).mapError .badTarget
  let next := if next.isRelative then from_.beside next else next
  let kept := from_.fragment.filter (!·.isEmpty)
  return if (next.fragment.filter (!·.isEmpty)).isNone && kept.isSome then { next with fragment := kept }
    else next

def redirect (request : Request) (location : String) : Except Fault Request := do
  let next ← target request.locator location
  let trusted := request.locator.sameOrigin next || request.locator.isSecured next
  return { request with
    locator := next
    authorization := if trusted then request.authorization else none }

variable {σ : Type}

/-- Sends a request and follows up to `redirects` redirections. -/
def send (service : Service σ) : Nat → Request → StateM σ (Except Fault Response)
  | redirects, request => do
    match ← service request with
    | .error reason => return .error (.unanswered reason)
    | .ok response =>
      if isRedirect response then
        match redirect request (response.location.getD "") with
        | .error fault => return .error fault
        | .ok next =>
          match redirects with
          | 0 => return .error (.unanswered "Exceeded maximum allowed redirects.")
          | redirects + 1 => send service redirects next
      else return .ok response

def readNotes (depth : Nat) (address : String) (response : Response) : Except Failure String :=
  if response.status ≠ 200 then
    .error (.notesUnavailable
      ("GitHub API returned " ++ toString response.status ++ " for " ++ address))
  else
    match Json.readBytes depth response.body with
    | .error (.content (.tooDeep overflow)) => .error (.accident (.tooDeep overflow))
    | .error fault =>
      .error (.notesUnavailable
        ("failed to parse release JSON from " ++ address ++ ": " ++ fault.message))
    | .ok (.mapping entries) =>
      match Value.field? entries "body" with
      | some (.text notes) => .ok notes
      | _ => .ok ""
    | .ok v =>
      .error (.notesUnavailable
        ("unexpected release payload from " ++ address ++ ": " ++ v.kindName))

/-- The header that carries a token, which must be plain ASCII. -/
def authorization (token : String) : Except Failure String :=
  let header := "Bearer " ++ token
  let plain := header.toList.takeWhile fun c => c.toNat < 0x80
  let strange := (header.toList.drop plain.length).takeWhile fun c => 0x80 ≤ c.toNat
  if strange.isEmpty then .ok header
  else
    .error (.accident (.unencodable header plain.length (plain.length + strange.length - 1)))

def fetchNotes (service : Service σ) (env : Environment) (moduleName tag : String)
    (token : Option String) : StateM σ (Except Failure String) := do
  match address? moduleName tag with
  | none =>
    return .error (.notesUnavailable ("unsupported module for release notes: " ++ moduleName))
  | some address =>
    match Locator.read address.toList, (env.token? token).mapM authorization with
    | .error fault, _ => return .error (.accident (.badUrl fault.message))
    | .ok _, .error failure => return .error failure
    | .ok locator, .ok authorization =>
      match ← send service maxRedirects { locator, authorization } with
      | .error (.unanswered reason) =>
        return .error (.notesUnavailable ("failed to fetch " ++ address ++ ": " ++ reason))
      | .error (.badTarget fault) => return .error (.accident (.badUrl fault.message))
      | .ok response => return readNotes env.depth address response

end ModulePins.Release
