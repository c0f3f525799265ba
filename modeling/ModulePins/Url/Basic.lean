import ModulePins.Text.LowerCase
import ModulePins.Text.Quoted
import ModulePins.Url.Address

/-!
# Locators and their parts

A locator is cut into scheme, authority, path, parameters, query and fragment. Cutting is lenient:
line ends and tabs are dropped, control characters and spaces in front are ignored, and what names
no scheme is all path. Only a malformed authority is a fault.
-/

namespace ModulePins

structure Url where
  scheme : List Char
  authority : List Char
  path : List Char
  params : List Char
  query : List Char
  fragment : List Char
  deriving DecidableEq, Repr, Inhabited

namespace Url

inductive Fault where
  | brackets
  | futureAddress
  | dottedInBrackets
  | notAnAddress (host : List Char)
  | authorityCharacters (authority : List Char)
  deriving DecidableEq, Repr

namespace Fault

def message : Fault → String
  | brackets => "Invalid IPv6 URL"
  | futureAddress => "IPvFuture address is invalid"
  | dottedInBrackets => "An IPv4 address cannot be in brackets"
  | notAnAddress host =>
    Text.quote (String.ofList host) ++ " does not appear to be an IPv4 or IPv6 address"
  | authorityCharacters authority =>
    "netloc '" ++ String.ofList authority ++
      "' contains invalid characters under NFKC normalization"

end Fault

/-- Everything before the first `mark`, and everything after it if there is one. -/
def cut (mark : Char) (cs : List Char) : List Char × List Char :=
  (cs.takeWhile (· != mark), (cs.dropWhile (· != mark)).drop 1)

/-- Everything before the last `mark`, and everything after it; without a mark all is after it. -/
def cutLast (mark : Char) (cs : List Char) : List Char × List Char :=
  let after := (cs.reverse.takeWhile (· != mark)).reverse
  (cs.take (cs.length - after.length - 1), after)

def isSchemeChar (c : Char) : Bool :=
  c.isAlphanum || c == '+' || c == '-' || c == '.'

/-- The scheme at the head of a locator, in lower case, and the rest. -/
def splitScheme (cs : List Char) : List Char × List Char :=
  let name := cs.takeWhile (· != ':')
  if name.length < cs.length && name.head?.any Char.isAlpha && name.all isSchemeChar then
    (name.map Char.toLower, cs.drop (name.length + 1))
  else ([], cs)

def splitAuthority (cs : List Char) : List Char × List Char :=
  match cs with
  | '/' :: '/' :: rest =>
    let ends := fun c : Char => c == '/' || c == '?' || c == '#'
    (rest.takeWhile (!ends ·), rest.dropWhile (!ends ·))
  | _ => ([], cs)

/-- Characters whose compatibility form holds one of the marks that end or divide an authority. -/
def disguisedMarks : List Nat :=
  [0x2047, 0x2048, 0x2049, 0x2100, 0x2101, 0x2105, 0x2106, 0x2A74, 0xFE13, 0xFE16, 0xFE55, 0xFE56,
    0xFE5F, 0xFE6B, 0xFF03, 0xFF0F, 0xFF1A, 0xFF1F, 0xFF20]

/-- The host between the first bracket and the bracket after it must be an address. -/
def checkBracketed (authority : List Char) : Except Fault Unit :=
  let host := (authority.dropWhile (· != '[')).drop 1 |>.takeWhile (· != ']')
  if host.head? == some 'v' then
    if isFutureAddress host then .ok () else .error .futureAddress
  else if isDotted host then .error .dottedInBrackets
  else if isColonAddress host then .ok ()
  else .error (.notAnAddress host)

def checkAuthority (authority : List Char) : Except Fault Unit :=
  if authority.contains '[' != authority.contains ']' then .error .brackets
  else if authority.contains '[' then checkBracketed authority
  else .ok ()

def checkCharacters (authority : List Char) : Except Fault Unit :=
  if authority.any fun c => disguisedMarks.contains c.toNat then
    .error (.authorityCharacters authority)
  else .ok ()

/-- Schemes whose last path segment may carry parameters. -/
def schemesWithParams : List String :=
  ["", "ftp", "hdl", "prospero", "http", "https", "shttp", "rtsp", "rtsps", "rtspu", "sip", "sips",
    "mms", "sftp", "tel"]

/-- Divides the parameters from the last segment of a path. -/
def splitParams (path : List Char) : List Char × List Char :=
  let last := (path.reverse.takeWhile (· != '/')).reverse
  let first := path.take (path.length - last.length)
  if last.contains ';' then (first ++ (cut ';' last).1, (cut ';' last).2) else (path, [])

def split (cs : List Char) : Except Fault Url := do
  let cs := (cs.dropWhile fun c => c.toNat ≤ 0x20).filter fun c => c != '\t' && c != '\r' && c != '\n'
  let (scheme, rest) := splitScheme cs
  let (authority, rest) := splitAuthority rest
  checkAuthority authority
  let (rest, fragment) := cut '#' rest
  let (path, query) := cut '?' rest
  checkCharacters authority
  let (path, params) :=
    if schemesWithParams.contains (String.ofList scheme) then splitParams path else (path, [])
  return { scheme, authority, path, params, query, fragment }

/-- The host of an authority: in lower case, but for the zone of an address. -/
def host (url : Url) : List Char :=
  let place := (cutLast '@' url.authority).2
  let name :=
    if place.contains '[' then (cut ']' (cut '[' place).2).1 else (cut ':' place).1
  let address := name.takeWhile (· != '%')
  (Text.lower (String.ofList address)).toList ++ name.drop address.length

end Url

end ModulePins
