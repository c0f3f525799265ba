import ModulePins.SemVer.Reader
import ModulePins.Url.Basic
import ModulePins.Url.Percent

/-!
# Locators of requests

Before a request is sent its locator is brought into a normal form: scheme and host in lower case,
no default port, no dot segments in the path, and percent triples for all characters that may not
stand for themselves. Triples that are there already are kept, and so is a lone percent sign.
-/

namespace ModulePins

/-- A locator in normal form. A query or fragment may be present and empty. -/
structure Locator where
  scheme : List Char
  userInfo : List Char
  host : List Char
  port : Option Nat
  path : List Char
  query : Option (List Char)
  fragment : Option (List Char)
  deriving DecidableEq, Repr, Inhabited

namespace Locator

inductive Fault where
  | tooLong
  | unprintable (c : Char) (position : Nat)
  | badPort (port : List Char)
  | notDotted (host : List Char)
  | notColonAddress (host : List Char)
  | rootlessPath
  | slashedPath
  | colonPath
  deriving DecidableEq, Repr

namespace Fault

def message : Fault → String
  | tooLong => "URL too long"
  | unprintable c position =>
    "Invalid non-printable ASCII character in URL, " ++ Text.quote (String.singleton c) ++
      " at position " ++ toString position ++ "."
  | badPort port => "Invalid port: " ++ Text.quote (String.ofList port)
  | notDotted host => "Invalid IPv4 address: " ++ Text.quote (String.ofList host)
  | notColonAddress host => "Invalid IPv6 address: " ++ Text.quote (String.ofList host)
  | rootlessPath => "For absolute URLs, path must be empty or begin with '/'"
  | slashedPath => "Relative URLs cannot have a path starting with '//'"
  | colonPath => "Relative URLs cannot have a path starting with ':'"

end Fault

def maxLength : Nat := 65536

def isPrintableBut (except : List Char) (c : Char) : Bool :=
  0x20 < c.toNat && c.toNat < 0x7F && !except.contains c

def staysInFragment : Char → Bool :=
  isPrintableBut ['"', '<', '>', Char.ofNat 0x60]

def staysInQuery : Char → Bool :=
  isPrintableBut ['"', '#', '<', '>']

def staysInPath : Char → Bool :=
  isPrintableBut ['"', '#', '<', '>', '?', Char.ofNat 0x60, '\x7b', '\x7d']

def staysInUserInfo (c : Char) : Bool :=
  isPrintableBut
    ['"', '#', '<', '>', '?', Char.ofNat 0x60, '\x7b', '\x7d', '/', ':', ';', '=', '@', '[', '\\', ']',
      '^', '|'] c || c == ':'

def staysInHost (c : Char) : Bool :=
  isPrintableBut ['#', '/', ':', '<', '>', '?', '@', '[', ']', '^'] c

/-- The first control character of ASCII, and its position. -/
def unprintable? (cs : List Char) : Option (Char × Nat) :=
  let bad := fun c : Char => c.toNat < 0x20 || c.toNat == 0x7F
  (cs.find? bad).map fun c => (c, cs.findIdx bad)

/-- Walks segments, with those kept so far in reverse: a dot is dropped, a double dot takes back the
segment before it. -/
def dropDots (kept : List (List Char)) : List (List Char) → List (List Char)
  | [] => kept.reverse
  | segment :: rest =>
    if segment == ['.'] then dropDots kept rest
    else if segment == ['.', '.'] then
      dropDots (if kept == [[]] then kept else kept.drop 1) rest
    else dropDots (segment :: kept) rest

def normalPath (cs : List Char) : List Char :=
  ['/'].intercalate (dropDots [] (SemVer.splitAt '/' cs))

/-- The ports that schemes imply. -/
def defaultPort? (scheme : List Char) : Option Nat :=
  [("ftp", 21), ("http", 80), ("https", 443), ("ws", 80), ("wss", 443)].lookup (String.ofList scheme)

def readPort (scheme cs : List Char) : Except Fault (Option Nat) :=
  if cs.isEmpty then .ok none
  else if cs.all Text.isDecimal then
    let port := Text.digitsValue cs
    .ok (if defaultPort? scheme = some port then none else some port)
  else .error (.badPort cs)

/-- Everything up to `mark`, and what follows it if it is there. -/
def cutAt (mark : Char) (cs : List Char) : List Char × Option (List Char) :=
  if cs.contains mark then ((Url.cut mark cs).1, some (Url.cut mark cs).2) else (cs, none)

def splitHost (cs : List Char) : List Char × List Char :=
  if cs.head? == some '[' && cs.contains ']' then
    let host := (Url.cutLast ']' cs).1 ++ [']']
    match cs.drop host.length with
    | ':' :: port => (host, port)
    | port => (host, port)
  else Url.cut ':' cs

/-- Whether a host consists of four numbers. -/
def isNumeric (host : List Char) : Bool :=
  let parts := SemVer.splitAt '.' host
  parts.length == 4 && parts.all fun part => !part.isEmpty && part.all Char.isDigit

/-- Four numbers and what stands in brackets must be addresses; other hosts are names. -/
def readHost (host : List Char) : Except Fault (List Char) :=
  if isNumeric host then
    if Url.isDotted host then .ok host else .error (.notDotted host)
  else if host.head? == some '[' && host.getLast? == some ']' then
    if Url.isColonAddress ((host.drop 1).dropLast) then .ok host else .error (.notColonAddress host)
  else .ok (Url.percentEncode staysInHost (host.map Char.toLower))

/-- The scheme, which may be empty before its colon, and the rest. -/
def splitScheme (cs : List Char) : List Char × List Char :=
  match cs with
  | ':' :: rest => ([], rest)
  | cs => Url.splitScheme cs

/-- The path of a locator with or without a scheme and an authority. After an authority it begins
with a slash; a path that stands alone must not look like an authority or a scheme. -/
def readPath (hasScheme hasAuthority : Bool) (path : List Char) : Except Fault (List Char) :=
  if hasAuthority && !path.isEmpty && path.head? != some '/' then .error .rootlessPath
  else if hasScheme || hasAuthority then .ok (normalPath path)
  else if path.take 2 == ['/', '/'] then .error .slashedPath
  else if path.head? == some ':' then .error .colonPath
  else .ok path

/-- Brings a locator into normal form. -/
def read (cs : List Char) : Except Fault Locator :=
  if maxLength < cs.length then .error .tooLong
  else
    match unprintable? cs with
    | some (c, position) => .error (.unprintable c position)
    | none => do
      let (cs, fragment) := cutAt '#' cs
      let (cs, query) := cutAt '?' cs
      let (scheme, rest) := splitScheme cs
      let (authority, path) := Url.splitAuthority rest
      let user := if authority.contains '@' then (Url.cutLast '@' authority).1 else []
      let (host, port) := splitHost (Url.cutLast '@' authority).2
      let port ← readPort scheme port
      let host ← readHost host
      let path ← readPath (!scheme.isEmpty) (!user.isEmpty || !host.isEmpty || port.isSome) path
      return {
        scheme
        userInfo := Url.percentEncode staysInUserInfo user
        host
        port
        path := Url.percentEncode staysInPath path
        query := query.map (Url.percentEncode staysInQuery)
        fragment := fragment.map (Url.percentEncode staysInFragment) }

def authority (l : Locator) : List Char :=
  (if l.userInfo.isEmpty then [] else l.userInfo ++ ['@']) ++ l.host ++
    (l.port.map fun port => ':' :: Nat.toDigits 10 port).getD []

def chars (l : Locator) : List Char :=
  (if l.scheme.isEmpty then [] else l.scheme ++ [':']) ++
    (if l.authority.isEmpty then [] else '/' :: '/' :: l.authority) ++ l.path ++
    (l.query.map ('?' :: ·)).getD [] ++ (l.fragment.map ('#' :: ·)).getD []

def text (l : Locator) : String :=
  String.ofList l.chars

/-- A locator without a scheme or without a host only means something beside another one. -/
def isRelative (l : Locator) : Bool :=
  l.scheme.isEmpty || l.host.isEmpty

/-- The path that `path` means beside the path of another locator. -/
def joinPath (base path : List Char) : List Char :=
  let folders := SemVer.splitAt '/' base
  let folders := if folders.getLast? == some [] then folders else folders.dropLast
  let segments :=
    if path.head? == some '/' then SemVer.splitAt '/' path
    else
      match folders ++ SemVer.splitAt '/' path with
      | first :: rest => first :: (rest.dropLast.filter (!·.isEmpty) ++ rest.getLast?.toList)
      | [] => []
  let kept := segments.foldl (fun kept segment =>
    if segment == ['.', '.'] then kept.drop 1
    else if segment == ['.'] then kept
    else segment :: kept) ([] : List (List Char))
  let isDots := segments.getLast?.any fun segment => segment == ['.'] || segment == ['.', '.']
  let joined := ['/'].intercalate (if isDots then ([] :: kept).reverse else kept.reverse)
  if joined.head? == some '/' then joined else '/' :: joined

/-- The locator that a relative one means beside `base`. -/
def beside (base relative : Locator) : Locator :=
  if !relative.host.isEmpty then { relative with scheme := base.scheme }
  else if relative.path.isEmpty then
    if relative.query.isNone && relative.fragment.isNone then base
    else
      { base with
        query := if relative.query.any (!·.isEmpty) then relative.query else base.query
        fragment := relative.fragment }
  else
    { base with
      path := normalPath (joinPath base.path relative.path)
      query := relative.query.filter (!·.isEmpty)
      fragment := relative.fragment.filter (!·.isEmpty) }

/-- Whether two locators lead to the same service. -/
def sameOrigin (l m : Locator) : Bool :=
  let port (l : Locator) := l.port.or (defaultPort? l.scheme)
  l.scheme == m.scheme && l.host == m.host && port l == port m

/-- Whether `m` is the secure twin of `l`. -/
def isSecured (l m : Locator) : Bool :=
  l.host == m.host && l.scheme == "http".toList && m.scheme == "https".toList &&
    (l.port.getD 80) == 80 && (m.port.getD 443) == 443

end Locator

end ModulePins
