import ModulePins.SemVer.Reader
import ModulePins.Url.Percent

/-!
# Paths

A path is a root and the names after it. Empty names and single dots say nothing and are dropped;
a double dot is kept, since it may lead through a link. A path with exactly two slashes in front has
a root of its own.
-/

namespace ModulePins

inductive Path.Root where
  | relative
  | slash
  | twoSlashes
  deriving DecidableEq, Repr

structure Path where
  root : Path.Root
  names : List (List Char)
  deriving DecidableEq, Repr

namespace Path

def Root.text : Root → List Char
  | relative => []
  | slash => ['/']
  | twoSlashes => ['/', '/']

def isName (cs : List Char) : Bool :=
  !cs.isEmpty && cs != ['.']

def read (cs : List Char) : Path where
  root :=
    match cs with
    | '/' :: '/' :: '/' :: _ => .slash
    | '/' :: '/' :: _ => .twoSlashes
    | '/' :: _ => .slash
    | _ => .relative
  names := (SemVer.splitAt '/' cs).filter isName

def joined (names : List (List Char)) : List Char :=
  ['/'].intercalate names

/-- The text of a path; the empty path is the dot. -/
def chars (p : Path) : List Char :=
  let cs := p.root.text ++ joined p.names
  if cs.isEmpty then ['.'] else cs

def text (p : Path) : String :=
  String.ofList p.chars

def top : Path where
  root := .slash
  names := []

/-- The path from the root; relative paths start in the folder `base`. -/
def absolute (base p : Path) : Path :=
  match p.root with
  | .relative => { base with names := base.names ++ p.names }
  | _ => p

def child (p : Path) (name : String) : Path :=
  { p with names := p.names ++ [name.toList] }

/-- Characters that stand for themselves in the locator of a path. -/
def isPlain (c : Char) : Bool :=
  c.isAlphanum || c == '_' || c == '.' || c == '-' || c == '~' || c == '/'

/-- The locator of an absolute path. -/
def uri (p : Path) : List Char :=
  "file://".toList ++ Url.percentEncode isPlain p.chars

end Path

end ModulePins
