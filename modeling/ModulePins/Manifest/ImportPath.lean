import ModulePins.Text.Blank
import ModulePins.Url.Basic

/-!
# Import paths

A module is imported by the host and path of its repository, joined by a slash. A repository may be
written as a locator with a scheme, or in the short form `user@host:path`, where the user may be
left out.
-/

namespace ModulePins.ImportPath

inductive Fault where
  | notARepository (url : String)
  | badUrl (fault : Url.Fault)
  deriving DecidableEq, Repr

namespace Fault

def message : Fault → String
  | notARepository url =>
    "failed to parse deprecated url module syntax " ++ Text.quote url ++ " as a URL"
  | badUrl fault => fault.message

end Fault

/-- Whether `word` occurs in a text. -/
def occurs (word : List Char) : List Char → Bool
  | [] => word.isEmpty
  | c :: rest => word.isPrefixOf (c :: rest) || occurs word rest

/-- Host and path of the short form without a user. The path holds no line end. -/
def splitHost? (cs : List Char) : Option (List Char × List Char) :=
  let ends := fun c : Char => c == ':' || c == '/'
  let host := cs.takeWhile (!ends ·)
  match cs.dropWhile (!ends ·) with
  | ':' :: path =>
    if host.isEmpty || path.isEmpty || path.contains '\n' then none else some (host, path)
  | _ => none

/-- What follows the user of the short form, if there is one. -/
def dropUser? (cs : List Char) : Option (List Char) :=
  let ends := fun c : Char => c == '@' || c == '/'
  match cs.takeWhile (!ends ·), cs.dropWhile (!ends ·) with
  | _ :: _, '@' :: rest => some rest
  | _, _ => none

/-- Host and path of the short form: with the user cut off, if what follows still has the form. -/
def splitShort? (cs : List Char) : Option (List Char × List Char) :=
  ((dropUser? cs).bind splitHost?).or (splitHost? cs)

def split (url : String) (cs : List Char) : Except Fault (List Char × List Char) :=
  if occurs "://".toList cs then
    match Url.split cs with
    | .ok parts => .ok (parts.host, parts.path)
    | .error fault => .error (.badUrl fault)
  else
    match splitShort? cs with
    | some parts => .ok parts
    | none => .error (.notARepository url)

def trimSlashes (cs : List Char) : List Char :=
  ((cs.dropWhile (· == '/')).reverse.dropWhile (· == '/')).reverse

/-- Drops the customary ending of repositories. -/
def dropEnding (cs : List Char) : List Char :=
  let ending := ".git".toList
  if ending.isSuffixOf cs then cs.take (cs.length - ending.length) else cs

/-- The import path of the repository at `url`. -/
def ofUrl (url : String) : Except Fault String := do
  let cs := Text.trim url.toList
  let (host, path) ← split (String.ofList cs) cs
  let path := dropEnding (trimSlashes path)
  if host.isEmpty || path.isEmpty then .error (.notARepository (String.ofList cs))
  else .ok (String.ofList (host ++ '/' :: path))

end ModulePins.ImportPath
