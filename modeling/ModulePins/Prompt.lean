import ModulePins.Failure
import ModulePins.Text.Blank
import ModulePins.Text.LowerCase

/-!
# Questions

A question is printed and a line is read. Anything but yes, no and the empty line, which means yes,
is refused and the question is put again; at the end of the input the user has gone away.
-/

namespace ModulePins

/-- What is left to read, and what was printed. -/
structure Console where
  input : List Char
  output : String := ""
  deriving Repr, Inhabited

namespace Console

/-- Drops the rest of a colour sequence, if it is one. -/
def afterSequence? (cs : List Char) : Option (List Char) :=
  let inner := fun c : Char => c == ';' || c == '?' || c.isDigit
  match cs with
  | '[' :: rest =>
    match rest.dropWhile inner with
    | c :: rest => if c.isAlpha then some rest else none
    | [] => none
  | _ => none

/-- A text without colour sequences; `skip` characters belong to the last one. -/
def plainFrom (skip : Nat) : List Char → List Char
  | [] => []
  | c :: rest =>
    match skip with
    | skip + 1 => plainFrom skip rest
    | 0 =>
      match if c == Char.ofNat 0x1B then afterSequence? rest else none with
      | some after => plainFrom (rest.length - after.length) rest
      | none => c :: plainFrom 0 rest

def print (c : Console) (text : String) : Console :=
  { c with output := c.output ++ String.ofList (plainFrom 0 text.toList) }

def printLine (c : Console) (text : String) : Console :=
  c.print (text ++ "\n")

/-- Reads a line; at the end of the input there is none. -/
def readLine? (c : Console) : Option (List Char × Console) :=
  if c.input.isEmpty then none
  else
    some (c.input.takeWhile (· != '\n'),
      { c with input := (c.input.dropWhile (· != '\n')).drop 1 })

def answer? (line : List Char) : Option Bool :=
  let word := String.ofList (Text.trim (Text.lower (String.ofList line)).toList)
  if ["y", "yes", ""].contains word then some true
  else if ["n", "no"].contains word then some false
  else none

/-- Puts a question until it is answered, at most `tries` times. -/
def ask (question : String) : Nat → Console → Except Accident Bool × Console
  | 0, c => (.error .aborted, c)
  | tries + 1, c =>
    let c := c.print (question ++ " [Y/n]: ")
    match c.readLine? with
    | none => (.error .aborted, c)
    | some (line, c) =>
      match answer? line with
      | some answer => (.ok answer, c)
      | none => ask question tries (c.printLine "Error: invalid input")

/-- Asks whether to take a new major version, after showing its release notes. -/
def confirmUpgrade (moduleName fromVersion toVersion notes : String) :
    StateM Console (Except Failure Bool) := fun c =>
  let c := c.printLine
    ("\nModule " ++ moduleName ++ " has a new major version (" ++ fromVersion ++ " -> " ++
      toVersion ++ ").")
  let c := if notes = "" then c else c.printLine notes
  let (answer, c) :=
    ask ("Update " ++ moduleName ++ " to " ++ toVersion ++ "?") (c.input.length + 1) c
  (answer.mapError .accident, c)

end Console

end ModulePins
