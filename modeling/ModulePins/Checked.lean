import ModulePins.Nesting
import ModulePins.Notice
import ModulePins.Text.Utf8
import ModulePins.Value

/-!
# Checking values

A checked value is a record read from a value, or the list of all issues found in it. Parts are
checked independently and their issues are joined in order; each issue carries the place it was
found at. Notices given on the way are kept in both cases. A check of a value that is nested too
deeply breaks off, and no issues are reported then.
-/

namespace ModulePins

/-- One step into a value. -/
inductive Step where
  | key (name : String)
  | index (n : Int)
  deriving DecidableEq, Repr

inductive Complaint where
  | missing
  | notText
  | badText
  | notBool
  | unreadableBool
  | notList
  | notMapping
  | notRecord
  | notAChoice
  | notInstant
  | unreadableInstant
  | unreadableDate
  | refused (reason : String)
  deriving DecidableEq, Repr

structure Issue where
  complaint : Complaint
  place : List Step := []
  deriving DecidableEq, Repr

/-- A record, or the issues that speak against it, and the notices given. With an overflow the check
broke off. -/
structure Checked (α : Type) where
  outcome : Except (List Issue) α
  notices : List Notice := []
  overflow : Option Overflow := none

namespace Checked

variable {α β : Type}

def ok (a : α) : Checked α :=
  { outcome := .ok a }

def complain (complaint : Complaint) : Checked α :=
  { outcome := .error [{ complaint }] }

def breakOff (overflow : Overflow) : Checked α :=
  { outcome := .error [], overflow := some overflow }

/-- Applies a checked function; the issues of both sides are joined. -/
def apply (f : Checked (α → β)) (x : Checked α) : Checked β where
  notices := f.notices ++ x.notices
  overflow := f.overflow.or x.overflow
  outcome :=
    match f.outcome, x.outcome with
    | .ok f, .ok a => .ok (f a)
    | .error fs, .error xs => .error (fs ++ xs)
    | .error fs, .ok _ => .error fs
    | .ok _, .error xs => .error xs

instance : Applicative Checked where
  pure := ok
  seq f x := apply f (x ())

/-- Checks further what has passed. -/
def andThen (x : Checked α) (f : α → Checked β) : Checked β :=
  match x.outcome with
  | .error issues => { outcome := .error issues, notices := x.notices, overflow := x.overflow }
  | .ok a =>
    { outcome := (f a).outcome
      notices := x.notices ++ (f a).notices
      overflow := x.overflow.or (f a).overflow }

/-- Moves the issues one step further in. -/
def under (step : Step) (x : Checked α) : Checked α where
  notices := x.notices
  overflow := x.overflow
  outcome := x.outcome.mapError fun issues =>
    issues.map fun issue => { issue with place := step :: issue.place }

def eachFrom (f : Value → Checked α) : Int → List Value → Checked (List α)
  | _, [] => ok []
  | n, v :: rest => List.cons <$> under (.index n) (f v) <*> eachFrom f (n + 1) rest

end Checked

namespace Value

open Checked

/-- A text; bytes are read as UTF-8. -/
def asText : Value → Checked String
  | text s => .ok s
  | bytes data =>
    match Text.Utf8.decode data with
    | .ok cs => .ok (String.ofList cs)
    | .error _ => complain .badText
  | _ => complain .notText

/-- Words for the booleans, in lower case. -/
def boolWord? (word : String) : Option Bool :=
  if ["1", "t", "true", "y", "yes", "on"].contains word then some true
  else if ["0", "f", "false", "n", "no", "off"].contains word then some false
  else none

def readBool (word : String) : Checked Bool :=
  match boolWord? (word.map Char.toLower) with
  | some b => .ok b
  | none => complain .unreadableBool

/-- A boolean, a word for one, or the number zero or one. -/
def asBool (v : Value) : Checked Bool :=
  match v with
  | bool b => .ok b
  | text s => readBool s
  | bytes data =>
    match Text.Utf8.decode data with
    | .ok cs => readBool (String.ofList cs)
    | .error _ => complain .unreadableBool
  | int n => ofNumber n
  | float x =>
    match x.toInt? with
    | some n => ofNumber n
    | none => complain .notBool
  | _ => complain .notBool
where
  ofNumber (n : Int) : Checked Bool :=
    if n = 0 then .ok false else if n = 1 then .ok true else complain .unreadableBool

def asList {α : Type} (f : Value → Checked α) : Value → Checked (List α)
  | list items => eachFrom f 0 items
  | row items => eachFrom f 0 items
  | set members => eachFrom f 0 members
  | _ => complain .notList

def step : Value → Step
  | text s => .key s
  | int n => .index n
  | bool b => .index (if b then 1 else 0)
  | v => .key v.plain

/-- The entries of a mapping: every key must be text and every value must be accepted by `f`. -/
def asEntriesFrom {α : Type} (f : Value → Checked α) :
    List (Value × Value) → Checked (List (String × α))
  | [] => .ok []
  | (key, value) :: rest =>
    let name := under key.step (under (.key "[key]") key.asText)
    let content := under key.step (f value)
    (fun name content rest => (name, content) :: rest) <$> name <*> content <*>
      asEntriesFrom f rest

def asEntries {α : Type} (f : Value → Checked α) : Value → Checked (List (String × α))
  | mapping entries => asEntriesFrom f entries
  | _ => complain .notMapping

def asRecord {α : Type} (f : List (Value × Value) → Checked α) : Value → Checked α
  | mapping entries => f entries
  | _ => complain .notRecord

end Value

namespace Checked

variable {α : Type}

def required (name : String) (f : Value → Checked α) (entries : List (Value × Value)) :
    Checked α :=
  under (.key name) <|
    match Value.field? entries name with
    | some v => f v
    | none => complain .missing

def optional (name : String) (default : α) (f : Value → Checked α)
    (entries : List (Value × Value)) : Checked α :=
  match Value.field? entries name with
  | some v => under (.key name) (f v)
  | none => ok default

/-- An entry with a second name, which counts when the first is absent. -/
def optionalEither (name other : String) (default : α) (f : Value → Checked α)
    (entries : List (Value × Value)) : Checked α :=
  match Value.field? entries name with
  | some v => under (.key name) (f v)
  | none => optional other default f entries

end Checked

namespace Value

/-- Null counts as absent. -/
def nullOr {α : Type} (default : α) (f : Value → Checked α) : Value → Checked α
  | null => .ok default
  | v => f v

end Value

end ModulePins
