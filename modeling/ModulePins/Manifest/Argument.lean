import ModulePins.Checked

/-!
# Arguments

A module declares the arguments its templates read: of which kind they are, which values are
allowed, whether a value is required, and what it is by default. A default must itself be a value
that the argument accepts.
-/

namespace ModulePins

inductive ArgumentKind where
  | text
  | boolean
  | integer
  | number
  | list
  | map
  deriving DecidableEq, Repr, Inhabited

namespace ArgumentKind

def name : ArgumentKind → String
  | text => "string"
  | boolean => "boolean"
  | integer => "integer"
  | number => "number"
  | list => "list"
  | map => "map"

def all : List ArgumentKind :=
  [text, boolean, integer, number, list, map]

def ofName? (name : String) : Option ArgumentKind :=
  all.find? fun kind => kind.name == name

/-- Whether a value is of a kind. Integers are numbers; booleans are neither. -/
def accepts : ArgumentKind → Value → Bool
  | text, .text _ => true
  | boolean, .bool _ => true
  | integer, .int _ => true
  | number, .int _ => true
  | number, .float _ => true
  | list, .list _ => true
  | map, .mapping _ => true
  | _, _ => false

/-- Lists and maps have no fixed choice of values. -/
def isScalar : ArgumentKind → Bool
  | list => false
  | map => false
  | _ => true

def read (v : Value) : Checked ArgumentKind :=
  match v with
  | .text s =>
    match ofName? s with
    | some kind => .ok kind
    | none => Checked.complain .notAChoice
  | _ => Checked.complain .notAChoice

end ArgumentKind

structure Argument where
  description : String := ""
  required : Bool := false
  kind : ArgumentKind := .text
  values : List String := []
  default : Value := .null
  fromModule : Option String := none
  schema : Option (List (String × Value)) := none
  deriving Repr, Inhabited

namespace Argument

/-- What speaks against a value for an argument; a value is quoted as it is shown, or else it cannot
be shown. -/
inductive Objection where
  | wrongKind (quoted : String) (kind : ArgumentKind)
  | notAllowed (quoted : String) (allowed : List String)
  | unshown (reason : Value.Unshown)
  deriving DecidableEq, Repr

namespace Objection

def message : Objection → String
  | wrongKind quoted kind => "value " ++ quoted ++ " is not of type " ++ kind.name
  | notAllowed quoted allowed => "value " ++ quoted ++ " is not one of " ++ ", ".intercalate allowed
  | unshown reason => reason.message

end Objection

/-- Whether there is a choice of values; none given means that all are allowed. -/
def hasChoice (a : Argument) : Bool :=
  !a.values.isEmpty && a.kind.isScalar

/-- Checks a value. A choice of values is compared as text, and what is wrong is quoted; the check
breaks off at a value that it has to show and cannot. -/
def check (a : Argument) (v : Value) (depth : Nat) : Except Value.Unshown (Option Objection) :=
  if !a.kind.accepts v then do
    let quoted ← v.shown depth
    return some (.wrongKind quoted a.kind)
  else if a.hasChoice then do
    let spelled ← v.spelled depth
    if a.values.contains spelled then return none
    let quoted ← v.shown depth
    return some (.notAllowed quoted a.values)
  else return none

def objection? (a : Argument) (v : Value) (depth : Nat := Nesting.limit) : Option Objection :=
  match a.check v depth with
  | .ok objection => objection
  | .error reason => some (.unshown reason)

def accepts (a : Argument) (v : Value) (depth : Nat := Nesting.limit) : Bool :=
  (a.objection? v depth).isNone

/-- Refuses a default that the argument does not accept. -/
def checkDefault (depth : Nat) (a : Argument) : Checked Argument :=
  if a.default.isNull then .ok a
  else
    match a.objection? a.default depth with
    | none => .ok a
    | some (.unshown .tooDeep) => Checked.breakOff .showing
    | some (.unshown reason) => Checked.complain (.refused reason.message)
    | some objection => Checked.complain (.refused ("default " ++ objection.message))

def read (v : Value) (depth : Nat := Nesting.limit) : Checked Argument :=
  v.asRecord fun entries =>
    Checked.andThen (f := checkDefault depth) <|
      mk <$> Checked.optional "description" "" Value.asText entries
        <*> Checked.optional "required" false Value.asBool entries
        <*> Checked.optional "type" .text ArgumentKind.read entries
        <*> Checked.optional "values" [] (Value.asList Value.asText) entries
        <*> Checked.optional "default" .null Checked.ok entries
        <*> Checked.optionalEither "from" "from_module" none optionalText entries
        <*> Checked.optionalEither "schema" "json_schema" none optionalEntries entries
where
  optionalText : Value → Checked (Option String) :=
    Value.nullOr none fun v => some <$> v.asText
  optionalEntries : Value → Checked (Option (List (String × Value))) :=
    Value.nullOr none fun v => some <$> v.asEntries Checked.ok

/-- What is wrong with the value supplied for a declared argument. -/
inductive Problem where
  | rejected (name : String) (objection : Objection)
  | absent (name : String)
  deriving DecidableEq, Repr

namespace Problem

def message : Problem → String
  | rejected name objection => "argument " ++ Text.quote name ++ ": " ++ objection.message
  | absent name => "argument " ++ Text.quote name ++ " is required"

/-- Why the value of a problem cannot be shown, if it cannot. -/
def unshown? : Problem → Option Value.Unshown
  | rejected _ (.unshown reason) => some reason
  | _ => none

end Problem

/-- The value supplied under a name; null counts as not supplied. -/
def supplied? (supplied : List (String × Value)) (name : String) : Option Value :=
  (supplied.lookup name).filter fun v => !v.isNull

/-- The value of one argument: the supplied one, else the default, else none unless it is
required. -/
def choose (supplied : List (String × Value)) (name : String) (a : Argument) (depth : Nat) :
    Except Problem (Option Value) :=
  match supplied? supplied name with
  | some v =>
    match a.objection? v depth with
    | some objection => .error (.rejected name objection)
    | none => .ok (some v)
  | none =>
    if !a.default.isNull then .ok (some a.default)
    else if a.required then .error (.absent name)
    else .ok none

/-- The values of all declared arguments that have one, or every problem, in order of
declaration. -/
def resolve (supplied : List (String × Value)) (declared : List (String × Argument))
    (depth : Nat := Nesting.limit) : Except (List Problem) (List (String × Value)) :=
  match declared with
  | [] => .ok []
  | (name, a) :: rest =>
    match choose supplied name a depth, resolve supplied rest depth with
    | .ok (some v), .ok values => .ok ((name, v) :: values)
    | .ok none, .ok values => .ok values
    | .ok _, .error problems => .error problems
    | .error problem, .ok _ => .error [problem]
    | .error problem, .error problems => .error (problem :: problems)

def report (moduleName : String) (problems : List Problem) : String :=
  "invalid arguments for module " ++ moduleName ++ ":\n" ++
    "\n".intercalate (problems.map fun problem => "  - " ++ problem.message)

end Argument

end ModulePins
