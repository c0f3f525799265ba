/-!
# Tokens of YAML

Block collections are bracketed by tokens of their own, so that indentation is no concern of the
grammar.
-/

namespace ModulePins.Yaml

/-- A version of the language, as directives give it. -/
structure Version where
  major : Nat := 1
  minor : Nat := 2
  deriving DecidableEq, Repr, Inhabited

namespace Version

/-- Version 1.1 has rules of its own. -/
def isOlder (v : Version) : Bool :=
  v.major == 1 && v.minor == 1

def isNewer (v : Version) : Bool :=
  1 < v.major || (v.major == 1 && 1 < v.minor)

end Version

inductive Token where
  | streamEnd
  | version (v : Version)
  | tagHandle (handle address : String)
  | directive
  | documentStart
  | documentEnd
  | blockSequence
  | blockMapping
  | blockEnd
  | flowSequence
  | flowSequenceEnd
  | flowMapping
  | flowMappingEnd
  | item
  | comma
  | key
  | value
  | alias (name : String)
  | anchor (name : String)
  | tag (handle : Option String) (name : String)
  | scalar (isPlain : Bool) (text : String)
  deriving DecidableEq, Repr, Inhabited

end ModulePins.Yaml
