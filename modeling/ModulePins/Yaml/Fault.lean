import ModulePins.Text.Quoted

/-!
# What can be wrong with a YAML text

A text that breaks the grammar is malformed, and so is one that says the same thing twice or names
something unknown. A scalar may also be written well and still have no value.
-/

namespace ModulePins.Yaml

inductive Fault where
  | malformed
  | badValue (text : String)
  | overflow (text : String)
  | emptyNumber
  | unknownWord (word : String)
  | unknownVersion (major minor : Nat)
  | unhashableKey (kind : String)
  | repeatedEntry
  deriving DecidableEq, Repr

namespace Fault

def message : Fault → String
  | malformed => "malformed document"
  | badValue text => text
  | overflow text => text
  | emptyNumber => "string index out of range"
  | unknownWord word => Text.quote word
  | unknownVersion major minor => "(" ++ toString major ++ ", " ++ toString minor ++ ")"
  | unhashableKey kind => "unhashable type: '" ++ kind ++ "'"
  | repeatedEntry => ""

end Fault

end ModulePins.Yaml
