/-!
# Nesting

Whoever reads or shows a nested value is at work on all the brackets around a part at once, and
brackets can be nested only so deeply. How deeply depends on what else is going on, so the depth is
handed to every reader and printer.
-/

namespace ModulePins

/-- How deeply brackets may be nested where nothing else is going on. -/
def Nesting.limit : Nat := 994

/-- What was being done with brackets that were nested too deeply. -/
inductive Overflow where
  | readingList
  | readingMapping
  | showing
  deriving DecidableEq, Repr

namespace Overflow

def activity : Overflow → String
  | readingList => "decoding a JSON array from a unicode string"
  | readingMapping => "decoding a JSON object from a unicode string"
  | showing => "getting the repr of an object"

def message (overflow : Overflow) : String :=
  "maximum recursion depth exceeded while " ++ overflow.activity

end Overflow

end ModulePins
