/-!
# Notices

What the library has to tell its user besides results and failures.
-/

namespace ModulePins

inductive Notice.Level where
  | info
  | warning
  deriving DecidableEq, Repr

structure Notice where
  level : Notice.Level
  text : String
  deriving DecidableEq, Repr

namespace Notice

def info (text : String) : Notice :=
  ⟨.info, text⟩

def warning (text : String) : Notice :=
  ⟨.warning, text⟩

end Notice

end ModulePins
