/-!
# Line ends

Files may end their lines in different ways. Text read from a file has line feeds alone.
-/

namespace ModulePins.Text

/-- Turns carriage returns, with or without a line feed, into line feeds. -/
def unifyLineEnds : List Char → List Char
  | [] => []
  | '\r' :: '\n' :: rest => '\n' :: unifyLineEnds rest
  | '\r' :: rest => '\n' :: unifyLineEnds rest
  | c :: rest => c :: unifyLineEnds rest

end ModulePins.Text
