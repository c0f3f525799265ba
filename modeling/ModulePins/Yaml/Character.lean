/-!
# Characters of YAML

Which characters a document may hold, where lines and words end, and which characters names and
addresses are made of. The separators U+2028 and U+2029 break lines, but they do not end a comment
or a plain word.
-/

namespace ModulePins.Yaml

/-- Whether a document may hold a character as it stands. -/
def isAllowed (c : Char) : Bool :=
  let n := c.toNat
  c == '\t' || c == '\n' || c == '\r' || (0x20 ≤ n && n ≤ 0x7E) || n == 0x85 ||
    (0xA0 ≤ n && n ≤ 0xFFFD) || 0x10000 ≤ n

def isByteOrderMark (c : Char) : Bool :=
  c.toNat == 0xFEFF

def isLineEnd (c : Char) : Bool :=
  c == '\n' || c == '\r' || c.toNat == 0x85

def isSeparator (c : Char) : Bool :=
  c.toNat == 0x2028 || c.toNat == 0x2029

def isBreak (c : Char) : Bool :=
  isLineEnd c || isSeparator c

def isSpaceOrTab (c : Char) : Bool :=
  c == ' ' || c == '\t'

def isSpaceOrBreak (c : Char) : Bool :=
  c == ' ' || isBreak c

/-- Whether the text is over or goes on with a character of a class. -/
def overOr (p : Char → Bool) : List Char → Bool
  | [] => true
  | c :: _ => p c

/-- Whether a word is over at this point. -/
def wordOver (rest : List Char) : Bool :=
  overOr (fun c => isSpaceOrTab c || isLineEnd c) rest

/-- The brackets and the comma of flow collections. -/
def isFlowMark (c : Char) : Bool :=
  c == ',' || c == '[' || c == ']' || c == '{' || c == '}'

/-- The characters that no plain scalar starts with, unless it goes on in a suitable way. -/
def isIndicator (c : Char) : Bool :=
  "-?:,[]\x7b\x7d#&*!|>'\"%@".toList.contains c || c.toNat == 0x60

def isAnchorCharacter (c : Char) : Bool :=
  let n := c.toNat
  !isFlowMark c && ((0x21 ≤ n && n ≤ 0x7E) || (0xA0 ≤ n && n ≤ 0xFFFD && n != 0xFEFF) || 0x10000 ≤ n)

def isHandleCharacter (c : Char) : Bool :=
  c.isAlphanum || c == '-' || c == '_'

def isAddressCharacter (c : Char) : Bool :=
  c.isAlphanum || "-;/?:@&=+$,_.!~*'()[]%".toList.contains c

/-- The mark of a document boundary at the head of a line, by its character. -/
def documentMark? : List Char → Option Char
  | '-' :: '-' :: '-' :: rest => if wordOver rest then some '-' else none
  | '.' :: '.' :: '.' :: rest => if wordOver rest then some '.' else none
  | _ => none

end ModulePins.Yaml
