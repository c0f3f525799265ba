import ModulePins.Nesting
import ModulePins.Text.Digit

/-!
# What can be wrong with a JSON text

Most faults lie at a place, given by line, column and offset. A number may also have too many
digits, and brackets may be nested too deeply; these faults have no place.
-/

namespace ModulePins.Json

/-- What is missing or wrong at a place. -/
inductive Flaw where
  | noValue
  | noComma
  | noColon
  | noName
  | extraData
  | openString
  | controlCharacter
  | badEscape
  | badCodeUnit
  | byteOrderMark
  deriving DecidableEq, Repr

namespace Flaw

def text : Flaw → String
  | noValue => "Expecting value"
  | noComma => "Expecting ',' delimiter"
  | noColon => "Expecting ':' delimiter"
  | noName => "Expecting property name enclosed in double quotes"
  | extraData => "Extra data"
  | openString => "Unterminated string starting at"
  | controlCharacter => "Invalid control character at"
  | badEscape => "Invalid \\escape"
  | badCodeUnit => "Invalid \\uXXXX escape"
  | byteOrderMark => "Unexpected UTF-8 BOM (decode using utf-8-sig)"

end Flaw

/-- Lines and columns count from one, the offset from zero. -/
structure Place where
  line : Nat
  column : Nat
  offset : Nat
  deriving DecidableEq, Repr

namespace Place

def after (before : List Char) : Place where
  line := before.count '\n' + 1
  column := (before.reverse.takeWhile (· != '\n')).length + 1
  offset := before.length

def text (p : Place) : String :=
  "line " ++ toString p.line ++ " column " ++ toString p.column ++
    " (char " ++ toString p.offset ++ ")"

end Place

inductive Fault where
  | malformed (flaw : Flaw) (place : Place)
  | longNumber (digits : Nat)
  | tooDeep (overflow : Overflow)
  deriving DecidableEq, Repr

namespace Fault

def message : Fault → String
  | malformed flaw place => flaw.text ++ ": " ++ place.text
  | longNumber digits => Text.tooManyDigits digits
  | tooDeep overflow => overflow.message

end Fault

end ModulePins.Json
