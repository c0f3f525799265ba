import ModulePins.Text.Quoted
import ModulePins.Text.Utf8
import ModulePins.Url.Address

/-!
# Percent encoding

Encoding writes each byte of the UTF-8 form of a character as a percent sign and two hexadecimal
digits. Decoding takes runs of such triples for UTF-8 and leaves all other text alone.
-/

namespace ModulePins.Url

def percentByte (b : UInt8) : List Char :=
  '%' :: (Text.hexDigits 2 b.toNat).map Char.toUpper

def percentChar (c : Char) : List Char :=
  (Text.Utf8.encodeChar c).flatMap percentByte

def percentEncode (safe : Char → Bool) (cs : List Char) : List Char :=
  cs.flatMap fun c => if safe c then [c] else percentChar c

def hexDigitValue (c : Char) : Nat :=
  if c.isDigit then c.toNat - 0x30 else c.toLower.toNat - 0x57

/-- The bytes of the triples at the head of a text, and the number of characters they take. -/
def leadingTriples : List Char → List UInt8
  | '%' :: a :: b :: rest =>
    if isHexDigit a && isHexDigit b then
      (hexDigitValue a * 16 + hexDigitValue b).toUInt8 :: leadingTriples rest
    else []
  | _ => []

/-- Decodes the runs of triples in a text; `skip` characters belong to the last run. -/
def percentDecodeFrom (skip : Nat) : List Char → List Char
  | [] => []
  | c :: rest =>
    match skip with
    | skip + 1 => percentDecodeFrom skip rest
    | 0 =>
      match leadingTriples (c :: rest) with
      | [] => c :: percentDecodeFrom 0 rest
      | bytes => Text.Utf8.decodeLossy bytes ++ percentDecodeFrom (3 * bytes.length - 1) rest

def percentDecode (cs : List Char) : List Char :=
  percentDecodeFrom 0 cs

end ModulePins.Url
