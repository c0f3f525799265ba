import ModulePins.Json.Reader
import ModulePins.Text.Quoted
import ModulePins.Text.Utf8

/-!
# JSON as bytes

A JSON text may arrive in any of the Unicode encodings. The encoding shows in a byte order mark or,
since a JSON text starts with ASCII, in where the zero bytes of its beginning lie.
-/

namespace ModulePins.Json

inductive ByteOrder where
  | little
  | big
  deriving DecidableEq, Repr

inductive Encoding where
  | utf8
  | utf16 (order : ByteOrder)
  | utf32 (order : ByteOrder)
  deriving DecidableEq, Repr

/-- The encoding of a text, and the length of its byte order mark. -/
def detect (bytes : List UInt8) : Encoding × Nat :=
  match bytes with
  | 0x00 :: 0x00 :: 0xFE :: 0xFF :: _ => (.utf32 .big, 4)
  | 0xFF :: 0xFE :: 0x00 :: 0x00 :: _ => (.utf32 .little, 4)
  | 0xFE :: 0xFF :: _ => (.utf16 .big, 2)
  | 0xFF :: 0xFE :: _ => (.utf16 .little, 2)
  | 0xEF :: 0xBB :: 0xBF :: _ => (.utf8, 3)
  | a :: b :: c :: d :: _ =>
    if a == 0 then (if b == 0 then .utf32 .big else .utf16 .big, 0)
    else if b == 0 then (if c == 0 && d == 0 then .utf32 .little else .utf16 .little, 0)
    else (.utf8, 0)
  | [a, b] =>
    if a == 0 then (.utf16 .big, 0)
    else if b == 0 then (.utf16 .little, 0)
    else (.utf8, 0)
  | _ => (.utf8, 0)

/-- Bytes that do not decode: what was tried, on which bytes, and why it failed. -/
structure EncodingFault where
  encoding : Encoding
  reason : String
  position : Nat
  bytes : List UInt8
  deriving DecidableEq, Repr

namespace Encoding

def name : Encoding → String
  | utf8 => "utf-8"
  | utf16 .little => "utf-16-le"
  | utf16 .big => "utf-16-be"
  | utf32 .little => "utf-32-le"
  | utf32 .big => "utf-32-be"

end Encoding

namespace EncodingFault

def message (fault : EncodingFault) : String :=
  let subject :=
    match fault.bytes with
    | [b] =>
      "byte 0x" ++ String.ofList (Text.hexDigits 2 b.toNat) ++ " in position " ++
        toString fault.position
    | bytes =>
      "bytes in position " ++ toString fault.position ++ "-" ++
        toString (fault.position + bytes.length - 1)
  "'" ++ fault.encoding.name ++ "' codec can't decode " ++ subject ++ ": " ++ fault.reason

def ofUtf8 (bytes : List UInt8) (shift : Nat) (fault : Text.Utf8.Fault) : EncodingFault where
  encoding := .utf8
  reason := fault.flaw.text
  position := fault.position + shift
  bytes := (bytes.drop fault.position).take fault.width

end EncodingFault

def unit16 (order : ByteOrder) (a b : UInt8) : Nat :=
  match order with
  | .little => b.toNat * 0x100 + a.toNat
  | .big => a.toNat * 0x100 + b.toNat

/-- Decodes 16-bit units, with the characters read so far in reverse. -/
def decode16 (order : ByteOrder) (read : List Char) (position : Nat) :
    List UInt8 → Except EncodingFault (List Char)
  | a :: b :: c :: d :: rest =>
    let high := unit16 order a b
    let low := unit16 order c d
    if isHighHalf high && isLowHalf low then
      decode16 order (ofPair high low :: read) (position + 4) rest
    else decode16 order (ofUnit high :: read) (position + 2) (c :: d :: rest)
  | a :: b :: rest => decode16 order (ofUnit (unit16 order a b) :: read) (position + 2) rest
  | [a] => .error { encoding := .utf16 order, reason := "truncated data", position, bytes := [a] }
  | [] => .ok read.reverse

/-- Decodes 32-bit units, with the characters read so far in reverse. -/
def decode32 (order : ByteOrder) (read : List Char) (position : Nat) :
    List UInt8 → Except EncodingFault (List Char)
  | a :: b :: c :: d :: rest =>
    let point :=
      match order with
      | .little => unit16 .little c d * 0x10000 + unit16 .little a b
      | .big => unit16 .big a b * 0x10000 + unit16 .big c d
    if point < 0x110000 then decode32 order (ofUnit point :: read) (position + 4) rest
    else
      .error {
        encoding := .utf32 order
        reason := "code point not in range(0x110000)"
        position
        bytes := [a, b, c, d] }
  | [] => .ok read.reverse
  | bytes => .error { encoding := .utf32 order, reason := "truncated data", position, bytes }

def decode (bytes : List UInt8) : Except EncodingFault (List Char) :=
  let (encoding, mark) := detect bytes
  let body := bytes.drop mark
  match encoding with
  | .utf8 => (Text.Utf8.decode body).mapError (.ofUtf8 body 0)
  | .utf16 order => decode16 order [] mark body
  | .utf32 order => decode32 order [] mark body

inductive ByteFault where
  | encoding (fault : EncodingFault)
  | content (fault : Fault)
  deriving DecidableEq, Repr

namespace ByteFault

def message : ByteFault → String
  | encoding fault => fault.message
  | content fault => fault.message

end ByteFault

def readBytes (depth : Nat) (bytes : List UInt8) : Except ByteFault Value := do
  let text ← (decode bytes).mapError .encoding
  (readDocument depth text).mapError .content

end ModulePins.Json
