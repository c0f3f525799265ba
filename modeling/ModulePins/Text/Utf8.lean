/-!
# UTF-8

Encoding is total. Decoding stops at the first ill-formed sequence and says where it lies and what
is wrong with it; the lossy form puts a replacement character there and goes on. An ill-formed
sequence is as long as it could still have become a character.
-/

namespace ModulePins.Text.Utf8

inductive Flaw where
  | badStart
  | badContinuation
  | truncated
  deriving DecidableEq, Repr

namespace Flaw

def text : Flaw → String
  | badStart => "invalid start byte"
  | badContinuation => "invalid continuation byte"
  | truncated => "unexpected end of data"

end Flaw

def encodeChar (c : Char) : List UInt8 :=
  let n := c.toNat
  if n < 0x80 then [n.toUInt8]
  else if n < 0x800 then [(0xC0 + n / 0x40).toUInt8, (0x80 + n % 0x40).toUInt8]
  else if n < 0x10000 then
    [(0xE0 + n / 0x1000).toUInt8, (0x80 + n / 0x40 % 0x40).toUInt8, (0x80 + n % 0x40).toUInt8]
  else
    [(0xF0 + n / 0x40000).toUInt8, (0x80 + n / 0x1000 % 0x40).toUInt8,
      (0x80 + n / 0x40 % 0x40).toUInt8, (0x80 + n % 0x40).toUInt8]

def encode (cs : List Char) : List UInt8 :=
  cs.flatMap encodeChar

/-- How many continuation bytes follow a first byte, and the range of the first of them. -/
def following? (lead : UInt8) : Option (Nat × UInt8 × UInt8) :=
  if 0xC2 ≤ lead && lead ≤ 0xDF then some (1, 0x80, 0xBF)
  else if lead == 0xE0 then some (2, 0xA0, 0xBF)
  else if lead == 0xED then some (2, 0x80, 0x9F)
  else if 0xE1 ≤ lead && lead ≤ 0xEF then some (2, 0x80, 0xBF)
  else if lead == 0xF0 then some (3, 0x90, 0xBF)
  else if 0xF1 ≤ lead && lead ≤ 0xF3 then some (3, 0x80, 0xBF)
  else if lead == 0xF4 then some (3, 0x80, 0x8F)
  else none

def leadValue (lead : UInt8) (count : Nat) : Nat :=
  lead.toNat % Nat.pow 2 (6 - count)

/-- Reads `count` continuation bytes, the first one between `low` and `high`. On failure gives the
flaw and the number of bytes that were good. -/
def continuation (value good : Nat) (low high : UInt8) :
    Nat → List UInt8 → Except (Flaw × Nat) Nat
  | 0, _ => .ok value
  | _ + 1, [] => .error (.truncated, good)
  | count + 1, b :: rest =>
    if low ≤ b && b ≤ high then
      continuation (value * 0x40 + b.toNat % 0x40) (good + 1) 0x80 0xBF count rest
    else .error (.badContinuation, good)

/-- The first character of a non-empty text and the bytes it takes, or the flaw and the bytes that
it spoils. -/
def step (lead : UInt8) (rest : List UInt8) : Except (Flaw × Nat) (Char × Nat) :=
  if lead < 0x80 then .ok (Char.ofNat lead.toNat, 1)
  else
    match following? lead with
    | none => .error (.badStart, 1)
    | some (count, low, high) =>
      match continuation (leadValue lead count) 1 low high count rest with
      | .error fault => .error fault
      | .ok value => .ok (Char.ofNat value, count + 1)

/-- Where decoding stopped, and on how many bytes. -/
structure Fault where
  flaw : Flaw
  position : Nat
  width : Nat
  deriving DecidableEq, Repr

/-- Decodes with the characters read so far in reverse; `skip` bytes belong to the last one. -/
def decodeFrom (read : List Char) (position skip : Nat) :
    List UInt8 → Except Fault (List Char)
  | [] => .ok read.reverse
  | b :: rest =>
    match skip with
    | skip + 1 => decodeFrom read (position + 1) skip rest
    | 0 =>
      match step b rest with
      | .error (flaw, width) => .error { flaw, position, width }
      | .ok (c, width) => decodeFrom (c :: read) (position + 1) (width - 1) rest

def decode (bytes : List UInt8) : Except Fault (List Char) :=
  decodeFrom [] 0 0 bytes

/-- Decodes with a replacement character for every flaw. -/
def decodeLossyFrom (skip : Nat) : List UInt8 → List Char
  | [] => []
  | b :: rest =>
    match skip with
    | skip + 1 => decodeLossyFrom skip rest
    | 0 =>
      match step b rest with
      | .error (_, width) => Char.ofNat 0xFFFD :: decodeLossyFrom (width - 1) rest
      | .ok (c, width) => c :: decodeLossyFrom (width - 1) rest

def decodeLossy (bytes : List UInt8) : List Char :=
  decodeLossyFrom 0 bytes

end ModulePins.Text.Utf8
