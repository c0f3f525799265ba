/-!
# Base 64

Three bytes are written as four characters, with padding at the end. Reading passes over characters
outside the alphabet and stops at padding that completes a group of four; a group that is cut off is
refused.
-/

namespace ModulePins.Text.Base64

def sextet? (c : Char) : Option Nat :=
  if 'A' ≤ c && c ≤ 'Z' then some (c.toNat - 0x41)
  else if 'a' ≤ c && c ≤ 'z' then some (c.toNat - 0x61 + 26)
  else if '0' ≤ c && c ≤ '9' then some (c.toNat - 0x30 + 52)
  else if c == '+' then some 62
  else if c == '/' then some 63
  else none

/-- The byte that the last sextet of a group completes; `before` is the sextet before it. -/
def byte (position before sextet : Nat) : List UInt8 :=
  match position with
  | 0 => []
  | 1 => [(before * 4 + sextet / 16).toUInt8]
  | 2 => [(before % 16 * 16 + sextet / 4).toUInt8]
  | _ => [(before % 4 * 64 + sextet).toUInt8]

/-- Reads on within a group: `position` sextets of it are read, `before` is the last of them and
`pads` counts the padding since. -/
def decodeFrom (position before pads : Nat) : List Char → Option (List UInt8)
  | [] => if position = 0 then some [] else none
  | c :: rest =>
    if c == '=' then
      if 2 ≤ position && 4 ≤ position + pads + 1 then some []
      else decodeFrom position before (if 2 ≤ position then pads + 1 else pads) rest
    else
      match sextet? c with
      | none => decodeFrom position before pads rest
      | some sextet =>
        (decodeFrom ((position + 1) % 4) sextet 0 rest).map (byte position before sextet ++ ·)

def decode (cs : List Char) : Option (List UInt8) :=
  decodeFrom 0 0 0 cs

end ModulePins.Text.Base64
