import ModulePins.SemVer.Reader

/-!
# Numeric host addresses

A host in brackets must be an address of the sixth version of the internet protocol, or of a future
version that names itself. Addresses of the fourth version are recognised to be refused there.
-/

namespace ModulePins.Url

open SemVer (splitAt)

def isHexDigit (c : Char) : Bool :=
  c.isDigit || ('a' ≤ c && c ≤ 'f') || ('A' ≤ c && c ≤ 'F')

/-- One number of a dotted address: up to three digits without leading zeros, at most 255. -/
def isOctet (cs : List Char) : Bool :=
  !cs.isEmpty && cs.length ≤ 3 && cs.all Char.isDigit && (cs.head? != some '0' || cs.length == 1) &&
    Text.digitsValue cs ≤ 255

def isDotted (cs : List Char) : Bool :=
  let parts := splitAt '.' cs
  parts.length == 4 && parts.all isOctet

def isGroup (cs : List Char) : Bool :=
  !cs.isEmpty && cs.length ≤ 4 && cs.all isHexDigit

/-- Whether the parts between colons make up eight groups, where one run of groups may be left
out. -/
def areGroups (parts : List (List Char)) : Bool :=
  let inner := (parts.drop 1).dropLast
  let gaps := inner.countP List.isEmpty
  if parts.length < 3 || 9 < parts.length || 1 < gaps then false
  else if gaps = 0 then parts.length == 8 && parts.all isGroup
  else
    let before := parts.take (inner.findIdx List.isEmpty + 1)
    let after := parts.drop (inner.findIdx List.isEmpty + 2)
    let before := if before == [[]] then [] else before
    let after := if after == [[]] then [] else after
    before.all isGroup && after.all isGroup && before.length + after.length ≤ 7

/-- Replaces a dotted tail by two groups. -/
def expandTail (parts : List (List Char)) : Option (List (List Char)) :=
  match parts.getLast? with
  | none => some parts
  | some tail =>
    if tail.contains '.' then
      if isDotted tail && 3 ≤ parts.length then some (parts.dropLast ++ [['0'], ['0']]) else none
    else some parts

/-- Whether `cs` is a colon-separated address, with or without a zone after a percent sign. -/
def isColonAddress (cs : List Char) : Bool :=
  let zone := cs.dropWhile (· != '%')
  let zoneFits := zone.isEmpty || (1 < zone.length && !(zone.drop 1).contains '%')
  zoneFits && ((expandTail (splitAt ':' (cs.takeWhile (· != '%')))).any areGroups)

/-- A future address: a version in hexadecimal, a dot, and something else. -/
def isFutureAddress (cs : List Char) : Bool :=
  match cs with
  | 'v' :: rest =>
    let version := rest.takeWhile isHexDigit
    match rest.dropWhile isHexDigit with
    | '.' :: name => !version.isEmpty && !name.isEmpty && !name.contains '\n'
    | _ => false
  | _ => false

end ModulePins.Url
