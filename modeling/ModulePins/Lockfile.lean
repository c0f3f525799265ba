import ModulePins.Calendar.Reader
import ModulePins.Checked

/-!
# Lockfiles

A lockfile records what the last run used: the version of the tool, the time, the modules with the
versions picked, and the files written. The time may be left open until the lockfile is written.
-/

namespace ModulePins

/-- A module as the last run used it. -/
structure LockedModule where
  name : String
  url : String := ""
  version : String
  deriving DecidableEq, Repr, Inhabited

/-- A file the last run wrote, and the template and module it came from. -/
structure LockedFile where
  name : String
  template : String := ""
  moduleName : String := ""
  deriving DecidableEq, Repr, Inhabited

structure Lockfile where
  version : String := ""
  generated : Option Instant := none
  modules : List LockedModule := []
  files : List LockedFile := []
  deriving DecidableEq, Repr, Inhabited

namespace LockedModule

def read (v : Value) : Checked LockedModule :=
  v.asRecord fun entries =>
    mk <$> Checked.required "name" Value.asText entries
      <*> Checked.optional "url" "" Value.asText entries
      <*> Checked.required "version" Value.asText entries

end LockedModule

namespace LockedFile

def read (v : Value) : Checked LockedFile :=
  v.asRecord fun entries =>
    mk <$> Checked.required "name" Value.asText entries
      <*> Checked.optional "template" "" Value.asText entries
      <*> Checked.optional "module" "" Value.asText entries

end LockedFile

namespace Lockfile

def fileName : String := "modforge.lock"

/-- An instant: a written one, a date, a number of seconds or milliseconds, or an instant. -/
def readInstant (v : Value) : Checked Instant :=
  match v with
  | .instant t => .ok t
  | .date date => .ok { date }
  | .text s => orElse .unreadableDate (Instant.read? s)
  | .bytes data =>
    match Text.Utf8.decode data with
    | .ok cs => orElse .unreadableDate (Instant.read? (String.ofList cs))
    | .error _ => Checked.complain .unreadableDate
  | .int n => orElse .unreadableInstant (Instant.ofStamp? n 0)
  | .float x => orElse .unreadableInstant (Instant.ofDouble? x)
  | _ => Checked.complain .notInstant
where
  orElse (complaint : Complaint) : Option Instant → Checked Instant
    | some t => .ok t
    | none => Checked.complain complaint

def read (v : Value) : Checked Lockfile :=
  v.asRecord fun entries =>
    mk <$> Checked.optional "version" "" Value.asText entries
      <*> Checked.optional "generated" none (fun v => some <$> readInstant v) entries
      <*> Checked.optional "modules" [] (Value.nullOr [] (Value.asList LockedModule.read)) entries
      <*> Checked.optional "files" [] (Value.nullOr [] (Value.asList LockedFile.read)) entries

/-- The first locked module of a name. -/
def module? (lock : Lockfile) (name : String) : Option LockedModule :=
  lock.modules.find? fun m => m.name == name

end Lockfile

end ModulePins
