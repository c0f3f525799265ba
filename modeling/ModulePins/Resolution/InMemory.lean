import ModulePins.Resolution.Registry
import ModulePins.Resolution.Run
import ModulePins.Resolution.Shelf

/-!
# Runs in memory

A registry and a shelf answer the same question with the same answer all the time. A registry may
also be set to fail on every query.
-/

namespace ModulePins

def Registry.source (registry : Registry) (failing : Option Failure) : VersionSource :=
  fun _ query =>
    match failing with
    | some failure => .error failure
    | none => registry.pick query

def Shelf.store (shelf : Shelf) : ManifestStore :=
  fun _ fetch => { outcome := shelf.manifest fetch.uri fetch.version }

/-- The surroundings of a run in memory. -/
def Surroundings.inMemory (registry : Registry) (failing : Option Failure) (shelf : Shelf)
    (now : Int) (later : Nat → Int := fun _ => now) : Surroundings where
  versions := registry.source failing
  manifests := shelf.store
  now := now
  later := later

end ModulePins
