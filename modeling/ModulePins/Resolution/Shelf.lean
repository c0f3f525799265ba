import ModulePins.Failure
import ModulePins.File.Path

/-!
# Shelves

A shelf holds module manifests by location, for one version or for all versions of the module there.
-/

namespace ModulePins

/-- A manifest on a shelf; without a version it serves all versions that have none of their own. -/
structure Shelf.Item where
  uri : String
  version : Option String := none
  manifest : ModuleManifest
  deriving Repr, Inhabited

/-- A later item replaces an earlier one in the same place. -/
structure Shelf where
  items : List Shelf.Item := []
  deriving Repr, Inhabited

namespace Shelf

def item? (s : Shelf) (uri : String) (version : Option String) : Option Item :=
  s.items.reverse.find? fun item => item.uri == uri && item.version == version

def manifest (s : Shelf) (uri version : String) : Except Failure ModuleManifest :=
  match (s.item? uri (some version)).or (s.item? uri none) with
  | some item => .ok item.manifest
  | none =>
    .error (.collaborator uri "fetch manifest" ("no manifest for " ++ uri ++ "@" ++ version))

theorem exists_item_of_manifest {s : Shelf} {uri version : String} {served : ModuleManifest}
    (h : s.manifest uri version = .ok served) : ∃ item ∈ s.items, item.manifest = served := by
  have hmem : ∀ version item, s.item? uri version = some item → item ∈ s.items := by
    intro version item hitem
    exact List.mem_reverse.mp (List.mem_of_find?_eq_some hitem)
  unfold manifest at h
  split at h
  · rename_i item hitem
    cases h
    rcases Option.or_eq_some_iff.mp hitem with hitem | ⟨_, hitem⟩
    · exact ⟨item, hmem _ _ hitem, rfl⟩
    · exact ⟨item, hmem _ _ hitem, rfl⟩
  · cases h

/-- Modules on a shelf have no folders. -/
def folder (uri : String) : Except Failure Path :=
  .error (.collaborator uri "open module" "in-memory modules have no filesystem")

end Shelf

end ModulePins
