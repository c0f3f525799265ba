import ModulePins.Proofs.ImportPath
import ModulePins.Proofs.Path
import ModulePins.Resolution.Local

/-!
# Local locators lead to their folders

The locator of a path from the root is read back as this path, whatever characters its names hold.
It is a normal form: no working folder changes it.
-/

namespace ModulePins.Location

variable {base p : Path} {uri : String}

theorem isLocal_of_isFileUri (h : isFileUri uri = true) : isLocal uri = true := by
  simp [isLocal, h]

theorem isLocal_of_bare (h : ImportPath.occurs "://".toList uri.toList = false) :
    isLocal uri = true := by
  rw [isLocal, h]
  rfl

theorem isFileUri_uri (p : Path) : isFileUri (String.ofList p.uri) = true := by
  rw [isFileUri, String.toList_ofList, List.isPrefixOf_iff_prefix]
  exact List.prefix_append _ _

theorem ne_of_isFileUri (h : isFileUri uri = true) : uri ≠ "" := by
  rintro rfl
  exact absurd h (by decide)

theorem occurs_of_isFileUri (h : isFileUri uri = true) :
    ImportPath.occurs "://".toList uri.toList = true := by
  obtain ⟨rest, hrest⟩ := List.isPrefixOf_iff_prefix.mp h
  rw [ImportPath.occurs_iff_infix]
  exact ⟨"file".toList, rest, hrest⟩

theorem isFileUri_fetchUri (h : isLocal uri = true) (base : Path) :
    isFileUri (fetchUri uri base) = true := by
  rw [fetchUri, if_pos h, localUri]
  split
  · assumption
  · exact isFileUri_uri _

theorem isLocal_fetchUri (h : isLocal uri = true) (base : Path) :
    isLocal (fetchUri uri base) = true :=
  isLocal_of_isFileUri (isFileUri_fetchUri h base)

theorem fetchUri_of_isFileUri (h : isFileUri uri = true) (base : Path) :
    fetchUri uri base = uri := by
  rw [fetchUri, if_pos (isLocal_of_isFileUri h), localUri, if_pos h]

theorem fetchUri_of_bare (h : ImportPath.occurs "://".toList uri.toList = false) (base : Path) :
    fetchUri uri base = String.ofList (base.absolute (Path.read uri.toList)).uri := by
  have hfile : ¬isFileUri uri = true := by
    intro hfile
    rw [occurs_of_isFileUri hfile] at h
    cases h
  rw [fetchUri, if_pos (isLocal_of_bare h), localUri, if_neg hfile]

/-- A locator stands for a path, and keeps standing for it: it counts as local, it is what it is
normalized to in every folder, and what lies there is what lies at the path. -/
structure Reaches (uri : String) (p : Path) : Prop where
  isFileUri : isFileUri uri = true
  isLocal : isLocal uri = true
  path : path uri = .ok p
  normalized : ∀ base, localUri uri base = uri ∧ fetchUri uri base = uri
  folder : ∀ tree : Folders, tree.moduleFolder uri =
    if tree.isFolder p then .ok p
    else .error (.collaborator uri "open module" (p.text ++ " is not a directory"))

theorem path_uri (hsound : p.IsSound) (hrooted : p.IsRooted) :
    path (String.ofList p.uri) = .ok p := by
  obtain ⟨url, hsplit, hpath⟩ := Path.split_uri hrooted
  rw [path, if_pos (isFileUri_uri p), String.toList_ofList, hsplit]
  dsimp only
  rw [hpath, Path.read_chars hsound]

theorem reaches_uri (hsound : p.IsSound) (hrooted : p.IsRooted) :
    Reaches (String.ofList p.uri) p where
  isFileUri := isFileUri_uri p
  isLocal := isLocal_of_isFileUri (isFileUri_uri p)
  path := path_uri hsound hrooted
  normalized := fun base =>
    ⟨if_pos (isFileUri_uri p), fetchUri_of_isFileUri (isFileUri_uri p) base⟩
  folder := by
    intro tree
    rw [Folders.moduleFolder, if_pos (isLocal_of_isFileUri (isFileUri_uri p)),
      path_uri hsound hrooted]

/-- Every path leads to itself by way of its locator, from whatever folder it starts. -/
theorem reaches_fetchUri (hsound : base.IsSound) (hrooted : base.IsRooted)
    (h : ImportPath.occurs "://".toList uri.toList = false) :
    Reaches (fetchUri uri base) (base.absolute (Path.read uri.toList)) := by
  rw [fetchUri_of_bare h]
  exact reaches_uri (Path.isSound_absolute hsound (Path.isSound_read _))
    (Path.isRooted_absolute hrooted)

end ModulePins.Location
