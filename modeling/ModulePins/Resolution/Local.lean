import ModulePins.Document
import ModulePins.File.Folders
import ModulePins.File.Location

/-!
# Modules in local folders

A local location names the folder of a module, which holds its manifest. Remote locations are not
served.
-/

namespace ModulePins

/-- The name of the manifest at the root of a module. -/
def ModuleManifest.fileName : String := "manifest.yaml"

namespace Folders

def moduleFolder (tree : Folders) (uri : String) : Except Failure Path :=
  if Location.isLocal uri then
    match Location.path uri with
    | .error fault => .error (.accident (.badValue fault.message))
    | .ok path =>
      if tree.isFolder path then .ok path
      else .error (.collaborator uri "open module" (path.text ++ " is not a directory"))
  else .error (.collaborator uri "open module" (uri ++ " is not a local module path"))

def moduleManifest (tree : Folders) (uri : String) (depth : Nat := Nesting.limit) :
    Report ModuleManifest :=
  match tree.moduleFolder uri with
  | .error failure => .fail failure
  | .ok folder =>
    let path := folder.child ModuleManifest.fileName
    if tree.contains path then
      match tree.read? path with
      | some text => ModuleManifest.readText path.text text depth
      | none => .fail (.accident (.file (.isADirectory path.text)))
    else .fail (.collaborator uri "read manifest" (path.text ++ " does not exist"))

end Folders

end ModulePins
