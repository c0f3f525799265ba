import ModulePins.File.Path
import ModulePins.Manifest.ImportPath

/-!
# Local and remote locations

A module is fetched from a location. A location without a scheme is a local path, and so is one
under the file scheme; all others are remote.
-/

namespace ModulePins.Location

def fileScheme : List Char :=
  "file://".toList

def isFileUri (uri : String) : Bool :=
  fileScheme.isPrefixOf uri.toList

def isLocal (uri : String) : Bool :=
  !ImportPath.occurs "://".toList uri.toList || isFileUri uri

/-- A local location as a file locator; bare paths become absolute, from the folder `base`. -/
def localUri (uri : String) (base : Path := .top) : String :=
  if isFileUri uri then uri else String.ofList (base.absolute (Path.read uri.toList)).uri

/-- Where a module is fetched from: local paths as file locators, all else as it is. -/
def fetchUri (uri : String) (base : Path := .top) : String :=
  if isLocal uri then localUri uri base else uri

def path (uri : String) : Except Url.Fault Path :=
  if isFileUri uri then
    match Url.split uri.toList with
    | .ok url => .ok (Path.read (Url.percentDecode url.path))
    | .error fault => .error fault
  else .ok (Path.read uri.toList)

end ModulePins.Location
