import ModulePins.File.Path

/-!
# Folders

A tree of folders and files, given by the absolute paths of its files and of folders that may be
empty. A folder exists when something lies below it. Paths are followed name by name, so a double
dot only leads back from a folder that exists.
-/

namespace ModulePins

structure Folders where
  files : List (List (List Char) × String)
  folders : List (List (List Char))
  deriving Repr, Inhabited

namespace Folders

def file? (tree : Folders) (names : List (List Char)) : Option String :=
  (tree.files.reverse.find? fun (place, _) => place == names).map Prod.snd

def isFolderAt (tree : Folders) (names : List (List Char)) : Bool :=
  names.isEmpty || tree.folders.any names.isPrefixOf ||
    tree.files.any fun (place, _) => names.length < place.length && names.isPrefixOf place

def existsAt (tree : Folders) (names : List (List Char)) : Bool :=
  tree.isFolderAt names || (tree.file? names).isSome

def follow (tree : Folders) (place : List (List Char)) :
    List (List Char) → Option (List (List Char))
  | [] => if tree.existsAt place then some place else none
  | name :: rest =>
    if !tree.isFolderAt place then none
    else if name == ['.', '.'] then tree.follow place.dropLast rest
    else tree.follow (place ++ [name]) rest

/-- The position of a path, if something is there. -/
def locate? (tree : Folders) (p : Path) : Option (List (List Char)) :=
  tree.follow [] p.names

def isFolder (tree : Folders) (p : Path) : Bool :=
  (tree.locate? p).any tree.isFolderAt

def contains (tree : Folders) (p : Path) : Bool :=
  (tree.locate? p).isSome

/-- The text of the file at a path; `none` stands for a folder. -/
def read? (tree : Folders) (p : Path) : Option String :=
  (tree.locate? p).bind tree.file?

end Folders

end ModulePins
