/-
  Folders in memory: files with paths, and what a path leads to.
-/
import Naskah.Command.File

namespace Naskah.Command

/-- A path inside a folder, from the outermost name to the innermost. -/
abbrev Path := List String

/-- Files with their texts.  A directory is there if a file is in it. -/
structure Folder where
  files : List (Path × String)

/-- What a path leads to. -/
inductive Place
  | file (path : Path) (text : String)
  | directory
  /-- Nothing, in a directory that is there. -/
  | missing (path : Path)
  /-- Nothing, and no directory where it could be. -/
  | nowhere (e : FileError)

namespace Folder

/-- The names in a path.  Empty ones, and those that stand for the directory they are in, are left
    out. -/
def names (path : String) : List String :=
  ((path.toList.splitOn '/').map String.ofList).filter fun n => n ≠ "" ∧ n ≠ "."

/-- Whether a path can only lead to a directory. -/
def wantsDirectory (path : String) : Bool :=
  let last := (path.toList.splitOn '/').getLast?
  last = some [] || last = some ['.']

/-- Whether there is a directory at a path. -/
def hasDirectory (f : Folder) (path : Path) : Bool :=
  path.isEmpty || f.files.any fun file => path.isPrefixOf file.1

/-- The most bytes that a name may have. -/
def maxName : Nat := 255

/-- The most bytes that a path may have. -/
def maxPath : Nat := 4095

/-- Follows names from a directory. -/
def walk (f : Folder) : Path → List String → Place
  | _, [] => .directory
  | here, n :: rest =>
    if n = ".." then
      match here with
      | [] => if rest.all (· = "..") then .directory else .nowhere .notFound
      | here => walk f here.dropLast rest
    else if maxName < n.utf8ByteSize then .nowhere .nameTooLong
    else
      match f.files.lookup (here ++ [n]), rest with
      | some text, [] => .file (here ++ [n]) text
      | some _, _ => .nowhere .notDirectory
      | none, rest =>
        if f.hasDirectory (here ++ [n]) then walk f (here ++ [n]) rest
        else if rest = [] then .missing (here ++ [n])
        else .nowhere .notFound

/-- What a path leads to.  Outside of the folder there are directories only. -/
def find (f : Folder) (path : String) : Place :=
  if path = "" then .nowhere .notFound
  else if maxPath < path.utf8ByteSize then .nowhere .nameTooLong
  else if path.toList.head? = some '/' then
    if names path = [] then .directory else .nowhere .notFound
  else
    match f.walk [] (names path), wantsDirectory path with
    | .file _ _, true => .nowhere .notDirectory
    | place, _ => place

/-- The text of a file. -/
def read (f : Folder) (path : String) : Except FileError String :=
  match f.find path with
  | .file _ text => .ok text
  | .directory => .error .isDirectory
  | .missing _ => .error .notFound
  | .nowhere e => .error e

/-- Puts a file into the folder in place of the one that is there. -/
def put (f : Folder) (path : Path) (text : String) : Folder :=
  ⟨(path, text) :: f.files.filter fun file => file.1 ≠ path⟩

/-- Writes the text of a file, which is created if it is missing. -/
def write (f : Folder) (path : String) (text : String) : Except FileError Folder :=
  match f.find path with
  | .file p _ => .ok (f.put p text)
  | .directory => .error .isDirectory
  | .missing p => if wantsDirectory path then .error .isDirectory else .ok (f.put p text)
  | .nowhere e => .error e

/-- A folder with the given files. -/
def ofFiles (files : List (String × String)) : Folder :=
  ⟨files.map fun file => (names file.1, file.2)⟩

end Folder

end Naskah.Command
