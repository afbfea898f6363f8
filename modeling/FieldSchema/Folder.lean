import FieldSchema.Text.Pieces

/-!
# Folders

The content of a file system as data: texts under paths. A path is the list of names that lead to a
file from the root. Every path that leads on to another one is a directory; directories without
files can be listed besides.
-/

namespace FieldSchema

/-- The names that lead from the root to a file or a directory. -/
abbrev Path := List String

namespace Path

/-- Follow one name: an empty name and a dot stay, two dots lead back. -/
def follow (path : Path) (name : String) : Path :=
  if name = "" ∨ name = "." then path
  else if name = ".." then path.dropLast
  else path ++ [name]

/-- The path that a text names as seen from a directory. -/
def resolve (base : Path) (text : String) : Path :=
  let start := match text.toList with
    | '/' :: _ => []
    | _ => base
  (Text.splitAtChar '/' text).foldl follow start

/-- The text of a path. -/
def toText (path : Path) : String :=
  "/" ++ String.intercalate "/" path

/-- The path that leads to the directory above. -/
def above (path : Path) : Path := path.dropLast

/-- The name to follow next from a path towards another one, if the path leads there. -/
def nextName? : Path → Path → Option String
  | [], name :: _ => some name
  | a :: path, b :: other => if a = b then nextName? path other else none
  | _, [] => none

end Path

/-- Texts under paths, and directories listed besides. -/
structure Folder where
  files : List (Path × String) := []
  directories : List Path := []

namespace Folder

/-- The text of a file. -/
def read? (f : Folder) (path : Path) : Option String :=
  List.lookup path f.files

/-- The paths that are there. -/
def paths (f : Folder) : List Path :=
  f.files.map Prod.fst ++ f.directories

/-- Whether a path is a directory. -/
def isDirectory (f : Folder) (path : Path) : Bool :=
  f.directories.contains path || f.paths.any fun other => (path.nextName? other).isSome

/-- The names in a directory, each once. -/
def names (f : Folder) (path : Path) : List String :=
  (f.paths.filterMap path.nextName?).eraseDups

/-- Put a text under a path. There must be a directory to hold it, and none in its place. -/
def write? (f : Folder) (path : Path) (text : String) : Option Folder :=
  if f.isDirectory path || !f.isDirectory path.above then none
  else some { f with files := (path, text) :: f.files.filter fun file => file.1 != path }

theorem read?_write? {f g : Folder} {path : Path} {text : String}
    (h : f.write? path text = some g) : g.read? path = some text := by
  unfold write? at h
  split at h
  · simp at h
  · simp only [Option.some.injEq] at h
    subst h
    simp [read?]

end Folder

end FieldSchema
