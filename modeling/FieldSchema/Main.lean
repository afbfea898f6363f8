import FieldSchema.CommandLine

/-!
# The program

Reads the part of the file system that a run looks at, runs the command line on it, prints what it
says and writes the files that it has written.
-/

namespace FieldSchema.Program

/-- Add what stands under a path to a folder: a directory, a text, or nothing. -/
def addPath (folder : Folder) (path : Path) : IO Folder := do
  let place := (← IO.currentDir) / path.toText
  if ← place.isDir then
    return { folder with directories := path :: folder.directories }
  try
    let content ← IO.FS.readFile place
    return { folder with files := (path, content) :: folder.files }
  catch _ => return folder

/-- Add the schema files of a directory to a folder. -/
def addListing (folder : Folder) (directory : Path) : IO Folder := do
  let place := (← IO.currentDir) / directory.toText
  if ← place.isDir then
    let names := (← place.readDir).toList.map fun entry => entry.fileName
    (names.filter Project.isSchemaFileName).foldlM
      (fun folder name => addPath folder (directory ++ [name])) folder
  else return folder

/-- The folder that a run looks at. -/
def collect (scope : CommandLine.Scope) : IO Folder := do
  scope.listings.foldlM addListing (← scope.files.foldlM addPath {})

end FieldSchema.Program

open FieldSchema

def main (arguments : List String) : IO UInt32 := do
  let cwd := Path.resolve [] (← IO.currentDir).toString
  let folder ← Program.collect (CommandLine.scope cwd arguments)
  let (code, console) := CommandLine.run cwd folder arguments
  for line in console.reported do
    IO.eprintln line
  for line in console.printed do
    IO.println line
  for (path, text) in console.written folder do
    IO.FS.writeFile ((← IO.currentDir) / path.toText) text
  return code.toUInt32
