import FieldSchema.Folder
import FieldSchema.Registry
import FieldSchema.SchemaFile
import FieldSchema.Settings
import FieldSchema.Text.Units

/-!
# Projects

A project is a folder with a description, settings and schema files. Its schema files are read in
the order of their names, then compiled in that order into a registry, which is frozen.
-/

namespace FieldSchema

/-- The title and the description of a project. -/
structure ProjectNotes where
  name : String := "Untitled API"
  description : String := ""
deriving Repr, DecidableEq

/-- A loaded project. -/
structure Project where
  notes : ProjectNotes
  settings : Settings
  registry : Registry
  /-- The file that each schema came from. -/
  sources : NameTable String

namespace ProjectNotes

/-- The title in a line that is a heading of the first level: a mark, at least one blank, and the
title up to the end of the line. -/
def heading? (line : List Char) : Option String :=
  match line with
  | '#' :: rest =>
      let blanks := rest.takeWhile Text.isBlank
      match rest.dropWhile Text.isBlank with
      | [] =>
          match blanks.reverse with
          | last :: _ :: _ => if Text.isLineEnd last then none else some ""
          | _ => none
      | title =>
          if blanks.isEmpty || title.any Text.isLineEnd then none
          else some (String.ofList (Text.trimChars title))
  | _ => none

/-- The lines, without blanks around them, up to the next heading of a lower level. -/
def describingLines : List (List Char) → List String
  | [] => []
  | ('#' :: '#' :: _) :: _ => []
  | line :: rest =>
      match Text.trimChars line with
      | [] => describingLines rest
      | kept => String.ofList kept :: describingLines rest

/-- The notes in the lines of a text: the first title, and the description below it. -/
def ofLines : List (List Char) → ProjectNotes
  | [] => {}
  | line :: rest =>
      match heading? line with
      | some name => { name, description := String.intercalate " " (describingLines rest) }
      | none => ofLines rest

/-- The notes in a text. -/
def ofText (content : String) : ProjectNotes :=
  ofLines (Text.pieces '\n' content.toList)

end ProjectNotes

namespace Project

/-- The ending of schema files. -/
def ending : List Char := ".json".toList

/-- Whether a file of this name holds a schema. -/
def isSchemaFileName (name : String) : Bool :=
  ending.isSuffixOf name.toList && name.toList.head? != some '_'

/-- The name of a schema file without its ending. -/
def schemaNameOf (file : String) : String :=
  String.ofList (file.toList.take (file.toList.length - ending.length))

/-- The names of the schema files in a directory, in ascending order. -/
def schemaFileNames (f : Folder) (directory : Path) : List String :=
  Text.sortByUnits ((f.names directory).filter isSchemaFileName)

/-- A schema file that was read, and the path by which it is reported. -/
structure Source where
  file : SchemaFile
  path : String

/-- Read a schema file of a directory. -/
def readSource (f : Folder) (directory : Path) (name : String) : Outcome Source :=
  let path := "schemas/" ++ name
  match f.read? (directory ++ [name]) with
  | none => .error .fileAccess
  | some content => do return ⟨← SchemaFile.read content (schemaNameOf name) path, path⟩

/-- The registry in which the sources are announced. -/
def announce (registry : Registry) (sources : List Source) : Registry :=
  sources.foldl (fun r source => (r.declare source.file.name).state) registry

/-- What compiling the sources of a project has come to. -/
structure Progress where
  registry : Registry
  sources : NameTable String := []

/-- Compile sources one after another. The first failure ends the work, and is noticed. -/
def compileSources (p : Progress) : List Source → Step Progress Unit
  | [] => { outcome := .ok (), state := p }
  | source :: rest =>
      let file := source.file
      let step := p.registry.compile file.name file.fields (file.overrides.getD [])
      match step.outcome with
      | .error failure =>
          { outcome := .error failure
            state := { p with registry := step.state }
            notices := step.notices ++ [.fileFailed source.path] }
      | .ok _ =>
          let next : Progress := ⟨step.state, p.sources.put file.name source.path⟩
          let others := compileSources next rest
          { others with notices := step.notices ++ others.notices }

/-- Load the project in a directory: the outcome, and the notices on the way. Missing notes and
settings are replaced by standard ones, and a missing directory of schemas is an empty one. -/
def load (f : Folder) (root : Path) : Outcome Project × List Notice :=
  let notes := match f.read? (root ++ ["project.md"]) with
    | some content => ProjectNotes.ofText content
    | none => {}
  let settings := Settings.ofText ((f.read? (root ++ ["config", "compiler.md"])).getD "")
  let directory := root ++ ["schemas"]
  match (schemaFileNames f directory).mapM (readSource f directory) with
  | .error failure => (.error failure, [])
  | .ok sources =>
      let registry := announce { typeDefaults := settings.typeDefaults } sources
      let compiled := compileSources { registry } sources
      (do
        compiled.outcome
        return ⟨notes, settings, compiled.state.registry.freeze, compiled.state.sources⟩,
        compiled.notices)

end Project

end FieldSchema
