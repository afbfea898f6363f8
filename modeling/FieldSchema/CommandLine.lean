import FieldSchema.Json.Writer
import FieldSchema.Project
import FieldSchema.Publication.Document
import FieldSchema.Validation.Verdict

/-!
# The command line

What the program does for its arguments, on a folder given as data: the texts that it prints and
reports, the exit code, and the folder that it leaves.
-/

namespace FieldSchema.CommandLine

/-- What a run has printed, reported and written so far. -/
structure Console where
  folder : Folder
  printed : List String := []
  reported : List String := []

/-- A piece of work that may fail; what it did before it failed stays done. -/
abbrev Job := ExceptT Failure (StateM Console)

/-- Print a text. -/
def printText (text : String) : Job Unit :=
  modify fun c => { c with printed := c.printed ++ [text] }

/-- Report a text besides what is printed. -/
def reportText (text : String) : Job Unit :=
  modify fun c => { c with reported := c.reported ++ [text] }

/-- The outcome of something that was computed. -/
def ofOutcome {α : Type} (outcome : Outcome α) : Job α :=
  match outcome with
  | .ok x => pure x
  | .error failure => throw failure

/-- The version of the program. -/
def version : String := "0.1.0"

/-- How the program is used. -/
def usage : String :=
  "duoschema v" ++ version ++
    ": compile field declarations into validators and OpenAPI schemas\n" ++
    "\n" ++
    "Usage:\n" ++
    "  duoschema compile <project-path> [--out <file>]          " ++
    "Print or write the OpenAPI document\n" ++
    "  duoschema schemas <project-path>                         " ++
    "List compiled schemas and their fields\n" ++
    "  duoschema validate <project-path> <schema> <input.json>  " ++
    "Validate a JSON file against a schema\n" ++
    "  duoschema version                                        " ++
    "Print version\n" ++
    "\n" ++
    "A project folder holds project.md, config/compiler.md and schemas/*.json.\n" ++
    "Schema files are compiled in file-name order; embed only schemas that sort earlier."

/-- The mark of the program before what it reports. -/
def mark (text : String) : String := "[duoschema] " ++ text

/-- Load the project at a path. -/
def openProject (root : Path) : Job Project := do
  reportText (mark ("Loading project from: " ++ root.toText))
  let (outcome, notices) := Project.load (← get).folder root
  notices.forM fun notice => reportText notice.line
  let project ← ofOutcome outcome
  reportText (mark ("Compiled " ++ toString project.registry.names.length ++
    " schema(s) for \"" ++ project.notes.name ++ "\""))
  return project

/-- The JSON text of a value, indented. -/
def jsonText (v : Value) : Job String := do
  return (← ofOutcome (Json.indented? v)).getD "undefined"

/-- The document of a project. It holds the project's schemas and no operations. -/
def projectDocument (project : Project) : Outcome Value :=
  let schemas := project.registry.schemas.map fun entry =>
    (⟨entry.2.name, entry.2.documentation.toValue⟩ : Publication.NamedNode)
  Publication.document
    { title := .text project.notes.name
      description := .text project.notes.description
      settings := project.settings.documentSettings }
    schemas []

/-- Write a text to a file. -/
def writeFile (path : Path) (text : String) : Job Unit := do
  match (← get).folder.write? path text with
  | some folder => modify fun c => { c with folder }
  | none => throw .fileAccess

/-- Print the document of a project, or write it to a file. -/
def compile (root : Path) (out : Option Path) : Job Nat := do
  let project ← openProject root
  let json ← jsonText (← ofOutcome (projectDocument project))
  match out with
  | some path =>
      writeFile path (json ++ "\n")
      reportText (mark ("Wrote " ++ path.toText))
  | none => printText json
  return 0

/-- The line for one rule. -/
def ruleLine (indent : String) (rule : Rule) : String :=
  let item := match rule.item? with
    | some item => "<" ++ item.name ++ ">"
    | none => ""
  indent ++ rule.name ++ ": " ++ rule.head.type.name ++ item ++
    if rule.head.required then ", required" else ""

mutual

/-- The lines for a rule and the rules inside it, which are indented further. -/
def describeRule (indent : String) : Rule → List String
  | .plain head => [ruleLine indent (.plain head)]
  | .items head item => [ruleLine indent (.items head item)]
  | .fields head inner =>
      ruleLine indent (.fields head inner) :: describeRules (indent ++ "  ") inner
  | .itemFields head inner =>
      ruleLine indent (.itemFields head inner) :: describeRules (indent ++ "  ") inner

/-- The lines for rules. -/
def describeRules (indent : String) : List Rule → List String
  | [] => []
  | rule :: rest => describeRule indent rule ++ describeRules indent rest

end

/-- The lines for a schema: its name and file, and its fields. -/
def schemaLines (project : Project) (schema : Schema) : List String :=
  let source := (project.sources.get? schema.name).getD "?"
  (schema.name ++ "  (" ++ source ++ ")") :: describeRules "  " schema.descriptor

/-- List the schemas of a project. -/
def listSchemas (root : Path) : Job Nat := do
  let project ← openProject root
  (project.registry.schemas.flatMap fun entry => schemaLines project entry.2).forM printText
  return 0

/-- The text of a file that must be there. -/
def readFile (path : Path) : Job String := do
  match (← get).folder.read? path with
  | some content => return content
  | none => throw .fileAccess

/-- Validate a file against a schema. An input that is rejected gives exit code 1. -/
def validate (root : Path) (schemaName : String) (inputPath : Path) : Job Nat := do
  let project ← openProject root
  let input ← ofOutcome (Json.read (← readFile inputPath))
  let schema ← ofOutcome (project.registry.lookup schemaName)
  match ← ofOutcome (schema.descriptor.judge input) with
  | .accepted value =>
      printText (← jsonText value)
      return 0
  | .rejected errors =>
      printText (← jsonText (.object false [("errors", errors.toValue)]))
      return 1

/-- The argument after the first occurrence of a flag. -/
def argumentAfter? (flag : String) : List String → Option String
  | [] => none
  | argument :: rest => if argument = flag then rest.head? else argumentAfter? flag rest

/-- Print how the program is used. -/
def printUsage (code : Nat) : Job Nat := do
  printText usage
  return code

/-- Do what a command on a project says. -/
def runCommand (cwd : Path) (command project : String) (arguments : List String) : Job Nat :=
  let root := Path.resolve cwd project
  match command with
  | "compile" =>
      let out := (argumentAfter? "--out" arguments).filter (· != "")
      compile root (out.map (Path.resolve cwd))
  | "schemas" => listSchemas root
  | "validate" =>
      match arguments with
      | _ :: _ :: schema :: input :: _ =>
          if schema = "" ∨ input = "" then validateUsage
          else validate root schema (Path.resolve cwd input)
      | _ => validateUsage
  | _ => do
      reportText ("Unknown command: " ++ command)
      printUsage 1
where
  validateUsage : Job Nat := do
    reportText "Usage: duoschema validate <project-path> <schema> <input.json>"
    return 1

/-- Do what the arguments say. -/
def dispatch (cwd : Path) (arguments : List String) : Job Nat :=
  match arguments with
  | [] => printUsage 0
  | command :: rest =>
      if ["", "--help", "-h"].contains command then printUsage 0
      else if ["version", "--version", "-v"].contains command then do
        printText ("duoschema v" ++ version)
        return 0
      else
        match rest with
        | project :: _ =>
            if project = "" then printUsage 1 else runCommand cwd command project arguments
        | [] => printUsage 1

/-- The part of a file system that a run looks at. -/
structure Scope where
  /-- Paths to files that are read. -/
  files : List Path := []
  /-- Paths to directories whose schema files are read. -/
  listings : List Path := []

/-- The part of a file system that a run with these arguments looks at: the project, an input to
validate, and the place of an output. -/
def scope (cwd : Path) (arguments : List String) : Scope :=
  match arguments with
  | _ :: project :: rest =>
      let root := Path.resolve cwd project
      let input := (rest[1]?.map (Path.resolve cwd)).toList
      let out := ((argumentAfter? "--out" arguments).map (Path.resolve cwd)).toList
      { files := [root ++ ["project.md"], root ++ ["config", "compiler.md"]] ++ input ++ out ++
          out.map Path.above
        listings := [root ++ ["schemas"]] }
  | _ => {}

/-- How a failure is reported. -/
def failureText : Failure → String
  | .defect d => mark (d.kind ++ ": " ++ d.message)
  | failure => mark ("Fatal error: " ++ failure.kind)

/-- Run the program: the exit code, and what it printed, reported and left. -/
def run (cwd : Path) (folder : Folder) (arguments : List String) : Nat × Console :=
  match (dispatch cwd arguments).run.run { folder } with
  | (.ok code, console) => (code, console)
  | (.error failure, console) =>
      (1, { console with reported := console.reported ++ [failureText failure] })

/-- The files that a run has written. -/
def Console.written (c : Console) (before : Folder) : List (Path × String) :=
  c.folder.files.filter fun file => before.read? file.1 != some file.2

end FieldSchema.CommandLine
