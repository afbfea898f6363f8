import FieldSchema.Json.Reader

/-!
# Schema files

A schema file holds one schema as a JSON object: its declarations, its name unless the file's name
is meant, and possibly overrides.
-/

namespace FieldSchema

/-- The content of a schema file. -/
structure SchemaFile where
  name : String
  fields : Value
  overrides : Option (Record Value) := none

namespace SchemaFile

/-- Why a text is not JSON. This fixed text stands for the message of the JSON reader, which the
complaint about a file passes on as it is: the reader words it, and names the position at which the
text goes wrong. What is said of such a complaint is therefore said up to that message. -/
def notJsonReason : String := "the text is not one JSON value"

/-- The overrides that a file gives: options by path, if it gives any. -/
def readOverrides (file : String) (v : Value) : Outcome (Option (Record Value)) :=
  match v with
  | .absent => .ok none
  | .object _ members =>
      if members.all fun entry => entry.2.isPlainObject then .ok (some members)
      else .malformed (.fileOverrides file) none
  | _ => .malformed (.fileOverrides file) none

/-- The name that a file gives, or else the default name. -/
def readName (file defaultName : String) (v : Value) : Outcome String :=
  match v.orElse (.text defaultName) with
  | .text name => if name = "" then .malformed (.fileName file) none else .ok name
  | _ => .malformed (.fileName file) none

/-- The content of a file. The object, the name, the declarations and the overrides are checked in
this order. -/
def read (content defaultName file : String) : Outcome SchemaFile :=
  match Json.read? content with
  | none => .malformed (.fileNotJson file notJsonReason) none
  | some data => do
      if !data.isPlainObject then Outcome.malformed (.fileNotAnObject file) none
      let name ← readName file defaultName (data.member "name")
      let fields := data.member "fields"
      if fields.isAbsent then Outcome.malformed (.fileWithoutFields file) none
      let overrides ← readOverrides file (data.member "overrides")
      return { name, fields, overrides }

end SchemaFile

end FieldSchema
