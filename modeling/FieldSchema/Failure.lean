/-!
# Defects and failures

A defect is a mistake in a schema's configuration; it is found while schemas are built. A failure
is anything that ends an operation without a result: a defect, or a value that the host cannot
handle. Each is known by its cause, and the wording is in one place.
-/

namespace FieldSchema

/-- What is wrong with a declaration, an option or a schema file. -/
inductive Complaint where
  | notAList
  | notATuple (ordinal typeName : String)
  | noName (ordinal : String)
  | duplicateName (name : String)
  | unknownKind (kind : String)
  | noType (kind : String)
  | tooManyParts (kind : String)
  | optionsNotPlain
  | misplacedBlock
  | noBlock
  | noEnumValues
  | embedParts (kind : String)
  | embedReference (kind : String)
  | arrayWithoutSubtype
  | unknownType (name : String)
  | unknownTypeTag (json : String)
  | subtypeNotAName
  | optionNotNumber (option : String)
  | optionNotText (option : String)
  | optionNotFlag (option : String)
  | valuesNotAList (option : String)
  | valuesNotScalar (option : String)
  | fileNotJson (file reason : String)
  | fileNotAnObject (file : String)
  | fileName (file : String)
  | fileWithoutFields (file : String)
  | fileOverrides (file : String)
deriving Repr, DecidableEq

/-- The wording of a complaint. -/
def Complaint.text : Complaint → String
  | .notAList => "Declarations must be a list of declaration tuples"
  | .notATuple ordinal typeName =>
      "Expected declaration #" ++ ordinal ++ " to be a tuple, got " ++ typeName
  | .noName ordinal => "Missing field name in declaration #" ++ ordinal
  | .duplicateName name => "Duplicate field name \"" ++ name ++ "\""
  | .unknownKind kind => "Unrecognized declaration kind \"" ++ kind ++ "\""
  | .noType kind => "Missing type for " ++ kind ++ " field"
  | .tooManyParts kind =>
      "Too many parts in " ++ kind ++ " declaration (expected name, type, options)"
  | .optionsNotPlain => "Options must be a plain object"
  | .misplacedBlock =>
      "An inline field block is only allowed on object fields and arrays of objects"
  | .noBlock => "An array of objects needs an inline field block"
  | .noEnumValues => "An enum field needs `values`"
  | .embedParts kind => "Expected " ++ kind ++ " to take a name and a schema reference"
  | .embedReference kind => kind ++ " needs a schema name or a compiled schema"
  | .arrayWithoutSubtype => "Array types need a subtype, e.g. [\"array\", \"string\"]"
  | .unknownType name => "Unrecognized type \"" ++ name ++ "\""
  | .unknownTypeTag json => "Unrecognized type " ++ json
  | .subtypeNotAName => "Array subtype must be a type name"
  | .optionNotNumber option => "Option \"" ++ option ++ "\" must be a number"
  | .optionNotText option => "Option \"" ++ option ++ "\" must be a string"
  | .optionNotFlag option => "Option \"" ++ option ++ "\" must be a boolean"
  | .valuesNotAList option => "Option \"" ++ option ++ "\" must be a non-empty list"
  | .valuesNotScalar option =>
      "Option \"" ++ option ++ "\" may only list strings, numbers or booleans"
  | .fileNotJson file reason => "Invalid JSON in " ++ file ++ ": " ++ reason
  | .fileNotAnObject file => file ++ " must contain a JSON object"
  | .fileName file => "\"name\" in " ++ file ++ " must be a non-empty string"
  | .fileWithoutFields file => file ++ " has no \"fields\" list"
  | .fileOverrides file =>
      "\"overrides\" in " ++ file ++ " must map field paths to option objects"

/-- A mistake in the configuration of a schema. Where a field is concerned its dotted path is
given. -/
inductive Defect where
  | malformed (complaint : Complaint) (path : Option String)
  | unresolvedOption (option description : String) (path : Option String)
  | unsupportedSubtype (subtype : String) (path : Option String)
  | decimalValue (option description : String) (path : Option String)
  | unknownReference (reference : String) (path : Option String)
  | schemaNotFound (name : String)
  | registryFrozen (name : String)
deriving Repr, DecidableEq

namespace Defect

/-- The path of the field concerned. -/
def path : Defect → Option String
  | .malformed _ path => path
  | .unresolvedOption _ _ path => path
  | .unsupportedSubtype _ path => path
  | .decimalValue _ _ path => path
  | .unknownReference _ path => path
  | .schemaNotFound _ => none
  | .registryFrozen _ => none

/-- The wording, without the path. -/
def summary : Defect → String
  | .malformed complaint _ => complaint.text
  | .unresolvedOption option description _ =>
      "Option \"" ++ option ++ "\" must be a literal value known at definition time, got " ++
        description
  | .unsupportedSubtype subtype _ =>
      "Unsupported array subtype \"" ++ subtype ++ "\"; expected string, integer or object"
  | .decimalValue option description _ =>
      "Option \"" ++ option ++
        "\" of a decimal field must be a plain number, got arbitrary-precision value " ++ description
  | .unknownReference reference _ =>
      "Schema \"" ++ reference ++
        "\" is not compiled yet; compile embedded schemas before the schemas that embed them"
  | .schemaNotFound name => "No compiled schema named \"" ++ name ++ "\""
  | .registryFrozen name => "Cannot compile \"" ++ name ++ "\": the registry is frozen"

/-- The full message: the wording, and the path unless it is empty. -/
def message (d : Defect) : String :=
  match d.path with
  | some path => if path = "" then d.summary else d.summary ++ " (at \"" ++ path ++ "\")"
  | none => d.summary

/-- The name under which a defect is reported. -/
def kind : Defect → String
  | .malformed _ _ => "MalformedDeclarationError"
  | .unresolvedOption _ _ _ => "UnresolvedOptionValueError"
  | .unsupportedSubtype _ _ => "UnsupportedSubtypeError"
  | .decimalValue _ _ _ => "DecimalValueNotAllowedError"
  | .unknownReference _ _ => "UnknownSchemaReferenceError"
  | .schemaNotFound _ => "SchemaNotFoundError"
  | .registryFrozen _ => "RegistryFrozenError"

/-- The code by which programs tell defects apart. -/
def code : Defect → String
  | .malformed _ _ => "malformed_declaration"
  | .unresolvedOption _ _ _ => "unresolved_option_value"
  | .unsupportedSubtype _ _ => "unsupported_subtype"
  | .decimalValue _ _ _ => "decimal_value_not_allowed"
  | .unknownReference _ _ => "unknown_schema_reference"
  | .schemaNotFound _ => "schema_not_found"
  | .registryFrozen _ => "registry_frozen"

end Defect

/-- Why an operation ended without a result. -/
inductive Failure where
  | defect (d : Defect)
  /-- A value that has no text form was to be written. -/
  | noText
  /-- A member of nothing was asked for. -/
  | noMembers
  /-- The items of something that has none were asked for. -/
  | noItems
  /-- Errors were to be collected under a name that every object inherits. -/
  | inheritedName
  /-- A pattern, or a pair of length bounds, that no matcher exists for. -/
  | badPattern
  /-- A text that is not JSON. -/
  | badJson
  /-- A file that cannot be read or written. -/
  | fileAccess
deriving Repr, DecidableEq

/-- The name under which a failure is reported. -/
def Failure.kind : Failure → String
  | .defect d => d.kind
  | .noText => "TypeError"
  | .noMembers => "TypeError"
  | .noItems => "TypeError"
  | .inheritedName => "TypeError"
  | .badPattern => "SyntaxError"
  | .badJson => "SyntaxError"
  | .fileAccess => "Error"

/-- The outcome of an operation. -/
abbrev Outcome (α : Type) := Except Failure α

namespace Outcome

/-- End with a complaint about a declaration. -/
def malformed {α : Type} (complaint : Complaint) (path : Option String) : Outcome α :=
  .error (.defect (.malformed complaint path))

variable {α β : Type}

theorem pure_eq_ok {a b : α} : (pure a : Outcome α) = .ok b ↔ a = b := by
  simp [pure, Except.pure]

theorem bind_eq_ok {x : Outcome α} {f : α → Outcome β} {b : β} :
    x >>= f = .ok b ↔ ∃ a, x = .ok a ∧ f a = .ok b := by
  cases x <;> simp [bind, Except.bind]

theorem bind_eq_error {x : Outcome α} {f : α → Outcome β} {failure : Failure} :
    x >>= f = .error failure ↔
      x = .error failure ∨ ∃ a, x = .ok a ∧ f a = .error failure := by
  cases x <;> simp [bind, Except.bind]

theorem malformed_ne_ok {complaint : Complaint} {path : Option String} {a : α} :
    malformed complaint path ≠ .ok a := by
  simp [malformed]

end Outcome

end FieldSchema
