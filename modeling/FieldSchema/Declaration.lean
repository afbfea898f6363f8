import FieldSchema.Options

/-!
# Declarations

A declaration gives a field its name, type and options, or embeds a schema that is already
compiled. Object fields and arrays of objects may declare the fields inside them.
-/

namespace FieldSchema

/-- Types of a single value. -/
inductive ScalarType where
  | string
  | integer
  | number
  | boolean
  | uuid
  | date
  | datetime
  | decimal
  | enumeration
  | object
deriving Repr, DecidableEq

/-- Types of an array's elements. -/
inductive ElementType where
  | string
  | integer
  | object
deriving Repr, DecidableEq

/-- The type of a field. -/
inductive FieldType where
  | scalar (type : ScalarType)
  | array (element : ElementType)
deriving Repr, DecidableEq

namespace ScalarType

/-- The name of a type. -/
def name : ScalarType → String
  | .string => "string"
  | .integer => "integer"
  | .number => "number"
  | .boolean => "boolean"
  | .uuid => "uuid"
  | .date => "date"
  | .datetime => "datetime"
  | .decimal => "decimal"
  | .enumeration => "enum"
  | .object => "object"

/-- The types. -/
def all : List ScalarType :=
  [.string, .integer, .number, .boolean, .uuid, .date, .datetime, .decimal, .enumeration, .object]

/-- Other spellings of a type. -/
def aliases : List (String × ScalarType) :=
  [("map", .object), ("utc_datetime", .datetime), ("naive_datetime", .datetime)]

/-- The type that a name or another spelling means. -/
def ofName? (name : String) : Option ScalarType :=
  (all.find? fun type => type.name == name).or (aliases.lookup name)

end ScalarType

namespace ElementType

/-- The name of an element type. -/
def name : ElementType → String
  | .string => "string"
  | .integer => "integer"
  | .object => "object"

/-- The element type that a name means; `map` is another spelling of `object`. -/
def ofName? (name : String) : Option ElementType :=
  if name = "string" then some .string
  else if name = "integer" then some .integer
  else if name = "object" ∨ name = "map" then some .object
  else none

end ElementType

/-- Whether a field must be present in validated input. A plain field need not. -/
inductive FieldKind where
  | required
  | optional
  | field
deriving Repr, DecidableEq

/-- How many values of an embedded schema a field holds. -/
inductive EmbedKind where
  | one
  | many
deriving Repr, DecidableEq

namespace FieldKind

/-- The word that begins a declaration of this kind. -/
def name : FieldKind → String
  | .required => "required"
  | .optional => "optional"
  | .field => "field"

/-- The kind that a word begins. -/
def ofName? (name : String) : Option FieldKind :=
  if name = "required" then some .required
  else if name = "optional" then some .optional
  else if name = "field" then some .field
  else none

end FieldKind

namespace EmbedKind

/-- The word that begins a declaration of this kind. -/
def name : EmbedKind → String
  | .one => "embeds_one"
  | .many => "embeds_many"

/-- The kind that a word begins. -/
def ofName? (name : String) : Option EmbedKind :=
  if name = "embeds_one" then some .one
  else if name = "embeds_many" then some .many
  else none

end EmbedKind

/-- What a declaration says about a field itself. Option values are unresolved, and the inline
block is not among them. -/
structure FieldHead where
  kind : FieldKind
  name : String
  type : FieldType
  options : Record Value

/-- A declaration. -/
inductive Declaration where
  | field (head : FieldHead)
  /-- A field that declares the fields inside it. -/
  | block (head : FieldHead) (inner : List Declaration)
  /-- A field that holds values of another schema. -/
  | embed (kind : EmbedKind) (name reference : String)

/-- The name of the declared field. -/
def Declaration.name : Declaration → String
  | .field head => head.name
  | .block head _ => head.name
  | .embed _ name _ => name

/-- The dotted path of a field inside a parent. -/
def joinPath (parent name : String) : String :=
  if parent = "" then name else parent ++ "." ++ name

mutual

/-- The dotted paths of the fields that a declaration declares itself, embeds left out. -/
def Declaration.fieldPaths (parent : String) : Declaration → List String
  | .field head => [joinPath parent head.name]
  | .block head inner =>
      joinPath parent head.name :: Declaration.blockPaths (joinPath parent head.name) inner
  | .embed _ _ _ => []

/-- The dotted paths of the fields that a block declares, at any depth. -/
def Declaration.blockPaths (parent : String) : List Declaration → List String
  | [] => []
  | d :: rest => d.fieldPaths parent ++ Declaration.blockPaths parent rest

end

end FieldSchema
