import FieldSchema.Value

/-!
# Documentation trees

The documentation tree of a schema has one node per field. A node states its type, whether the
field is required, and keywords that describe the field to a reader. Requiredness stays on each
field's node; no object lists its required members.
-/

namespace FieldSchema

/-- Keywords that a field's options state, each at most once. -/
structure Keywords where
  minimum : Option Float := none
  maximum : Option Float := none
  minLength : Option Float := none
  maxLength : Option Float := none
  format : Option String := none
  pattern : Option String := none
  description : Option String := none
  title : Option String := none
  nullable : Option Bool := none
  deprecated : Option Bool := none
  readOnly : Option Bool := none
  writeOnly : Option Bool := none
  sample : Option Value := none
  default : Option Value := none

/-- Keywords that a field's type or position imposes. Each replaces the stated keyword of its
name. -/
structure Imposed where
  format : Option String := none
  sample : Option Value := none
  title : Option String := none

/-- What every documentation node says. -/
structure Annotations where
  required : Bool
  stated : Keywords := {}
  imposed : Imposed := {}

/-- Types of nodes that hold a single value. A choice is a string out of a list. -/
inductive LeafType where
  | string
  | integer
  | number
  | boolean
  | choice (values : List String)
deriving Repr, DecidableEq

/-- A documentation node. -/
inductive Node where
  | leaf (type : LeafType) (notes : Annotations)
  | array (items : Node) (notes : Annotations)
  /-- An object of which no members are known. -/
  | openObject (notes : Annotations)
  | object (properties : List (String × Node)) (notes : Annotations)

namespace Keywords

/-- The stated keywords in published order. An imposed format, sample or title takes the place of the
stated one. -/
def entries (k : Keywords) (imposed : Imposed) : Record Value :=
  .ofOption "minimum" .number k.minimum ++ .ofOption "maximum" .number k.maximum ++
    .ofOption "minLength" .number k.minLength ++ .ofOption "maxLength" .number k.maxLength ++
    .ofOption "format" .text (k.format.map fun stated => imposed.format.getD stated) ++
    .ofOption "pattern" .text k.pattern ++ .ofOption "description" .text k.description ++
    .ofOption "title" .text (k.title.map fun stated => imposed.title.getD stated) ++
    .ofOption "nullable" .bool k.nullable ++ .ofOption "deprecated" .bool k.deprecated ++
    .ofOption "readOnly" .bool k.readOnly ++ .ofOption "writeOnly" .bool k.writeOnly ++
    .ofOption "example" id (k.sample.map fun stated => imposed.sample.getD stated) ++
    .ofOption "default" id k.default

end Keywords

namespace LeafType

/-- The published name of a leaf's type. -/
def name : LeafType → String
  | .string => "string"
  | .integer => "integer"
  | .number => "number"
  | .boolean => "boolean"
  | .choice _ => "string"

/-- The values of a choice. -/
def values? : LeafType → Option (List String)
  | .choice values => some values
  | _ => none

/-- The entry that lists the values of a choice. -/
def entries (type : LeafType) : Record Value :=
  .ofOption "enum" (fun values => .list (values.map .text)) type.values?

end LeafType

namespace Node

/-- What a node says besides its content. -/
def notes : Node → Annotations
  | .leaf _ notes => notes
  | .array _ notes => notes
  | .openObject notes => notes
  | .object _ notes => notes

/-- Whether the field is required. -/
def required (n : Node) : Bool := n.notes.required

/-- The published name of a node's type. -/
def typeName : Node → String
  | .leaf type _ => type.name
  | .array _ _ => "array"
  | .openObject _ => "object"
  | .object _ _ => "object"

/-- The format that a node publishes. -/
def format (n : Node) : Option String :=
  n.notes.imposed.format.or n.notes.stated.format

/-- The title that a node publishes. -/
def title (n : Node) : Option String :=
  n.notes.imposed.title.or n.notes.stated.title

/-- An imposed keyword that no stated keyword made room for. -/
def unplaced {α β : Type} (name : String) (encode : α → Value) (imposed : Option α)
    (stated : Option β) : Record Value :=
  match stated with
  | some _ => []
  | none => .ofOption name encode imposed

/-- The entries of a node around its content: stated keywords, type, content, requiredness, and at
the end what its type or position imposes. -/
def entriesAround (notes : Annotations) (type : String) (content : Record Value) : Record Value :=
  notes.stated.entries notes.imposed ++ [("type", .text type)] ++
    unplaced "format" .text notes.imposed.format notes.stated.format ++ content ++
    [("required", .bool notes.required)] ++
    unplaced "example" id notes.imposed.sample notes.stated.sample ++
    unplaced "title" .text notes.imposed.title notes.stated.title

mutual

/-- The tree as data. -/
def toValue : Node → Value
  | .leaf type notes => .object false (entriesAround notes type.name type.entries)
  | .array items notes => .object false (entriesAround notes "array" [("items", items.toValue)])
  | .openObject notes => .object false (entriesAround notes "object" [])
  | .object properties notes =>
      .object false
        (entriesAround notes "object" [("properties", .object false (propertiesToValue properties))])

/-- The properties of an object as data. -/
def propertiesToValue : List (String × Node) → List (String × Value)
  | [] => []
  | (name, node) :: rest => (name, node.toValue) :: propertiesToValue rest

end

end Node

end FieldSchema
