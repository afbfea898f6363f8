import FieldSchema.Value

/-!
# Validation rules

A validation descriptor is a list of rules, one per field. A rule gives the type of a field, whether
it is required and the constraints on its value, and the rules of the fields inside it.
-/

namespace FieldSchema

/-- Types that validation tells apart. -/
inductive RuleType where
  | string
  | integer
  | number
  | decimal
  | boolean
  | date
  | datetime
  | array
  | map
deriving Repr, DecidableEq

namespace RuleType

/-- The name of a rule's type. -/
def name : RuleType → String
  | .string => "string"
  | .integer => "integer"
  | .number => "number"
  | .decimal => "decimal"
  | .boolean => "boolean"
  | .date => "date"
  | .datetime => "datetime"
  | .array => "array"
  | .map => "map"

/-- The types. -/
def all : List RuleType :=
  [.string, .integer, .number, .decimal, .boolean, .date, .datetime, .array, .map]

/-- The type of a name. -/
def ofName? (name : String) : Option RuleType :=
  all.find? fun type => type.name == name

end RuleType

/-- What a rule demands of a value besides its type. -/
structure Constraints where
  minimum : Option Float := none
  maximum : Option Float := none
  minLength : Option Float := none
  maxLength : Option Float := none
  pattern : Option String := none
  nullable : Option Bool := none
  default : Option Value := none
  included : Option (List String) := none

/-- What every rule says. -/
structure RuleHead where
  name : String
  type : RuleType
  required : Bool
  constraints : Constraints := {}

/-- Types of an array's elements. Elements that are maps may have any keys. -/
inductive ItemType where
  | string
  | integer
  | map
deriving Repr, DecidableEq

/-- The name of an element type. -/
def ItemType.name : ItemType → String
  | .string => "string"
  | .integer => "integer"
  | .map => "map"

/-- A validation rule. -/
inductive Rule where
  /-- A rule that says nothing of elements or of inner fields. -/
  | plain (head : RuleHead)
  /-- A rule whose value has known fields. -/
  | fields (head : RuleHead) (inner : List Rule)
  /-- A rule whose value is an array of elements of one type. -/
  | items (head : RuleHead) (item : ItemType)
  /-- A rule whose value is an array of maps with known fields. -/
  | itemFields (head : RuleHead) (inner : List Rule)

/-- A validation descriptor. -/
abbrev Descriptor := List Rule

namespace Constraints

/-- The constraints as named entries. -/
def entries (c : Constraints) : Record Value :=
  .ofOption "minimum" .number c.minimum ++ .ofOption "maximum" .number c.maximum ++
    .ofOption "minLength" .number c.minLength ++ .ofOption "maxLength" .number c.maxLength ++
    .ofOption "pattern" .text c.pattern ++ .ofOption "nullable" .bool c.nullable ++
    .ofOption "default" id c.default ++
    .ofOption "included" (fun values => .list (values.map .text)) c.included

end Constraints

namespace Rule

/-- What a rule says besides its elements and inner fields. -/
def head : Rule → RuleHead
  | .plain head => head
  | .fields head _ => head
  | .items head _ => head
  | .itemFields head _ => head

/-- The name of the field that a rule is about. -/
def name (r : Rule) : String := r.head.name

/-- The rules of the fields inside the value, or inside its elements. -/
def inner? : Rule → Option Descriptor
  | .fields _ inner => some inner
  | .itemFields _ inner => some inner
  | _ => none

/-- The type of the elements of an array. -/
def item? : Rule → Option ItemType
  | .items _ item => some item
  | .itemFields _ _ => some .map
  | _ => none

/-- The entries that every rule has. -/
def headEntries (head : RuleHead) : Record Value :=
  [("name", .text head.name), ("type", .text head.type.name), ("required", .bool head.required),
    ("constraints", .object false head.constraints.entries)]

mutual

/-- A rule as data. -/
def toValue : Rule → Value
  | .plain head => .object false (headEntries head)
  | .fields head inner =>
      .object false (headEntries head ++ [("fields", .list (listToValues inner))])
  | .items head item =>
      .object false
        (headEntries head ++ [("items", .object false [("type", .text item.name)])])
  | .itemFields head inner =>
      .object false
        (headEntries head ++
          [("items",
            .object false [("type", .text "map"), ("fields", .list (listToValues inner))])])

/-- The rules of a descriptor as data. -/
def listToValues : List Rule → List Value
  | [] => []
  | rule :: rest => rule.toValue :: listToValues rest

end

end Rule

namespace Descriptor

/-- The names that a descriptor is about. -/
def names (d : Descriptor) : List String :=
  d.map Rule.name

/-- A descriptor as data. -/
def toValue (d : Descriptor) : Value :=
  .list (Rule.listToValues d)

end Descriptor

end FieldSchema
