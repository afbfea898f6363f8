import FieldSchema.Failure
import FieldSchema.Value

/-!
# Published schema objects

A documentation tree is published as a schema object. Requiredness, which the tree states on each
field, becomes a list of required names on the object that holds the fields; keywords are kept in
their order, with the type after them. The tree is taken as data, so that one handed over from
elsewhere can be published too.
-/

namespace FieldSchema.Publication

/-- The entries of a node that are not copied as they are. -/
def structuralNames : List String := ["type", "required", "items", "properties", "enum"]

/-- The entries of a node that are copied as they are. -/
def keywords (members : Record Value) : Record Value :=
  members.filter fun entry => !structuralNames.contains entry.1

/-- What is published for a node that is no object: what it lists, and no type. -/
def untyped (v : Value) : Value :=
  .object false (v.ownEntries ++ [("type", .absent)])

/-- The items of a list of values, one by one. -/
def listedValues : Value → Outcome (List Value)
  | .list items => .ok items
  | .text s => .ok (s.toList.map fun c => .text (String.singleton c))
  | .host .map => .ok []
  | .host .set => .ok []
  | _ => .error .noItems

/-- The entry for the listed values of a choice. -/
def choiceEntry (values : Value) : Outcome (Record Value) :=
  if values.isTruthy then do return [("enum", .list (← listedValues values))] else .ok []

/-- The names of the fields, among the properties of an object, that are required. -/
def requiredNames (properties : Value) : List String :=
  (properties.ownEntries.filter fun entry => (entry.2.member "required").isTruthy).map Prod.fst

/-- The entry that lists required names, unless there are none. -/
def requiredEntry (properties : Value) : Record Value :=
  match requiredNames properties with
  | [] => []
  | names => [("required", .list (names.map .text))]

/-- The entries for the published properties of an object. -/
def propertyEntries (properties : Value) (published : Option (List (String × Value))) :
    Record Value :=
  match published with
  | some children => ("properties", .ofEntries children) :: requiredEntry properties
  | none => []

mutual

/-- The schema object of a node. -/
def schemaObject : Value → Outcome Value
  | .absent => .error .noMembers
  | .null => .error .noMembers
  | .object _ members => do
      let type := (Record.get? members "type").getD .absent
      if type.isText "array" then
        let items ← itemObject members
        return .object false (keywords members ++ [("type", type), ("items", items)])
      else
        let choice ← choiceEntry ((Record.get? members "enum").getD .absent)
        let children ← propertyObjects members
        let properties := (Record.get? members "properties").getD .absent
        return .object false
          (keywords members ++ [("type", type)] ++ choice ++ propertyEntries properties children)
  | v => .ok (untyped v)

/-- The schema object of the elements of an array, found among the array's members. -/
def itemObject : List (String × Value) → Outcome Value
  | [] => .ok (.object false [])
  | (name, value) :: rest =>
      if name = "items" then
        if value.isTruthy then schemaObject value else .ok (.object false [])
      else itemObject rest

/-- The schema objects of the properties of an object, found among the object's members. -/
def propertyObjects : List (String × Value) → Outcome (Option (List (String × Value)))
  | [] => .ok none
  | (name, value) :: rest =>
      if name = "properties" then
        if value.isTruthy then do return some (← childObjects value) else .ok none
      else propertyObjects rest

/-- The schema objects of everything that a value lists. -/
def childObjects : Value → Outcome (List (String × Value))
  | .object _ members => memberObjects members
  | .list items => elementObjects 0 items
  | v => .ok (v.ownEntries.map fun entry => (entry.1, untyped entry.2))

/-- The schema objects of the members of an object, in order. -/
def memberObjects : List (String × Value) → Outcome (List (String × Value))
  | [] => .ok []
  | (name, value) :: rest => do
      let published ← schemaObject value
      return (name, published) :: (← memberObjects rest)

/-- The schema objects of the elements of a list, under their positions. -/
def elementObjects (position : Nat) : List Value → Outcome (List (String × Value))
  | [] => .ok []
  | value :: rest => do
      let published ← schemaObject value
      return (toString position, published) :: (← elementObjects (position + 1) rest)

end

end FieldSchema.Publication
