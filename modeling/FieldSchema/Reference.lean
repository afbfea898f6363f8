import FieldSchema.Registry

/-!
# References to schemas

A schema is referred to by its name in a registry, by a compiled schema at hand, or by data that
holds a name and a documentation node.
-/

namespace FieldSchema

/-- How a schema is referred to. -/
inductive Reference where
  | named (name : String)
  | compiled (schema : Schema)
  | given (data : Value)

/-- A member of anything but nothing. -/
def Value.requireMember (v : Value) (name : String) : Outcome Value :=
  if v.isNullish then .error .noMembers else .ok (v.member name)

namespace Registry

/-- The documentation node of a schema, as data. -/
def documentationOf (r : Registry) (reference : Reference) : Outcome Value :=
  match reference with
  | .named name => do return (← r.lookup name).documentation.toValue
  | .compiled schema => .ok schema.documentation.toValue
  | .given data => data.requireMember "documentationSchema"

/-- The name of a schema, as data. -/
def nameOf (r : Registry) (reference : Reference) : Outcome Value :=
  match reference with
  | .named name => do return .text (← r.lookup name).name
  | .compiled schema => .ok (.text schema.name)
  | .given data => data.requireMember "name"

/-- The validation descriptor of a schema. Data at hand has none. -/
def descriptorOf (r : Registry) (reference : Reference) : Outcome Descriptor :=
  match reference with
  | .named name => do return (← r.lookup name).descriptor
  | .compiled schema => .ok schema.descriptor
  | .given _ => .error .noMembers

end Registry

end FieldSchema
