import FieldSchema.Declaration

/-!
# Type defaults

Options that apply to every field of a type unless the field's declaration gives them. They are
used as they are given, without being resolved.
-/

namespace FieldSchema

/-- Options per scalar type. -/
abbrev TypeDefaults := List (ScalarType × OptionSet)

namespace TypeDefaults

/-- The example of a date field that has none. -/
def dateExample : String := "2024-08-12"

/-- The example of a datetime field that has none. -/
def datetimeExample : String := "2024-08-12T21:00:39"

/-- Dates and datetimes carry an example; no other type has defaults. -/
def builtIn : TypeDefaults :=
  [(.date, [(.example, .text dateExample)]), (.datetime, [(.example, .text datetimeExample)])]

/-- The defaults of a type. -/
def optionsFor (defaults : TypeDefaults) (type : ScalarType) : OptionSet :=
  (defaults.lookup type).getD []

/-- The defaults that a value gives under the names of the types. -/
def ofValue (v : Value) : TypeDefaults :=
  ScalarType.all.map fun type => (type, OptionSet.ofValue (v.member type.name))

/-- The defaults that a value gives, or the built-in ones when it gives none. -/
def ofValueOrBuiltIn (v : Value) : TypeDefaults :=
  if v.isNullish then builtIn else ofValue v

end TypeDefaults

end FieldSchema
