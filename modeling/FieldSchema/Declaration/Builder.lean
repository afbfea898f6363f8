import FieldSchema.Declaration

/-!
# Building declarations

Small builders for raw declarations, and the raw form of a declaration that has been read.
-/

namespace FieldSchema.Declaration

/-- A raw field declaration; options that are absent or otherwise empty are left out. -/
def rawField (kind : FieldKind) (name type options : Value) : Value :=
  if options.isTruthy then .list [.text kind.name, name, type, options]
  else .list [.text kind.name, name, type]

/-- A raw embed declaration. -/
def rawEmbed (kind : EmbedKind) (name schema : Value) : Value :=
  .list [.text kind.name, name, schema]

/-- The type tag of an array. -/
def rawArray (element : Value) : Value :=
  .list [.text "array", element]

/-- The type tag of a field type. -/
def rawType : FieldType → Value
  | .scalar type => .text type.name
  | .array element => rawArray (.text element.name)

mutual

/-- The raw form of a declaration. -/
def toRaw : Declaration → Value
  | .field head =>
      rawField head.kind (.text head.name) (rawType head.type) (.object false head.options)
  | .block head inner =>
      rawField head.kind (.text head.name) (rawType head.type)
        (.object false (Record.set head.options "fields" (.list (blockToRaw inner))))
  | .embed kind name reference => rawEmbed kind (.text name) (.text reference)

/-- The raw forms of a block's declarations. -/
def blockToRaw : List Declaration → List Value
  | [] => []
  | d :: rest => d.toRaw :: blockToRaw rest

end

end FieldSchema.Declaration
