import FieldSchema.Value

/-!
# Assembling object nodes

An object node is put together from named nodes. The node is data, so that nodes from elsewhere can
be put together too; every name is kept as it is, and of two nodes under one name the later counts,
in the place of the earlier.
-/

namespace FieldSchema.Assembly

/-- A node and the name that it gets in its object. -/
structure Fragment where
  name : String
  node : Value

/-- The properties that fragments contribute, in enumeration order. -/
def properties (fragments : List Fragment) : Record Value :=
  Record.ofList (fragments.map fun fragment => (fragment.name, fragment.node))

/-- The object node of fragments. Requiredness defaults to false; a title is stated only when
there is one. -/
def node (fragments : List Fragment) (required title : Value) : Value :=
  .object false
    ([("type", .text "object"), ("properties", .object false (properties fragments)),
        ("required", required.orElse (.bool false))] ++
      if title.isAbsent then [] else [("title", title)])

end FieldSchema.Assembly
