import FieldSchema.Value

/-!
# Endpoints

An endpoint is an action of a controller under a method and a path. It names the schema of its
request body, if it has one, and holds the documentation nodes of its request, of its responses by
status and of its callbacks by name. Nodes are data, and so are the parameters outside the request
body: they are kept as they were given.
-/

namespace FieldSchema

/-- A parameter of an endpoint outside the request body, by its entries. -/
structure Parameter where
  entries : Record Value

/-- What is known of an endpoint. -/
structure Endpoint where
  /-- The identity of the endpoint: no controller has two of one identity. -/
  operationId : String
  action : String
  method : String
  path : String
  summary : Value := .text ""
  tags : List String := []
  requestSchemaName : Option String := none
  requestBody : Option Value := none
  responses : Record Value := []
  callbacks : Record Value := []
  parameters : List Parameter := []

namespace Parameter

/-- An entry of a parameter. -/
def entry (p : Parameter) (name : String) : Value :=
  (Record.get? p.entries name).getD .absent

/-- The required path parameter of a name. -/
def inPath (name : String) : Parameter where
  entries :=
    [("name", .text name), ("in", .text "path"), ("type", .text "string"), ("required", .bool true)]

/-- Whether a parameter stands in the path, rather than in the query or a header. -/
def isInPath (p : Parameter) : Bool :=
  (p.entry "in").isText "path"

/-- Whether a parameter is the path parameter of a name. -/
def isPathParameter (name : String) (p : Parameter) : Bool :=
  p.isInPath && (p.entry "name").isText name

/-- A parameter as data. -/
def toValue (p : Parameter) : Value :=
  .object false p.entries

end Parameter

namespace Endpoint

/-- An endpoint as data. -/
def toValue (e : Endpoint) : Value :=
  .object false
    ([("operationId", .text e.operationId), ("action", .text e.action), ("method", .text e.method),
        ("path", .text e.path), ("summary", e.summary), ("tags", .list (e.tags.map .text)),
        ("responseSchemas", .object false e.responses),
        ("callbackSchemas", .object false e.callbacks),
        ("parameters", .list (e.parameters.map Parameter.toValue))] ++
      Record.ofOption "requestSchemaName" .text e.requestSchemaName ++
      Record.ofOption "requestBodySchema" id e.requestBody)

/-- An endpoint on one line: its identity, method and path. -/
def line (e : Endpoint) : String :=
  e.operationId ++ " " ++ e.method ++ " " ++ e.path

end Endpoint

end FieldSchema
