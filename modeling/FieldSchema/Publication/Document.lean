import FieldSchema.Endpoint
import FieldSchema.Publication.SchemaObject
import FieldSchema.Publication.Versions
import FieldSchema.Value.Inherited

/-!
# API documents

A document describes an interface: its title and version, its operations by path and method, the
tags they use, and the schemas that it publishes by name. Operations and components are assigned in
order, so that of two under one name the later counts.
-/

namespace FieldSchema.Publication

/-- What a document says besides endpoints and schemas. The settings may replace the versions. -/
structure Heading where
  title : Value
  description : Value := .absent
  settings : Record Value := []

/-- A documentation node and the name under which it is published. -/
structure NamedNode where
  name : String
  node : Value

/-- The versions that a document states unless its settings replace them. -/
def defaultSettings : Record Value :=
  [("openApiVersion", .text standardFormatVersion), ("apiVersion", .text standardApiVersion)]

/-- A setting of a document. -/
def Heading.setting (h : Heading) (name : String) : Value :=
  match Record.get? h.settings name with
  | some v => v
  | none => (Record.get? defaultSettings name).getD .absent

/-- An ordinary object. -/
def object (entries : Record Value) : Value := .object false entries

/-- Content in JSON under a published schema. -/
def jsonContent (published : Value) : Value :=
  object [("application/json", object [("schema", published)])]

/-! ## Parameters -/

/-- The names in braces in a path: what stands between an opening brace and the next closing brace,
if anything does. `current` holds the characters, latest first, after an open brace. -/
def placeholdersFrom (current : Option (List Char)) : List Char → List String
  | [] => []
  | c :: rest =>
      match current with
      | none => placeholdersFrom (if c = '\x7b' then some [] else none) rest
      | some [] =>
          if c = '\x7d' then placeholdersFrom none rest else placeholdersFrom (some [c]) rest
      | some (d :: taken) =>
          if c = '\x7d' then String.ofList (d :: taken).reverse :: placeholdersFrom none rest
          else placeholdersFrom (some (c :: d :: taken)) rest

/-- The names in braces in a path. -/
def placeholders (path : String) : List String :=
  placeholdersFrom none path.toList

/-- Add a path parameter for a name, unless one is declared. -/
def addPathParameter (parameters : List Parameter) (name : String) : List Parameter :=
  if parameters.any (Parameter.isPathParameter name) then parameters
  else parameters ++ [.inPath name]

/-- The declared parameters, and one for each name in the path that has none. -/
def allParameters (path : String) (declared : List Parameter) : List Parameter :=
  (placeholders path).foldl addPathParameter declared

/-- The schema of a parameter of a type. -/
def parameterSchema (type : Value) : Value :=
  if type.isText "array" then object [("type", .text "array"), ("items", object [])]
  else object [("type", type)]

/-- A parameter as published. Path parameters are always required. -/
def parameterObject (p : Parameter) : Value :=
  let description := p.entry "description"
  object
    ([("name", p.entry "name"), ("in", p.entry "in"),
        ("required", if p.isInPath then .bool true else (p.entry "required").orElse (.bool false)),
        ("schema", parameterSchema (p.entry "type"))] ++
      (if description.isTruthy then [("description", description)] else []) ++
      Record.ofOption "example" id (p.entry "example").toOption)

/-! ## Operations -/

/-- The response to a request under a status, by its published schema. -/
def responseObject (published : Value) : Value :=
  object [("description", .text ""), ("content", jsonContent published)]

/-- What an endpoint answers, by status. Without any schema a plain success is stated. -/
def responsesObject (responses : Record Value) : Outcome Value := do
  let published ← responses.mapM fun entry => do
    return (entry.1, responseObject (← schemaObject entry.2))
  match Record.ofAssignments published with
  | [] => return object [("200", object [("description", .text "OK")])]
  | entries => return object entries

/-- The operation of the caller's server that a callback uses. -/
def callbackObject (published : Value) : Value :=
  object [("", object [("post", object [
    ("requestBody", object [("content", jsonContent published)]),
    ("responses", object [("200", object [
      ("description", .text "Your server returns this code if it accepts the callback")])])])])]

/-- The entry for the callbacks of an endpoint, unless it has none. -/
def callbackEntry (callbacks : Record Value) : Outcome (Record Value) := do
  if callbacks.isEmpty then return []
  let published ← callbacks.mapM fun entry => do
    return (entry.1, callbackObject (← schemaObject entry.2))
  return [("callbacks", object (Record.ofAssignments published))]

/-- The entry for the request body of an endpoint, unless it has none. -/
def requestEntry (body : Option Value) : Outcome (Record Value) :=
  match body with
  | some node =>
      if node.isTruthy then do
        let published ← schemaObject node
        return [("requestBody",
          object [("description", .text ""), ("content", jsonContent published)])]
      else .ok []
  | none => .ok []

/-- An entry for a list, unless it is empty. -/
def listEntry (name : String) (items : List Value) : Record Value :=
  if items.isEmpty then [] else [(name, .list items)]

/-- An endpoint as an operation. -/
def operationObject (e : Endpoint) : Outcome Value := do
  let responses ← responsesObject e.responses
  let request ← requestEntry e.requestBody
  let callbacks ← callbackEntry e.callbacks
  let parameters := (allParameters e.path e.parameters).map parameterObject
  return object
    ([("operationId", .text e.operationId), ("summary", e.summary), ("responses", responses)] ++
      listEntry "tags" (e.tags.map .text) ++ listEntry "parameters" parameters ++ request ++
      callbacks)

/-- What a document holds under a path. -/
inductive PathItem where
  | operations (byMethod : Record Value)
  /-- A path that is a name which every object inherits already leads to a function. The function
  takes the operations, and shows none of them. -/
  | inherited (function : Value)

namespace PathItem

/-- What is found under a path that nothing has been put under. -/
def initial (path : String) : PathItem :=
  match Ancestor.ofObjects.member? path with
  | some function => .inherited function
  | none => .operations []

/-- Put an operation under a method. -/
def assign (item : PathItem) (method : String) (operation : Value) : PathItem :=
  match item with
  | .operations byMethod => .operations (Record.assign byMethod method operation)
  | .inherited function => .inherited function

/-- A path item as data. -/
def toValue : PathItem → Value
  | .operations byMethod => object byMethod
  | .inherited function => function

end PathItem

/-- Operations by path and method. -/
abbrev PathTable := Record PathItem

/-- Add the operation of an endpoint. -/
def addOperation (paths : PathTable) (e : Endpoint) : Outcome PathTable := do
  let operation ← operationObject e
  let item := (Record.get? paths e.path).getD (.initial e.path)
  return Record.assign paths e.path (item.assign e.method operation)

/-- The operations of endpoints by path and method. -/
def pathTable (endpoints : List Endpoint) : Outcome PathTable :=
  endpoints.foldlM addOperation []

/-! ## Documents -/

/-- The tags of endpoints, each once, in the order in which they come up. -/
def tagNames (endpoints : List Endpoint) : List String :=
  (endpoints.flatMap Endpoint.tags).eraseDups

/-- The entry for published schemas, unless there are none. -/
def componentsEntry (schemas : List NamedNode) : Outcome (Record Value) := do
  if schemas.isEmpty then return []
  let published ← schemas.mapM fun schema => do return (schema.name, ← schemaObject schema.node)
  return [("components", object [("schemas", object (Record.ofAssignments published))])]

/-- The title, version and description of an interface. -/
def infoObject (h : Heading) : Value :=
  object
    ([("title", h.title), ("version", h.setting "apiVersion")] ++
      if h.description.isTruthy then [("description", h.description)] else [])

/-- The document of an interface. -/
def document (h : Heading) (schemas : List NamedNode) (endpoints : List Endpoint) :
    Outcome Value := do
  let paths ← pathTable endpoints
  let components ← componentsEntry schemas
  return object
    ([("openapi", h.setting "openApiVersion"), ("info", infoObject h),
        ("paths", object (Record.mapValues PathItem.toValue paths))] ++
      listEntry "tags" ((tagNames endpoints).map fun name => object [("name", .text name)]) ++
      components)

end FieldSchema.Publication
