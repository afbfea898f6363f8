import FieldSchema.Endpoint
import FieldSchema.Reference
import FieldSchema.Text.PascalCase
import FieldSchema.Validation.Verdict

/-!
# Controllers

A controller binds actions to endpoints. An action with a request body has its declarations compiled
into the registry, under a name made of the controller's and the action's, and a validator built
from them. The schemas of responses and callbacks are looked up before anything is compiled. An
action that is bound again replaces its endpoint and moves to the end.
-/

namespace FieldSchema

/-- What is set for a whole controller. -/
structure ControllerSettings where
  name : String
  basePath : String
  tags : List String := []
  /-- The response of actions that state none. -/
  response : Option Reference := none
  /-- The callbacks of actions that state none. -/
  callbacks : Option (List Reference) := none

/-- What is set for one action. -/
structure ActionSettings where
  summary : Value := .absent
  response : Option Reference := none
  /-- The status under which the response is published. -/
  responseStatus : Value := .absent
  callbacks : Option (List Reference) := none
  parameters : List Parameter := []
  method : Option String := none
  path : Option String := none
  /-- Option patches, by path, for the request body. -/
  overrides : Record Value := []

/-- The method of an action, and whether it concerns one member of a collection. -/
structure Route where
  method : String
  isMember : Bool
deriving Repr, DecidableEq

namespace Route

/-- The routes of the standard actions. -/
def standard : List (String × Route) :=
  [("create", ⟨"post", false⟩), ("update", ⟨"patch", true⟩), ("index", ⟨"get", false⟩),
    ("show", ⟨"get", true⟩), ("delete", ⟨"delete", true⟩)]

/-- The route of an action. Actions that are not standard are posted to the collection. -/
def ofAction (action : String) : Route :=
  (List.lookup action standard).getD ⟨"post", false⟩

/-- The path of a route below a base path. -/
def path (route : Route) (basePath : String) : String :=
  if route.isMember then basePath ++ "/\x7bid\x7d" else basePath

end Route

/-- A controller: its settings, its endpoints in the order of their last binding, and the validators
of its request bodies by the names they were bound under. -/
structure Controller where
  settings : ControllerSettings
  endpoints : List Endpoint := []
  validators : NameTable Validator := []

/-- The documentation nodes of the responses and callbacks of an action. -/
structure ActionSchemas where
  responses : Record Value
  callbacks : Record Value

namespace Controller

/-- The name under which a request body is compiled. -/
def requestSchemaName (c : Controller) (name : String) : String :=
  c.settings.name ++ ".Schemas." ++ Text.pascalCase name

/-- The status under which a response is published unless another is set. -/
def defaultStatus : Value := .number 201

/-- The documentation nodes of an action's responses, by status. -/
def responseNodes (c : Controller) (r : Registry) (action : ActionSettings) :
    Outcome (Record Value) :=
  match action.response.or c.settings.response with
  | none => .ok []
  | some reference => do
      let status ← (action.responseStatus.orElse defaultStatus).toText
      let node ← r.documentationOf reference
      return [(status, node)]

/-- The name of a callback: the title of its node, or else the name of its schema. A symbol is no
name that is ever listed. -/
def callbackName? (r : Registry) (reference : Reference) (node : Value) :
    Outcome (Option String) := do
  let title ← node.requireMember "title"
  let schemaName ← r.nameOf reference
  match title.orElse schemaName with
  | .symbol _ => return none
  | name => return some (← name.toText)

/-- The documentation nodes of an action's callbacks, by name. -/
def callbackNodes (c : Controller) (r : Registry) (action : ActionSettings) :
    Outcome (Record Value) := do
  let references := (action.callbacks.or c.settings.callbacks).getD []
  let named ← references.mapM fun reference => do
    let node ← r.documentationOf reference
    return (← callbackName? r reference node).map (·, node)
  return Record.ofAssignments (named.filterMap id)

/-- The documentation nodes of an action's responses, and of its callbacks if it has any. -/
def actionSchemas (c : Controller) (r : Registry) (action : ActionSettings) (callbacks : Bool) :
    Outcome ActionSchemas := do
  let responses ← c.responseNodes r action
  let named ← if callbacks then c.callbackNodes r action else pure []
  return ⟨responses, named⟩

/-- The endpoint of an action. -/
def endpoint (c : Controller) (action : String) (settings : ActionSettings)
    (schemas : ActionSchemas) (request : Option Schema) : Endpoint :=
  let route := Route.ofAction action
  { operationId := c.settings.name ++ "." ++ action
    action := action
    method := settings.method.getD route.method
    path := settings.path.getD (route.path c.settings.basePath)
    summary := settings.summary.orElse (.text "")
    tags := c.settings.tags
    requestSchemaName := request.map Schema.name
    requestBody := request.map fun schema => schema.documentation.toValue
    responses := schemas.responses
    callbacks := schemas.callbacks
    parameters := settings.parameters }

/-- Hold an endpoint, in place of the one with its identity. -/
def hold (c : Controller) (e : Endpoint) : Controller :=
  { c with
    endpoints := c.endpoints.filter (fun other => other.operationId != e.operationId) ++ [e] }

/-- Bind an action without a request body. -/
def bindPlain (c : Controller) (r : Registry) (action : String) (settings : ActionSettings)
    (callbacks : Bool) : Step Controller Endpoint :=
  match c.actionSchemas r settings callbacks with
  | .error failure => { outcome := .error failure, state := c }
  | .ok schemas =>
      let e := c.endpoint action settings schemas none
      { outcome := .ok e, state := c.hold e }

/-- Bind an action whose request body is declared. The validator is built after the body has been
compiled into the registry. -/
def bindRequest (c : Controller) (r : Registry) (name action : String) (settings : ActionSettings)
    (declarations : Value) : Step (Registry × Controller) Endpoint :=
  match c.actionSchemas r settings true with
  | .error failure => { outcome := .error failure, state := (r, c) }
  | .ok schemas =>
      let compiled := r.compile (c.requestSchemaName name) declarations settings.overrides
      match compiled.outcome with
      | .error failure =>
          { outcome := .error failure, state := (compiled.state, c), notices := compiled.notices }
      | .ok request =>
          match request.descriptor.validator with
          | .error failure =>
              { outcome := .error failure
                state := (compiled.state, c)
                notices := compiled.notices }
          | .ok validator =>
              let e := c.endpoint action settings schemas (some request)
              let known := { c with validators := c.validators.put name validator }
              { outcome := .ok e
                state := (compiled.state, known.hold e)
                notices := compiled.notices }

/-- The verdict on an input by the validator of a request body. -/
def judge (c : Controller) (name : String) (input : Value) : Outcome Verdict :=
  match c.validators.get? name with
  | some validator => validator.judge input
  | none => .error (.defect (.schemaNotFound (c.requestSchemaName name)))

end Controller

end FieldSchema
