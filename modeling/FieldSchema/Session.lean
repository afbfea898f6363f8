import FieldSchema.Controller

/-!
# Sessions

A session is a registry and the controllers that bind actions over it, each under an identity of its
own. Calls come one after another; a call that fails leaves an outcome and the session goes on.
-/

namespace FieldSchema

/-- A binding of an action by a controller. -/
inductive Binding where
  | create (name : String) (settings : ActionSettings) (declarations : Value)
  | update (name : String) (settings : ActionSettings) (declarations : Value)
  | custom (name action : String) (settings : ActionSettings) (declarations : Value)
  | customAction (action : String) (settings : ActionSettings)
  | index (settings : ActionSettings)
  | showMember (settings : ActionSettings)
  | delete (settings : ActionSettings)

/-- A call that may change a session. -/
inductive Call where
  | declare (name : String)
  | compile (name : String) (declarations : Value) (overrides : Record Value)
  | freeze
  /-- Begin a controller under an identity. -/
  | begin (controller : String) (settings : ControllerSettings)
  | bind (controller : String) (binding : Binding)

/-- What a call answers. -/
inductive Reply where
  | done
  | schema (s : Schema)
  | endpoint (e : Endpoint)

/-- A registry and the controllers over it. -/
structure Session where
  registry : Registry := {}
  controllers : NameTable Controller := []

namespace Controller

/-- Bind an action. Deleting and custom actions have callbacks, index and show have none. -/
def bind (c : Controller) (r : Registry) : Binding → Step (Registry × Controller) Endpoint
  | .create name settings declarations => c.bindRequest r name "create" settings declarations
  | .update name settings declarations => c.bindRequest r name "update" settings declarations
  | .custom name action settings declarations => c.bindRequest r name action settings declarations
  | .customAction action settings => plain action settings true
  | .index settings => plain "index" settings false
  | .showMember settings => plain "show" settings false
  | .delete settings => plain "delete" settings true
where
  plain (action : String) (settings : ActionSettings) (callbacks : Bool) :
      Step (Registry × Controller) Endpoint :=
    let step := c.bindPlain r action settings callbacks
    { outcome := step.outcome, state := (r, step.state), notices := step.notices }

end Controller

namespace Session

/-- Do one call. -/
def step (s : Session) : Call → Step Session Reply
  | .declare name =>
      let step := s.registry.declare name
      { outcome := step.outcome.map fun _ => .done
        state := { s with registry := step.state }
        notices := step.notices }
  | .compile name declarations overrides =>
      let step := s.registry.compile name declarations overrides
      { outcome := step.outcome.map .schema
        state := { s with registry := step.state }
        notices := step.notices }
  | .freeze => { outcome := .ok .done, state := { s with registry := s.registry.freeze } }
  | .begin controller settings =>
      { outcome := .ok .done
        state := { s with controllers := s.controllers.put controller { settings } } }
  | .bind controller binding =>
      match s.controllers.get? controller with
      | none => { outcome := .error .noMembers, state := s }
      | some c =>
          let step := c.bind s.registry binding
          { outcome := step.outcome.map .endpoint
            state := {
              registry := step.state.1
              controllers := s.controllers.put controller step.state.2 }
            notices := step.notices }

/-- The session after a list of calls, whatever their outcomes. -/
def run (s : Session) (calls : List Call) : Session :=
  calls.foldl (fun s call => (s.step call).state) s

end Session

end FieldSchema
