import FieldSchema.Proofs.RequestBodies

/-!
# Histories of controllers

A controller is made by its bindings that succeeded. Its endpoints are what the last of them for
every action returned, in the order in which these came, and it judges inputs under the name of a
request body by what the last of them for that name compiled. Bindings that failed and whatever
happens in the registry leave no trace in it.
-/

namespace FieldSchema

def Binding.action : Binding → String
  | .create _ _ _ => "create"
  | .update _ _ _ => "update"
  | .custom _ action _ _ => action
  | .customAction action _ => action
  | .index _ => "index"
  | .showMember _ => "show"
  | .delete _ => "delete"

/-- A binding that succeeded, with the endpoint that it returned and the schema that it compiled. -/
structure Bound where
  binding : Binding
  endpoint : Endpoint
  schema? : Option Schema

/-- Whether a binding has a request body of a name. -/
def Bound.isFor (b : Bound) (name : String) : Bool :=
  b.binding.body?.any fun body => body.name == name

/-- The last of some bindings for the request body of a name. -/
def Bound.lastFor (history : List Bound) (name : String) : Option Bound :=
  (history.filter fun b => b.isFor name).getLast?

/-- A validator was built from the schema that a binding compiled. -/
def Bound.IsCheckedBy (b : Bound) (validator : Validator) : Prop :=
  ∃ schema, b.schema? = some schema ∧ schema.descriptor.validator = .ok validator

theorem Bound.lastFor_concat (history : List Bound) (b : Bound) (name : String) :
    lastFor (history ++ [b]) name = if b.isFor name then some b else lastFor history name := by
  rw [lastFor, List.filter_append]
  cases hfor : b.isFor name with
  | false => simp [lastFor, hfor]
  | true => simp [hfor]

namespace Controller

def bound? (c : Controller) (r : Registry) (binding : Binding) : Option Bound :=
  (c.bind r binding).outcome.toOption.map fun e => ⟨binding, e, c.compiled? r binding⟩

end Controller

namespace Session

/-- What a call binds for a controller, if it succeeds. -/
def bound? (s : Session) (id : String) : Call → Option Bound
  | .bind controller binding =>
      if controller = id then do
        let c ← s.controllers.get? id
        c.bound? s.registry binding
      else none
  | .declare _ => none
  | .compile _ _ _ => none
  | .freeze => none
  | .begin _ _ => none

/-- The bindings of a controller that succeed in a run, in their order. -/
def bindings (id : String) : Session → List Call → List Bound
  | _, [] => []
  | s, call :: rest => (s.bound? id call).toList ++ bindings id (s.step call).state rest

end Session

/-! ## The last endpoint of every operation -/

namespace Endpoint

/-- The endpoints that no later one of the same identity follows. -/
def latest (es : List Endpoint) : List Endpoint :=
  es.pwFilter fun e later => e.operationId ≠ later.operationId

theorem latest_cons (e : Endpoint) (es : List Endpoint) :
    latest (e :: es) =
      if ∀ later ∈ latest es, e.operationId ≠ later.operationId then e :: latest es
      else latest es := by
  split
  next h => exact List.pwFilter_cons_of_pos h
  next h => exact List.pwFilter_cons_of_neg h

theorem latest_concat (es : List Endpoint) (last : Endpoint) :
    latest (es ++ [last]) =
      (latest es).filter (fun e => e.operationId != last.operationId) ++ [last] := by
  induction es with
  | nil => rfl
  | cons e es ih =>
      rw [List.cons_append, latest_cons, ih, latest_cons]
      by_cases hsame : e.operationId = last.operationId
      · have hdropped : ¬∀ later ∈
            (latest es).filter (fun e => e.operationId != last.operationId) ++ [last],
            e.operationId ≠ later.operationId := by
          intro h
          exact h last (by simp) hsame
        rw [if_neg hdropped]
        split
        next => simp [hsame]
        next => rfl
      · -- what the last endpoint replaces does not have the identity of this one
        have hkept : (∀ later ∈
            (latest es).filter (fun e => e.operationId != last.operationId) ++ [last],
            e.operationId ≠ later.operationId) ↔
              ∀ later ∈ latest es, e.operationId ≠ later.operationId := by
          simp only [List.mem_append, List.mem_filter, List.mem_singleton, bne_iff_ne]
          constructor
          · intro h later hlater heq
            exact h later (.inl ⟨hlater, heq ▸ hsame⟩) heq
          · rintro h later (⟨hlater, _⟩ | rfl)
            · exact h later hlater
            · exact hsame
        simp only [hkept]
        split
        next => simp [hsame]
        next => rfl

theorem latest_filter (es : List Endpoint) (operation : String) :
    (latest es).filter (fun e => e.operationId == operation) =
      (es.filter fun e => e.operationId == operation).getLast?.toList := by
  induction es using List.reverseRecOn with
  | nil => rfl
  | append_singleton es last ih =>
      rw [latest_concat, List.filter_append, List.filter_append, List.filter_filter]
      by_cases heq : last.operationId = operation
      · subst heq
        simp
      · have hfilter : (latest es).filter (fun e =>
            e.operationId == operation && e.operationId != last.operationId) =
            (latest es).filter fun e => e.operationId == operation := by
          apply List.filter_congr
          intro e _
          by_cases he : e.operationId = operation
          · simpa [he] using Ne.symm heq
          · simp [he]
        rw [hfilter, ih]
        simp [heq]

theorem latest_nodup (es : List Endpoint) : ((latest es).map operationId).Nodup := by
  rw [List.Nodup, List.pairwise_map]
  exact List.pairwise_pwFilter es

end Endpoint

/-- A controller is what some bindings made of one that began with given settings. -/
structure Controller.IsMadeBy (c : Controller) (settings : ControllerSettings)
    (history : List Bound) : Prop where
  settings_eq : c.settings = settings
  named : ∀ b ∈ history, b.endpoint.operationId = settings.name ++ "." ++ b.binding.action
  /-- The endpoints stand in the order of the last bindings of their operations. -/
  endpoints : c.endpoints = Endpoint.latest (history.map Bound.endpoint)
  distinct : (c.endpoints.map Endpoint.operationId).Nodup
  /-- Of every action the endpoint is held that its last binding returned. -/
  last : ∀ action,
    c.endpoints.filter (fun e => e.operationId == settings.name ++ "." ++ action) =
      ((history.filter fun b => b.binding.action == action).getLast?.map Bound.endpoint).toList
  unbound : ∀ name input, (∀ b ∈ history, b.isFor name = false) →
    c.judge name input = .error (.defect (.schemaNotFound (c.requestSchemaName name)))
  /-- Inputs are judged by the schema that the last binding for the name compiled. -/
  bound : ∀ name input b, Bound.lastFor history name = some b →
    ∃ schema, b.schema? = some schema ∧ c.judge name input = schema.descriptor.judge input

/-! ## One binding -/

namespace Controller

theorem bind_eq_bindRequest (c : Controller) (r : Registry) {binding : Binding}
    {body : RequestBody} (hbody : binding.body? = some body) :
    c.bind r binding =
      c.bindRequest r body.name binding.action body.settings body.declarations := by
  cases binding with
  | create name settings declarations => cases hbody; rfl
  | update name settings declarations => cases hbody; rfl
  | custom name action settings declarations => cases hbody; rfl
  | customAction action settings => cases hbody
  | index settings => cases hbody
  | showMember settings => cases hbody
  | delete settings => cases hbody

theorem bind_eq_bindPlain (c : Controller) (r : Registry) {binding : Binding}
    (hbody : binding.body? = none) :
    ∃ settings callbacks,
      c.bind r binding = bind.plain c r binding.action settings callbacks := by
  cases binding with
  | create name settings declarations => cases hbody
  | update name settings declarations => cases hbody
  | custom name action settings declarations => cases hbody
  | customAction action settings => exact ⟨settings, true, rfl⟩
  | index settings => exact ⟨settings, false, rfl⟩
  | showMember settings => exact ⟨settings, false, rfl⟩
  | delete settings => exact ⟨settings, true, rfl⟩

/-- A binding fails and leaves the controller, or it holds the endpoint that it returns, and with a
request body a validator of the schema that it compiled. -/
theorem bind_cases (c : Controller) (r : Registry) (binding : Binding) :
    (c.bound? r binding = none ∧ (c.bind r binding).state.2 = c) ∨
    ∃ b, c.bound? r binding = some b ∧ b.binding = binding ∧
      b.endpoint.operationId = c.settings.name ++ "." ++ binding.action ∧
      ((binding.body? = none ∧ (c.bind r binding).state.2 = c.hold b.endpoint) ∨
        ∃ body validator, binding.body? = some body ∧ b.IsCheckedBy validator ∧
          (c.bind r binding).state.2 =
            { c with validators := c.validators.put body.name validator }.hold b.endpoint) := by
  unfold bound?
  cases hbody : binding.body? with
  | none =>
      obtain ⟨settings, callbacks, hbind⟩ := c.bind_eq_bindPlain r hbody
      rw [hbind, bind.plain, bindPlain]
      cases c.actionSchemas r settings callbacks with
      | error failure => exact .inl ⟨rfl, rfl⟩
      | ok schemas => exact .inr ⟨_, rfl, rfl, rfl, .inl ⟨rfl, rfl⟩⟩
  | some body =>
      rw [c.bind_eq_bindRequest r hbody]
      rcases c.bindRequest_cases r body.name binding.action body.settings body.declarations with
        ⟨_, _, hrequest⟩ | ⟨schemas, compiled, hschemas, rfl, hcases⟩
      · rw [hrequest]
        exact .inl ⟨rfl, rfl⟩
      · rcases hcases with ⟨_, _, hrequest⟩ | ⟨_, _, _, _, hrequest⟩ |
          ⟨schema, validator, houtcome, hvalidator, hrequest⟩
        · rw [hrequest]
          exact .inl ⟨rfl, rfl⟩
        · rw [hrequest]
          exact .inl ⟨rfl, rfl⟩
        · have hcompiled : c.compiled? r binding = some schema :=
            (compiled?_eq_some_iff hbody).mpr ⟨⟨schemas, hschemas⟩, houtcome⟩
          rw [hrequest]
          refine .inr ⟨_, rfl, rfl, rfl, .inr ⟨body, validator, rfl, ?_, rfl⟩⟩
          exact ⟨schema, hcompiled, hvalidator⟩

/-! ## What a controller keeps of its bindings -/

/-- What a controller keeps of its bindings: the last endpoint of every operation, and under every
name a validator of the last schema compiled for it. -/
structure Keeps (c : Controller) (settings : ControllerSettings) (history : List Bound) :
    Prop where
  settings_eq : c.settings = settings
  named : ∀ b ∈ history, b.endpoint.operationId = settings.name ++ "." ++ b.binding.action
  endpoints : c.endpoints = Endpoint.latest (history.map Bound.endpoint)
  validators : ∀ name, Option.Rel Bound.IsCheckedBy (Bound.lastFor history name)
    (c.validators.get? name)

namespace Keeps

variable {c : Controller} {settings : ControllerSettings} {history : List Bound}

theorem begin (settings : ControllerSettings) : Keeps { settings } settings [] where
  settings_eq := rfl
  named := by simp
  endpoints := rfl
  validators _ := .none

theorem hold (h : c.Keeps settings history) {b : Bound} {validators : NameTable Validator}
    (hnamed : b.endpoint.operationId = settings.name ++ "." ++ b.binding.action)
    (hvalidators : ∀ name, Option.Rel Bound.IsCheckedBy (Bound.lastFor (history ++ [b]) name)
      (validators.get? name)) :
    ({ c with validators := validators }.hold b.endpoint).Keeps settings (history ++ [b]) where
  settings_eq := h.settings_eq
  named := by
    intro other hother
    rcases List.mem_append.mp hother with hearlier | hnew
    · exact h.named other hearlier
    · obtain rfl := List.mem_singleton.mp hnew
      exact hnamed
  endpoints := by
    rw [List.map_append, List.map_singleton, Endpoint.latest_concat, ← h.endpoints]
    rfl
  validators := hvalidators

/-- A binding adds itself to the history if it succeeds, and else it changes nothing. -/
theorem bind (h : c.Keeps settings history) (r : Registry) (binding : Binding) :
    (c.bind r binding).state.2.Keeps settings (history ++ (c.bound? r binding).toList) := by
  rcases c.bind_cases r binding with ⟨hfailed, hstate⟩ | ⟨b, hbound, rfl, hoperation, hcases⟩
  · rw [hfailed, hstate, Option.toList_none, List.append_nil]
    exact h
  · rw [hbound, Option.toList_some]
    rw [h.settings_eq] at hoperation
    rcases hcases with ⟨hbody, hstate⟩ | ⟨body, validator, hbody, hchecked, hstate⟩
    · rw [hstate]
      apply h.hold hoperation
      intro name
      rw [Bound.lastFor_concat]
      simpa [Bound.isFor, hbody] using h.validators name
    · rw [hstate]
      apply h.hold hoperation
      intro name
      rw [Bound.lastFor_concat, NameTable.get?_put]
      by_cases heq : body.name = name
      · simpa [Bound.isFor, hbody, heq] using Option.Rel.some hchecked
      · have hne : ¬name = body.name := fun h => heq h.symm
        simpa [Bound.isFor, hbody, heq, hne] using h.validators name

theorem isMadeBy (h : c.Keeps settings history) : c.IsMadeBy settings history where
  settings_eq := h.settings_eq
  named := h.named
  endpoints := h.endpoints
  distinct := by
    rw [h.endpoints]
    exact Endpoint.latest_nodup _
  last := by
    intro action
    have haction : ∀ b ∈ history,
        (b.endpoint.operationId == settings.name ++ "." ++ action) =
          (b.binding.action == action) := by
      intro b hb
      rw [h.named b hb, Bool.eq_iff_iff, beq_iff_eq, beq_iff_eq]
      exact String.append_right_inj _
    rw [h.endpoints, Endpoint.latest_filter, List.filter_map, List.getLast?_map]
    exact congrArg (fun bs => (bs.getLast?.map Bound.endpoint).toList) (List.filter_congr haction)
  unbound := by
    intro name input hnone
    have hlast : Bound.lastFor history name = none := by
      rw [Bound.lastFor, List.getLast?_eq_none_iff, List.filter_eq_nil_iff]
      simpa using hnone
    have hkept := h.validators name
    rw [hlast] at hkept
    cases hheld : c.validators.get? name with
    | none => rw [judge, hheld]
    | some validator =>
        rw [hheld] at hkept
        cases hkept
  bound := by
    intro name input b hlast
    have hkept := h.validators name
    rw [hlast] at hkept
    cases hheld : c.validators.get? name with
    | none =>
        rw [hheld] at hkept
        cases hkept
    | some validator =>
        rw [hheld] at hkept
        obtain ⟨schema, hschema, hvalidator⟩ : b.IsCheckedBy validator := by
          cases hkept
          assumption
        refine ⟨schema, hschema, ?_⟩
        rw [judge, hheld]
        exact (Descriptor.judge_eq hvalidator input).symm

end Keeps

end Controller

namespace Session

/-! ## Runs -/

theorem bound?_of_other {s : Session} {call : Call} {id : String}
    (h : ∀ binding, call ≠ .bind id binding) : s.bound? id call = none := by
  cases call with
  | bind controller binding =>
      apply if_neg
      rintro rfl
      exact h binding rfl
  | declare name => rfl
  | compile name raw overrides => rfl
  | freeze => rfl
  | begin controller settings => rfl

theorem step_keeps {s : Session} {id : String} {c : Controller} {settings : ControllerSettings}
    {history : List Bound} (hpresent : s.controllers.get? id = some c)
    (h : c.Keeps settings history) {call : Call} (hcall : ∀ other, call ≠ .begin id other) :
    ∃ later, (s.step call).state.controllers.get? id = some later ∧
      later.Keeps settings (history ++ (s.bound? id call).toList) := by
  by_cases hbind : ∃ binding, call = .bind id binding
  · obtain ⟨binding, rfl⟩ := hbind
    have hbound : s.bound? id (.bind id binding) = c.bound? s.registry binding := by
      simp [bound?, hpresent]
    refine ⟨_, controller_step_bind hpresent binding, ?_⟩
    rw [hbound]
    exact h.bind s.registry binding
  · push Not at hbind
    refine ⟨c, (controller_step_of_other hcall hbind).trans hpresent, ?_⟩
    rw [bound?_of_other hbind, Option.toList_none, List.append_nil]
    exact h

theorem run_keeps {s : Session} {id : String} {c : Controller} {settings : ControllerSettings}
    {history : List Bound} (hpresent : s.controllers.get? id = some c)
    (h : c.Keeps settings history) (calls : List Call)
    (hkept : ∀ other, .begin id other ∉ calls) :
    ∃ later, (s.run calls).controllers.get? id = some later ∧
      later.Keeps settings (history ++ s.bindings id calls) := by
  induction calls generalizing s c history with
  | nil =>
      refine ⟨c, hpresent, ?_⟩
      rw [bindings, List.append_nil]
      exact h
  | cons call rest ih =>
      have hcall : ∀ other, call ≠ .begin id other := by
        rintro other rfl
        exact hkept other List.mem_cons_self
      obtain ⟨middle, hmiddle, hkeeps⟩ := step_keeps hpresent h hcall
      obtain ⟨later, hlater, hall⟩ :=
        ih hmiddle hkeeps fun other hmem => hkept other (List.mem_cons_of_mem _ hmem)
      refine ⟨later, hlater, ?_⟩
      rw [bindings, ← List.append_assoc]
      exact hall

/-- Whatever is called after a controller has begun, for it, for other controllers or for the
registry, the controller is what its bindings that succeeded made of it. -/
theorem run_isMadeBy (s : Session) (id : String) (settings : ControllerSettings)
    {calls : List Call} (hkept : ∀ other, .begin id other ∉ calls) :
    ∃ c, ((s.step (.begin id settings)).state.run calls).controllers.get? id = some c ∧
      c.IsMadeBy settings ((s.step (.begin id settings)).state.bindings id calls) := by
  have hbegun := s.controller_step_begin id settings
  obtain ⟨c, hc, hkeeps⟩ := run_keeps hbegun (Controller.Keeps.begin settings) calls hkept
  exact ⟨c, hc, hkeeps.isMadeBy⟩

/-- The binding of a user body, with what it returned and compiled. -/
def createdUser : Bound :=
  ⟨createUser, createEndpoint, some (flagSchema "Users.Schemas.CreateUser" "admin")⟩

/-- The binding, and another schema compiled under the name of its body. -/
def overwritten : List Call :=
  [.bind "u" createUser, .compile "Users.Schemas.CreateUser" (.list []) []]

theorem bindings_overwritten : usersOnly.bindings "u" overwritten = [createdUser] := by
  have hbound : usersOnly.bound? "u" (.bind "u" createUser) = some createdUser := by
    obtain ⟨c, hc, hmade⟩ := bound_by_controller step_createUser.1
    obtain rfl : users = c := Option.some.inj hc
    have hcompiled : users.compiled? usersOnly.registry createUser =
        some (flagSchema "Users.Schemas.CreateUser" "admin") := rfl
    simp [bound?, hc, Controller.bound?, hmade, hcompiled, Except.toOption, createdUser]
  rw [overwritten, bindings, hbound, step_createUser.2]
  rfl

/-- Another schema has taken the name of a user body in the registry. The controller still publishes
the body as it was bound and judges inputs by it. -/
theorem overwritten_isMadeBy :
    ∃ c, (usersOnly.run overwritten).controllers.get? "u" = some c ∧
      c.endpoints = [createEndpoint] ∧
      (∀ input, c.judge "create_user" input =
        (flagSchema "Users.Schemas.CreateUser" "admin").descriptor.judge input) ∧
      ∀ input, c.judge "import_user" input =
        .error (.defect (.schemaNotFound (c.requestSchemaName "import_user"))) := by
  obtain ⟨c, hc, hmade⟩ := run_isMadeBy (start .builtIn) "u" users.settings
    (by simp [overwritten] : ∀ other, .begin "u" other ∉ overwritten)
  rw [show ((start .builtIn).step (.begin "u" users.settings)).state = usersOnly from rfl]
    at hc hmade
  rw [bindings_overwritten] at hmade
  refine ⟨c, hc, hmade.endpoints, ?_, ?_⟩
  · intro input
    obtain ⟨schema, hschema, hjudge⟩ := hmade.bound "create_user" input createdUser rfl
    obtain rfl := Option.some.inj hschema
    exact hjudge
  · intro input
    apply hmade.unbound
    simp [createdUser, Bound.isFor, createUser, Binding.body?]

end Session

end FieldSchema
