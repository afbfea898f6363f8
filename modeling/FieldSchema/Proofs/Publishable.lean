import FieldSchema.Proofs.BindingHistory
import FieldSchema.Proofs.Publishing
import FieldSchema.Publication.Document

/-!
# What can be published

An operation can be made of an endpoint when schema objects can be made of the documentation nodes
that it holds. The endpoints of a controller are of this kind throughout a run, provided that what
is set for the controller and for its actions has its type.
-/

namespace FieldSchema

namespace Outcome

variable {α β : Type} {f : α → Outcome β}

theorem exists_of_mem_mapM {items : List α} {results : List β} (h : items.mapM f = .ok results) :
    ∀ result ∈ results, ∃ item ∈ items, f item = .ok result := by
  induction items generalizing results with
  | nil =>
      obtain rfl := pure_eq_ok.mp h
      simp
  | cons item rest ih =>
      rw [List.mapM_cons] at h
      obtain ⟨first, hfirst, h⟩ := bind_eq_ok.mp h
      obtain ⟨others, hothers, h⟩ := bind_eq_ok.mp h
      obtain rfl := pure_eq_ok.mp h
      rintro result (_ | ⟨_, hresult⟩)
      · exact ⟨item, List.mem_cons_self, hfirst⟩
      · obtain ⟨source, hsource, hmade⟩ := ih hothers result hresult
        exact ⟨source, List.mem_cons_of_mem _ hsource, hmade⟩

theorem exists_mapM_eq_ok {items : List α} (h : ∀ item ∈ items, ∃ result, f item = .ok result) :
    ∃ results, items.mapM f = .ok results := by
  induction items with
  | nil => exact ⟨[], rfl⟩
  | cons item rest ih =>
      obtain ⟨hitem, hrest⟩ := List.forall_mem_cons.mp h
      obtain ⟨result, hresult⟩ := hitem
      obtain ⟨results, hresults⟩ := ih hrest
      exact ⟨result :: results, by rw [List.mapM_cons, hresult, hresults]; rfl⟩

end Outcome

open Outcome Publication

/-! ## Documentation nodes -/

/-- Data of the form of documentation nodes, as far as publishing looks at it. -/
inductive Value.IsNodeData : Value → Prop
  | node {bare : Bool} {members : Record Value}
      (choices : ∀ v, members.get? "enum" = some v → v.isAbsent = false → ∃ items, v = .list items)
      (items : ∀ v, members.get? "items" = some v → v.isAbsent = false → IsNodeData v)
      (held : ∀ v, members.get? "properties" = some v → v.isAbsent = false →
        ∃ bare properties, v = .object bare properties)
      (properties : ∀ bare (properties : Record Value),
        members.get? "properties" = some (.object bare properties) →
          ∀ entry ∈ properties, IsNodeData entry.2) :
      IsNodeData (.object bare members)

/-- A schema object can be made of the value. -/
def Value.IsPublishable (v : Value) : Prop :=
  ∃ published, schemaObject v = .ok published

namespace Publication

theorem exists_memberObjects {members : Record Value}
    (h : ∀ entry ∈ members, entry.2.IsPublishable) :
    ∃ published, memberObjects members = .ok published := by
  induction members with
  | nil => exact ⟨[], by rw [memberObjects]⟩
  | cons entry rest ih =>
      obtain ⟨name, value⟩ := entry
      obtain ⟨⟨first, hfirst⟩, hrest⟩ := List.forall_mem_cons.mp h
      obtain ⟨others, hothers⟩ := ih hrest
      exact ⟨(name, first) :: others, by rw [memberObjects, hfirst, hothers]; rfl⟩

end Publication

theorem Value.isAbsent_of_isTruthy {v : Value} (h : v.isTruthy = true) : v.isAbsent = false := by
  cases v <;> first | rfl | cases h

/-- Data of the form of documentation nodes can be published. -/
theorem Value.IsNodeData.isPublishable {v : Value} (h : v.IsNodeData) : v.IsPublishable := by
  induction h with
  | @node bare members hchoices _ hheld _ hitems hproperties =>
      obtain ⟨item, hitem⟩ : ∃ item, itemObject members = .ok item := by
        rw [itemObject_eq]
        cases hget : (members.get? "items").filter Value.isTruthy with
        | none => exact ⟨_, rfl⟩
        | some v =>
            obtain ⟨hget, htruthy⟩ := Option.filter_eq_some_iff.mp hget
            exact hitems v hget (isAbsent_of_isTruthy htruthy)
      obtain ⟨choice, hchoice⟩ :
          ∃ entry, choiceEntry ((members.get? "enum").getD .absent) = .ok entry := by
        unfold choiceEntry
        split
        next htruthy =>
          cases hget : members.get? "enum" with
          | none => simp [hget, isTruthy] at htruthy
          | some v =>
              simp only [hget, Option.getD_some] at htruthy ⊢
              obtain ⟨items, rfl⟩ := hchoices v hget (isAbsent_of_isTruthy htruthy)
              exact ⟨_, rfl⟩
        next => exact ⟨_, rfl⟩
      obtain ⟨children, hchildren⟩ : ∃ children, propertyObjects members = .ok children := by
        rw [propertyObjects_eq]
        cases hget : (members.get? "properties").filter Value.isTruthy with
        | none => exact ⟨_, rfl⟩
        | some v =>
            obtain ⟨hget, htruthy⟩ := Option.filter_eq_some_iff.mp hget
            obtain ⟨bare, properties, rfl⟩ := hheld v hget (isAbsent_of_isTruthy htruthy)
            obtain ⟨published, hpublished⟩ :=
              exists_memberObjects (hproperties bare properties hget)
            rw [Option.elim, childObjects, hpublished]
            exact ⟨_, rfl⟩
      rw [IsPublishable, schemaObject, hitem, hchoice, hchildren]
      dsimp only
      split <;> exact ⟨_, rfl⟩

namespace Node

theorem isNodeData_of_children {n : Node}
    (hitems : ∀ items, n.items? = some items → items.toValue.IsNodeData)
    (hproperties : ∀ properties, n.properties? = some properties →
      ∀ entry ∈ properties, entry.2.toValue.IsNodeData) : n.toValue.IsNodeData := by
  rw [toValue_eq_object]
  refine .node ?_ ?_ ?_ ?_
  · intro v hv _
    rw [← published?, published?_enum] at hv
    obtain ⟨values, _, rfl⟩ := Option.map_eq_some_iff.mp hv
    exact ⟨_, rfl⟩
  · intro v hv _
    rw [← published?, published?_items] at hv
    obtain ⟨items, hn, rfl⟩ := Option.map_eq_some_iff.mp hv
    exact hitems items hn
  · intro v hv _
    rw [← published?, published?_properties] at hv
    obtain ⟨properties, _, rfl⟩ := Option.map_eq_some_iff.mp hv
    exact ⟨false, _, rfl⟩
  · intro bare members hv entry hentry
    rw [← published?, published?_properties] at hv
    obtain ⟨properties, hn, heq⟩ := Option.map_eq_some_iff.mp hv
    obtain ⟨rfl, rfl⟩ := Value.object.inj heq
    rw [propertiesToValue_eq_mapValues] at hentry
    obtain ⟨property, hproperty, rfl⟩ := List.mem_map.mp hentry
    exact hproperties properties hn property hproperty

mutual

/-- The documentation of a tree has the form of documentation nodes. -/
theorem isNodeData_toValue (n : Node) : n.toValue.IsNodeData := by
  cases n with
  | leaf type notes => exact isNodeData_of_children (by simp [items?]) (by simp [properties?])
  | array items notes =>
      refine isNodeData_of_children (fun other h => ?_) (by simp [properties?])
      obtain rfl := Option.some.inj h
      exact isNodeData_toValue items
  | openObject notes => exact isNodeData_of_children (by simp [items?]) (by simp [properties?])
  | object properties notes =>
      refine isNodeData_of_children (by simp [items?]) fun others h => ?_
      obtain rfl := Option.some.inj h
      exact isNodeData_properties properties
termination_by sizeOf n

theorem isNodeData_properties (properties : List (String × Node)) :
    ∀ entry ∈ properties, entry.2.toValue.IsNodeData := by
  match properties with
  | [] => simp
  | (name, node) :: rest =>
      exact List.forall_mem_cons.mpr ⟨isNodeData_toValue node, isNodeData_properties rest⟩
termination_by sizeOf properties

end

end Node

/-! ## Operations -/

/-- The methods of endpoints. -/
def Route.methods : List String := ["get", "post", "put", "patch", "delete"]

/-- An endpoint has one of the methods, and everything that it publishes can be published. -/
structure Endpoint.IsPublishable (e : Endpoint) : Prop where
  method : e.method ∈ Route.methods
  responses : ∀ entry ∈ e.responses, entry.2.IsPublishable
  callbacks : ∀ entry ∈ e.callbacks, entry.2.IsPublishable
  body : ∀ node, e.requestBody = some node → node.IsPublishable

namespace Publication

theorem exists_published (wrap : Value → Value) {nodes : Record Value}
    (h : ∀ entry ∈ nodes, entry.2.IsPublishable) :
    ∃ published, (nodes.mapM fun entry => do
      return (entry.1, wrap (← schemaObject entry.2)) : Outcome (Record Value)) =
        .ok published := by
  apply exists_mapM_eq_ok
  intro entry hentry
  obtain ⟨published, hpublished⟩ := h entry hentry
  exact ⟨(entry.1, wrap published), by rw [hpublished]; rfl⟩

theorem exists_responsesObject {responses : Record Value}
    (h : ∀ entry ∈ responses, entry.2.IsPublishable) :
    ∃ published, responsesObject responses = .ok published := by
  obtain ⟨published, hpublished⟩ := exists_published responseObject h
  rw [responsesObject, hpublished]
  dsimp only [bind, Except.bind]
  split <;> exact ⟨_, rfl⟩

theorem exists_requestEntry {body : Option Value}
    (h : ∀ node, body = some node → node.IsPublishable) :
    ∃ published, requestEntry body = .ok published := by
  cases body with
  | none => exact ⟨[], rfl⟩
  | some node =>
      obtain ⟨published, hpublished⟩ := h node rfl
      rw [requestEntry]
      split
      next =>
        rw [hpublished]
        exact ⟨_, rfl⟩
      next => exact ⟨[], rfl⟩

theorem exists_callbackEntry {callbacks : Record Value}
    (h : ∀ entry ∈ callbacks, entry.2.IsPublishable) :
    ∃ published, callbackEntry callbacks = .ok published := by
  rw [callbackEntry]
  split
  next => exact ⟨[], rfl⟩
  next =>
    obtain ⟨published, hpublished⟩ := exists_published callbackObject h
    rw [hpublished]
    exact ⟨_, rfl⟩

theorem exists_operationObject {e : Endpoint} (h : e.IsPublishable) :
    ∃ operation, operationObject e = .ok operation := by
  obtain ⟨responses, hresponses⟩ := exists_responsesObject h.responses
  obtain ⟨request, hrequest⟩ := exists_requestEntry h.body
  obtain ⟨callbacks, hcallbacks⟩ := exists_callbackEntry h.callbacks
  rw [operationObject, hresponses, hrequest, hcallbacks]
  exact ⟨_, rfl⟩

theorem exists_componentsEntry {schemas : List NamedNode}
    (h : ∀ schema ∈ schemas, schema.node.IsPublishable) :
    ∃ components, componentsEntry schemas = .ok components := by
  rw [componentsEntry]
  split
  next => exact ⟨[], rfl⟩
  next =>
    have hpublished : ∃ published, (schemas.mapM fun schema => do
        return (schema.name, ← schemaObject schema.node) : Outcome (Record Value)) =
          .ok published := by
      apply exists_mapM_eq_ok
      intro schema hschema
      obtain ⟨published, hpublished⟩ := h schema hschema
      exact ⟨(schema.name, published), by rw [hpublished]; rfl⟩
    obtain ⟨published, hpublished⟩ := hpublished
    rw [hpublished]
    exact ⟨_, rfl⟩

end Publication

/-! ## Controllers -/

/-- Data at hand that is referred to holds a documentation node. -/
def Reference.IsTyped : Reference → Prop
  | .named _ => True
  | .compiled _ => True
  | .given data => (data.member "documentationSchema").IsNodeData

/-- The settings of a controller have their types. -/
structure ControllerSettings.IsTyped (settings : ControllerSettings) : Prop where
  response : ∀ reference ∈ settings.response, reference.IsTyped
  callbacks : ∀ references ∈ settings.callbacks, ∀ reference ∈ references, reference.IsTyped

/-- The settings of an action have their types. -/
structure ActionSettings.IsTyped (settings : ActionSettings) : Prop where
  response : ∀ reference ∈ settings.response, reference.IsTyped
  callbacks : ∀ references ∈ settings.callbacks, ∀ reference ∈ references, reference.IsTyped
  method : ∀ method ∈ settings.method, method ∈ Route.methods

/-- The settings of the action that is bound. -/
def Binding.settings : Binding → ActionSettings
  | .create _ settings _ => settings
  | .update _ settings _ => settings
  | .custom _ _ settings _ => settings
  | .customAction _ settings => settings
  | .index settings => settings
  | .showMember settings => settings
  | .delete settings => settings

/-- Whether the action that is bound can have callbacks. -/
def Binding.hasCallbacks : Binding → Bool
  | .create _ _ _ => true
  | .update _ _ _ => true
  | .custom _ _ _ _ => true
  | .customAction _ _ => true
  | .index _ => false
  | .showMember _ => false
  | .delete _ => true

theorem Route.method_ofAction_mem (action : String) : (ofAction action).method ∈ methods := by
  have hstandard : ∀ entry ∈ standard, entry.2.method ∈ methods := by decide
  rw [ofAction]
  cases h : List.lookup action standard with
  | none => decide
  | some route => exact hstandard _ (Record.mem_of_get? h)

theorem Registry.isPublishable_of_documentationOf {r : Registry} {reference : Reference}
    {node : Value} (h : reference.IsTyped) (hnode : r.documentationOf reference = .ok node) :
    node.IsPublishable := by
  cases reference with
  | named name =>
      obtain ⟨schema, _, hnode⟩ := bind_eq_ok.mp hnode
      obtain rfl := pure_eq_ok.mp hnode
      exact schema.documentation.isNodeData_toValue.isPublishable
  | compiled schema =>
      obtain rfl := Except.ok.inj hnode
      exact schema.documentation.isNodeData_toValue.isPublishable
  | given data =>
      rw [documentationOf, Value.requireMember] at hnode
      split at hnode
      next => cases hnode
      next =>
        obtain rfl := Except.ok.inj hnode
        exact Value.IsNodeData.isPublishable h

namespace Controller

variable {c : Controller} {r : Registry} {settings : ActionSettings}

theorem isPublishable_of_responseNodes (hc : c.settings.IsTyped) (hsettings : settings.IsTyped)
    {nodes : Record Value} (h : c.responseNodes r settings = .ok nodes) :
    ∀ entry ∈ nodes, entry.2.IsPublishable := by
  unfold responseNodes at h
  cases hreference : settings.response.or c.settings.response with
  | none =>
      rw [hreference] at h
      obtain rfl := Except.ok.inj h
      simp
  | some reference =>
      have htyped : reference.IsTyped := by
        rcases Option.or_eq_some_iff.mp hreference with hown | ⟨_, hcommon⟩
        · exact hsettings.response reference hown
        · exact hc.response reference hcommon
      rw [hreference] at h
      obtain ⟨status, _, h⟩ := bind_eq_ok.mp h
      obtain ⟨node, hnode, h⟩ := bind_eq_ok.mp h
      obtain rfl := pure_eq_ok.mp h
      rintro entry hentry
      obtain rfl := List.mem_singleton.mp hentry
      exact Registry.isPublishable_of_documentationOf htyped hnode

theorem isPublishable_of_callbackNodes (hc : c.settings.IsTyped) (hsettings : settings.IsTyped)
    {nodes : Record Value} (h : c.callbackNodes r settings = .ok nodes) :
    ∀ entry ∈ nodes, entry.2.IsPublishable := by
  have htyped : ∀ reference ∈ (settings.callbacks.or c.settings.callbacks).getD [],
      reference.IsTyped := by
    cases hreferences : settings.callbacks.or c.settings.callbacks with
    | none => simp
    | some references =>
        rcases Option.or_eq_some_iff.mp hreferences with hown | ⟨_, hcommon⟩
        · exact hsettings.callbacks references hown
        · exact hc.callbacks references hcommon
  obtain ⟨named, hnamed, h⟩ := bind_eq_ok.mp h
  obtain rfl := pure_eq_ok.mp h
  intro entry hentry
  obtain ⟨found, hfound, hentry⟩ := List.mem_filterMap.mp (Record.mem_of_mem_ofAssignments hentry)
  obtain rfl : found = some entry := hentry
  obtain ⟨reference, hreference, hmade⟩ := exists_of_mem_mapM hnamed _ hfound
  obtain ⟨node, hnode, hmade⟩ := bind_eq_ok.mp hmade
  obtain ⟨name, _, hmade⟩ := bind_eq_ok.mp hmade
  obtain ⟨_, _, rfl⟩ := Option.map_eq_some_iff.mp (pure_eq_ok.mp hmade)
  exact Registry.isPublishable_of_documentationOf (htyped reference hreference) hnode

theorem actionSchemas_eq_ok {callbacks : Bool} {schemas : ActionSchemas}
    (h : c.actionSchemas r settings callbacks = .ok schemas) :
    c.responseNodes r settings = .ok schemas.responses ∧
      if callbacks = true then c.callbackNodes r settings = .ok schemas.callbacks
      else schemas.callbacks = [] := by
  obtain ⟨responses, hresponses, h⟩ := bind_eq_ok.mp h
  cases callbacks with
  | false =>
      obtain rfl := pure_eq_ok.mp h
      exact ⟨hresponses, rfl⟩
  | true =>
      obtain ⟨named, hnamed, h⟩ := bind_eq_ok.mp h
      obtain rfl := pure_eq_ok.mp h
      exact ⟨hresponses, hnamed⟩

/-- The endpoint of an action can be published when what is set for the action and the controller
has its type. -/
theorem endpoint_isPublishable (hc : c.settings.IsTyped) (hsettings : settings.IsTyped)
    {callbacks : Bool} {schemas : ActionSchemas}
    (hschemas : c.actionSchemas r settings callbacks = .ok schemas) (action : String)
    (request : Option Schema) :
    (c.endpoint action settings schemas request).IsPublishable := by
  obtain ⟨hresponses, hcallbacks⟩ := actionSchemas_eq_ok hschemas
  refine ⟨?_, isPublishable_of_responseNodes hc hsettings hresponses, ?_, ?_⟩
  · cases hmethod : settings.method with
    | none => simpa [endpoint, hmethod] using Route.method_ofAction_mem action
    | some method => simpa [endpoint, hmethod] using hsettings.method method hmethod
  · split at hcallbacks
    next => exact isPublishable_of_callbackNodes hc hsettings hcallbacks
    next => simp [endpoint, hcallbacks]
  · intro node hnode
    obtain ⟨schema, _, rfl⟩ := Option.map_eq_some_iff.mp hnode
    exact schema.documentation.isNodeData_toValue.isPublishable

theorem endpoint_of_bindPlain {action : String} {callbacks : Bool} {e : Endpoint}
    (h : (c.bindPlain r action settings callbacks).outcome = .ok e) :
    ∃ schemas request, c.actionSchemas r settings callbacks = .ok schemas ∧
      e = c.endpoint action settings schemas request := by
  unfold bindPlain at h
  split at h
  next => cases h
  next schemas hschemas => exact ⟨schemas, none, hschemas, (Except.ok.inj h).symm⟩

theorem endpoint_of_bindRequest {name action : String} {raw : Value} {e : Endpoint}
    (h : (c.bindRequest r name action settings raw).outcome = .ok e) :
    ∃ schemas request, c.actionSchemas r settings true = .ok schemas ∧
      e = c.endpoint action settings schemas request := by
  rcases c.bindRequest_cases r name action settings raw with
    ⟨_, _, hrequest⟩ | ⟨schemas, _, hschemas, _, hcases⟩
  · rw [hrequest] at h
    cases h
  · rcases hcases with ⟨_, _, hrequest⟩ | ⟨_, _, _, _, hrequest⟩ | ⟨request, _, _, _, hrequest⟩
    · rw [hrequest] at h
      cases h
    · rw [hrequest] at h
      cases h
    · rw [hrequest] at h
      exact ⟨schemas, some request, hschemas, (Except.ok.inj h).symm⟩

/-- A binding that succeeds returns the endpoint of its action, with the schemas that the action
refers to. -/
theorem endpoint_of_bind {binding : Binding} {e : Endpoint}
    (h : (c.bind r binding).outcome = .ok e) :
    ∃ schemas request,
      c.actionSchemas r binding.settings binding.hasCallbacks = .ok schemas ∧
        e = c.endpoint binding.action binding.settings schemas request := by
  cases binding with
  | create name settings raw => exact endpoint_of_bindRequest h
  | update name settings raw => exact endpoint_of_bindRequest h
  | custom name action settings raw => exact endpoint_of_bindRequest h
  | customAction action settings => exact endpoint_of_bindPlain h
  | index settings => exact endpoint_of_bindPlain h
  | showMember settings => exact endpoint_of_bindPlain h
  | delete settings => exact endpoint_of_bindPlain h

theorem bind_isPublishable (hc : c.settings.IsTyped) {binding : Binding}
    (hbinding : binding.settings.IsTyped) {e : Endpoint}
    (h : (c.bind r binding).outcome = .ok e) : e.IsPublishable := by
  obtain ⟨schemas, request, hschemas, rfl⟩ := endpoint_of_bind h
  exact endpoint_isPublishable hc hbinding hschemas binding.action request

/-- A controller has the settings it began with, and every endpoint of it can be published. -/
structure IsPublishable (c : Controller) (settings : ControllerSettings) : Prop where
  settings_eq : c.settings = settings
  endpoints : ∀ e ∈ c.endpoints, e.IsPublishable

theorem IsPublishable.hold {settings : ControllerSettings} (h : c.IsPublishable settings)
    {e : Endpoint} (he : e.IsPublishable) : (c.hold e).IsPublishable settings where
  settings_eq := h.settings_eq
  endpoints := by
    intro other hother
    rcases mem_endpoints_hold hother with rfl | ⟨hkept, _⟩
    · exact he
    · exact h.endpoints other hkept

theorem IsPublishable.bind {settings : ControllerSettings} (h : c.IsPublishable settings)
    (hsettings : settings.IsTyped) (r : Registry) {binding : Binding}
    (hbinding : binding.settings.IsTyped) :
    (c.bind r binding).state.2.IsPublishable settings := by
  rcases c.bind_cases r binding with ⟨_, hstate⟩ | ⟨b, hbound, rfl, _, hcases⟩
  · rw [hstate]
    exact h
  · have he : b.endpoint.IsPublishable := by
      obtain ⟨e, houtcome, hb⟩ := Option.map_eq_some_iff.mp hbound
      obtain rfl : e = b.endpoint := congrArg Bound.endpoint hb
      exact bind_isPublishable (h.settings_eq ▸ hsettings) hbinding
        (Outcome.toOption_eq_some.mp houtcome)
    rcases hcases with ⟨_, hstate⟩ | ⟨body, validator, _, _, hstate⟩
    · rw [hstate]
      exact h.hold he
    · have hknown : IsPublishable
          { c with validators := c.validators.put body.name validator } settings :=
        ⟨h.settings_eq, h.endpoints⟩
      rw [hstate]
      exact hknown.hold he

end Controller

namespace Session

/-- What the bindings of a controller keep holds of it after a run. -/
theorem run_controller {P : Controller → Prop} {s : Session} {id : String} {c : Controller}
    (hpresent : s.controllers.get? id = some c) (hc : P c) {calls : List Call}
    (hkept : ∀ other, .begin id other ∉ calls)
    (hstep : ∀ binding, .bind id binding ∈ calls →
      ∀ c r, P c → P (c.bind r binding).state.2) :
    ∃ later, (s.run calls).controllers.get? id = some later ∧ P later := by
  induction calls generalizing s c with
  | nil => exact ⟨c, hpresent, hc⟩
  | cons call rest ih =>
      have hrest : ∀ other, .begin id other ∉ rest := fun other hmem =>
        hkept other (List.mem_cons_of_mem _ hmem)
      have hlater : ∀ binding, .bind id binding ∈ rest →
          ∀ c r, P c → P (c.bind r binding).state.2 := fun binding hmem =>
        hstep binding (List.mem_cons_of_mem _ hmem)
      by_cases hbind : ∃ binding, call = .bind id binding
      · obtain ⟨binding, rfl⟩ := hbind
        exact ih (controller_step_bind hpresent binding)
          (hstep binding List.mem_cons_self c s.registry hc) hrest hlater
      · push Not at hbind
        have hcall : ∀ other, call ≠ .begin id other := by
          rintro other rfl
          exact hkept other List.mem_cons_self
        exact ih ((controller_step_of_other hcall hbind).trans hpresent) hc hrest hlater

/-- Whatever is called after a controller has begun, its endpoints can be published. -/
theorem run_isPublishable (s : Session) (id : String) {settings : ControllerSettings}
    (hsettings : settings.IsTyped) {calls : List Call} (hkept : ∀ other, .begin id other ∉ calls)
    (htyped : ∀ binding, .bind id binding ∈ calls → binding.settings.IsTyped) :
    ∃ c, ((s.step (.begin id settings)).state.run calls).controllers.get? id = some c ∧
      c.IsPublishable settings := by
  have hbegun : ({ settings } : Controller).IsPublishable settings := ⟨rfl, by simp⟩
  exact run_controller (P := fun c => c.IsPublishable settings)
    (s.controller_step_begin id settings) hbegun hkept
    fun binding hmem c r h => h.bind hsettings r (htyped binding hmem)

end Session

end FieldSchema
