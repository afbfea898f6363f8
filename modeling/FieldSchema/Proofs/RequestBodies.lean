import Mathlib
import FieldSchema.Proofs.Binding
import FieldSchema.Proofs.Verdicts

/-!
# Registered request bodies

A binding that succeeds leaves its request body in three places: the registry holds the schema, the
controller a validator built from it, and the endpoint its documentation. The three are written
together and replaced under names of their own: schemas by the name made of the request's,
validators by the request's name and endpoints by the action's. They agree for as long as no call
compiles another schema under the name in the registry.
-/

namespace FieldSchema

namespace Controller

/-- The schema that a binding compiles into the registry. The binding may fail all the same. -/
def compiled? (c : Controller) (r : Registry) (binding : Binding) : Option Schema := do
  let body ← binding.body?
  let _ ← (c.actionSchemas r body.settings true).toOption
  (r.compile (c.requestSchemaName body.name) body.declarations
    body.settings.overrides).outcome.toOption

/-- A controller serves a request body by a schema: it checks inputs by the schema's descriptor, and
where the endpoint of the operation publishes a schema of that name, it publishes the schema's
documentation. -/
structure Serves (c : Controller) (request operation : String) (schema : Schema) : Prop where
  named : c.requestSchemaName request = schema.name
  checked : ∃ validator, c.validators.get? request = some validator ∧
    schema.descriptor.validator = .ok validator
  published : ∀ e ∈ c.endpoints, e.operationId = operation →
    e.requestSchemaName = some schema.name → e.requestBody = some schema.documentation.toValue

end Controller

namespace Session

/-- The schema that a call compiles into the registry. -/
def compiled? (s : Session) : Call → Option Schema
  | .compile name raw overrides => (s.registry.compile name raw overrides).outcome.toOption
  | .bind controller binding => do
      let c ← s.controllers.get? controller
      c.compiled? s.registry binding
  | .declare _ => none
  | .freeze => none
  | .begin _ _ => none

/-- None of the calls compiles a schema under a name. -/
def LeavesAlone (name : String) : Session → List Call → Prop
  | _, [] => True
  | s, call :: rest =>
      (∀ other, s.compiled? call = some other → other.name ≠ name) ∧
        LeavesAlone name (s.step call).state rest

/-- A binding in a run that succeeded in binding a request body, by a controller that is not begun
anew after it. -/
structure RequestBinding (s : Session) (calls : List Call) (controller : String) where
  earlier : List Call
  binding : Binding
  later : List Call
  body : RequestBody
  endpoint : Endpoint
  split : calls = earlier ++ .bind controller binding :: later
  declared : binding.body? = some body
  bound : ((s.run earlier).step (.bind controller binding)).outcome = .ok (.endpoint endpoint)
  kept : ∀ settings, .begin controller settings ∉ later

/-- No call after the binding compiles a schema under the name of its request body. -/
def RequestBinding.Stands {s : Session} {calls : List Call} {controller : String}
    (b : s.RequestBinding calls controller) : Prop :=
  ∀ name, b.endpoint.requestSchemaName = some name →
    LeavesAlone name ((s.run b.earlier).step (.bind controller b.binding)).state b.later

/-- A request body is held as it was bound: the registry holds its schema, and the controller serves
it. -/
structure HoldsRequest (s : Session) (controller request operation : String) (schema : Schema)
    (c : Controller) : Prop where
  present : s.controllers.get? controller = some c
  registered : s.registry.get? schema.name = some schema
  serves : c.Serves request operation schema

end Session

/-! ## What a call leaves in the registry -/

theorem Outcome.toOption_eq_some {α : Type} {x : Outcome α} {a : α} :
    x.toOption = some a ↔ x = .ok a := by
  cases x <;> simp [Except.toOption]

namespace Registry

theorem get?_compile_of_ne {r : Registry} {name : String} {raw : Value} {overrides : Record Value}
    {other : String}
    (h : ∀ s, (r.compile name raw overrides).outcome = .ok s → s.name ≠ other) :
    (r.compile name raw overrides).state.get? other = r.get? other := by
  cases houtcome : (r.compile name raw overrides).outcome with
  | error failure => exact (compile_error_sameAnswers houtcome).entries other
  | ok s =>
      obtain ⟨hstate, _, hcompile⟩ := compile_ok_state houtcome
      have hne : other ≠ name := fun heq =>
        h s houtcome ((Schema.compile_name hcompile).trans heq.symm)
      rw [hstate, get?_hold, if_neg hne, get?_mark]

theorem get?_declare (r : Registry) (name other : String) :
    (r.declare name).state.get? other = r.get? other := by
  unfold declare
  split
  next => rfl
  next =>
    dsimp only
    split <;> rfl

end Registry

namespace Controller

theorem mem_endpoints_hold {c : Controller} {e other : Endpoint}
    (h : other ∈ (c.hold e).endpoints) :
    other = e ∨ other ∈ c.endpoints ∧ other.operationId ≠ e.operationId := by
  rcases List.mem_append.mp h with hkept | hnew
  · obtain ⟨hmem, hne⟩ := List.mem_filter.mp hkept
    exact .inr ⟨hmem, by simpa using hne⟩
  · exact .inl (List.mem_singleton.mp hnew)

theorem bindPlain_cases (c : Controller) (r : Registry) (action : String)
    (settings : ActionSettings) (callbacks : Bool) :
    (∃ failure, (c.bindPlain r action settings callbacks).outcome = .error failure ∧
      (c.bindPlain r action settings callbacks).state = c) ∨
    ∃ e, e.requestSchemaName = none ∧
      (c.bindPlain r action settings callbacks).state = c.hold e := by
  unfold bindPlain
  split
  next failure _ => exact .inl ⟨failure, rfl, rfl⟩
  next schemas _ => exact .inr ⟨c.endpoint action settings schemas none, rfl, rfl⟩

theorem compiled?_eq_some_iff {c : Controller} {r : Registry} {binding : Binding}
    {body : RequestBody} (hbody : binding.body? = some body) {schema : Schema} :
    c.compiled? r binding = some schema ↔
      (∃ schemas, c.actionSchemas r body.settings true = .ok schemas) ∧
        (r.compile (c.requestSchemaName body.name) body.declarations
          body.settings.overrides).outcome = .ok schema := by
  simp only [compiled?, hbody, Option.bind_eq_bind, Option.bind_some, Option.bind_eq_some_iff,
    Outcome.toOption_eq_some]
  exact ⟨fun ⟨schemas, hschemas, h⟩ => ⟨⟨schemas, hschemas⟩, h⟩,
    fun ⟨⟨schemas, hschemas⟩, h⟩ => ⟨schemas, hschemas, h⟩⟩

/-- A binding that compiles nothing leaves the registry's schemas and the validators alone. If it
succeeds, its endpoint publishes no request body. -/
theorem bind_of_not_compiled {c : Controller} {r : Registry} {binding : Binding}
    (h : c.compiled? r binding = none) :
    (∀ other, (c.bind r binding).state.1.get? other = r.get? other) ∧
      ((∃ failure, (c.bind r binding).outcome = .error failure ∧
        (c.bind r binding).state.2 = c) ∨
      binding.body? = none ∧ ∃ e, e.requestSchemaName = none ∧
        (c.bind r binding).state.2 = c.hold e) := by
  cases hbody : binding.body? with
  | none =>
      have hplain : ∀ action settings callbacks,
          (∃ failure, (c.bindPlain r action settings callbacks).outcome = .error failure ∧
            (c.bindPlain r action settings callbacks).state = c) ∨
          (none : Option RequestBody) = none ∧ ∃ e, e.requestSchemaName = none ∧
            (c.bindPlain r action settings callbacks).state = c.hold e :=
        fun action settings callbacks =>
          (c.bindPlain_cases r action settings callbacks).imp_right fun he => ⟨rfl, he⟩
      cases binding with
      | create name settings declarations => cases hbody
      | update name settings declarations => cases hbody
      | custom name action settings declarations => cases hbody
      | customAction action settings => exact ⟨fun _ => rfl, hplain action settings true⟩
      | index settings => exact ⟨fun _ => rfl, hplain "index" settings false⟩
      | showMember settings => exact ⟨fun _ => rfl, hplain "show" settings false⟩
      | delete settings => exact ⟨fun _ => rfl, hplain "delete" settings true⟩
  | some body =>
      obtain ⟨action, hbind⟩ := bind_of_body hbody
      have hnone : ∀ schema, ¬((∃ schemas, c.actionSchemas r body.settings true = .ok schemas) ∧
          (r.compile (c.requestSchemaName body.name) body.declarations
            body.settings.overrides).outcome = .ok schema) := by
        intro schema hcompiled
        exact absurd (h.symm.trans ((compiled?_eq_some_iff hbody).mpr hcompiled)) (by simp)
      rw [hbind]
      rcases c.bindRequest_cases r body.name action body.settings body.declarations with
        ⟨failure, _, hrequest⟩ | ⟨schemas, compiled, hschemas, rfl, hcases⟩
      · rw [hrequest]
        exact ⟨fun _ => rfl, .inl ⟨failure, rfl, rfl⟩⟩
      · rcases hcases with ⟨failure, houtcome, hrequest⟩ | ⟨schema, _, houtcome, _⟩ |
          ⟨schema, _, houtcome, _⟩
        · rw [hrequest]
          exact ⟨(Registry.compile_error_sameAnswers houtcome).entries, .inl ⟨failure, rfl, rfl⟩⟩
        · exact absurd ⟨⟨schemas, hschemas⟩, houtcome⟩ (hnone schema)
        · exact absurd ⟨⟨schemas, hschemas⟩, houtcome⟩ (hnone schema)

/-- A binding that compiles a schema has it held by the registry. It fails without a validator, and
else keeps the validator under the name of the request and has its endpoint publish the schema. -/
theorem bind_of_compiled {c : Controller} {r : Registry} {binding : Binding} {schema : Schema}
    (h : c.compiled? r binding = some schema) :
    ∃ body, binding.body? = some body ∧ c.requestSchemaName body.name = schema.name ∧
      (∀ other, (c.bind r binding).state.1.get? other =
        if other = schema.name then some schema else r.get? other) ∧
      ((∃ failure, (c.bind r binding).outcome = .error failure ∧
        (c.bind r binding).state.2 = c) ∨
      ∃ validator e, (c.bind r binding).outcome = .ok e ∧
        schema.descriptor.validator = .ok validator ∧
        e.requestSchemaName = some schema.name ∧
        e.requestBody = some schema.documentation.toValue ∧
        (c.bind r binding).state.2 =
          { c with validators := c.validators.put body.name validator }.hold e) := by
  obtain ⟨body, hbody, _⟩ := Option.bind_eq_some_iff.mp h
  obtain ⟨⟨schemas, hschemas⟩, houtcome⟩ := (compiled?_eq_some_iff hbody).mp h
  obtain ⟨hstate, _, hcompile⟩ := Registry.compile_ok_state houtcome
  have hname : schema.name = c.requestSchemaName body.name := Schema.compile_name hcompile
  obtain ⟨action, hbind⟩ := bind_of_body hbody
  refine ⟨body, hbody, hname.symm, ?_⟩
  have hentries : ∀ other, (r.compile (c.requestSchemaName body.name) body.declarations
      body.settings.overrides).state.get? other =
        if other = schema.name then some schema else r.get? other := by
    intro other
    rw [hstate, Registry.get?_hold, hname, Registry.get?_mark]
  rw [hbind]
  rcases c.bindRequest_cases r body.name action body.settings body.declarations with
    ⟨failure, herror, _⟩ | ⟨others, compiled, _, rfl, hcases⟩
  · exact absurd (hschemas.symm.trans herror) (by simp)
  · rcases hcases with ⟨failure, herror, _⟩ | ⟨other, failure, hother, hvalidator, hrequest⟩ |
      ⟨other, validator, hother, hvalidator, hrequest⟩
    · exact absurd (houtcome.symm.trans herror) (by simp)
    · rw [hrequest]
      exact ⟨hentries, .inl ⟨failure, rfl, rfl⟩⟩
    · obtain rfl := Except.ok.inj (houtcome.symm.trans hother)
      rw [hrequest]
      exact ⟨hentries, .inr ⟨validator, _, rfl, hvalidator, rfl, rfl, rfl⟩⟩

theorem get?_bind_of_ne {c : Controller} {r : Registry} {binding : Binding} {name : String}
    (hquiet : ∀ other, c.compiled? r binding = some other → other.name ≠ name) :
    (c.bind r binding).state.1.get? name = r.get? name := by
  cases hcompiled : c.compiled? r binding with
  | none => exact (bind_of_not_compiled hcompiled).1 name
  | some other =>
      obtain ⟨_, _, _, hentries, _⟩ := bind_of_compiled hcompiled
      rw [hentries, if_neg (hquiet other hcompiled).symm]

/-! ## What a binding leaves of a request body -/

namespace Serves

variable {c : Controller} {request operation : String} {schema : Schema}

theorem hold (h : c.Serves request operation schema) {e : Endpoint}
    (hname : e.requestSchemaName ≠ some schema.name) :
    (c.hold e).Serves request operation schema := by
  refine ⟨h.named, h.checked, fun other hmem hoperation hother => ?_⟩
  rcases mem_endpoints_hold hmem with rfl | ⟨hearlier, _⟩
  · exact absurd hother hname
  · exact h.published other hearlier hoperation hother

theorem put (h : c.Serves request operation schema) {name : String} (validator : Validator)
    (hne : request ≠ name) :
    Serves { c with validators := c.validators.put name validator } request operation schema := by
  obtain ⟨held, hheld, hvalidator⟩ := h.checked
  refine ⟨h.named, ⟨held, ?_, hvalidator⟩, h.published⟩
  exact (NameTable.get?_put c.validators name request validator).trans ((if_neg hne).trans hheld)

/-- A binding that compiles nothing under the name of the schema leaves it served. -/
theorem bind (h : c.Serves request operation schema) {r : Registry} {binding : Binding}
    (hquiet : ∀ other, c.compiled? r binding = some other → other.name ≠ schema.name) :
    (c.bind r binding).state.2.Serves request operation schema := by
  cases hcompiled : c.compiled? r binding with
  | none =>
      rcases (bind_of_not_compiled hcompiled).2 with ⟨_, _, hstate⟩ | ⟨_, e, hname, hstate⟩
      · exact hstate.symm ▸ h
      · exact hstate.symm ▸ h.hold (by simp [hname])
  | some other =>
      have hne := hquiet other hcompiled
      obtain ⟨body, _, hbodyName, _, hcases⟩ := bind_of_compiled hcompiled
      rcases hcases with ⟨_, _, hstate⟩ | ⟨validator, e, _, _, hname, _, hstate⟩
      · exact hstate.symm ▸ h
      · -- another name in the registry is made of another name of a request
        have hrequest : request ≠ body.name := by
          rintro rfl
          exact hne (hbodyName.symm.trans h.named)
        rw [hstate]
        exact (h.put validator hrequest).hold (by simpa [hname] using hne)

end Serves

/-- A binding of a request body that succeeds registers a schema and serves the request by it. -/
theorem serves_of_bind {c : Controller} {r : Registry} {binding : Binding} {body : RequestBody}
    (hbody : binding.body? = some body) {e : Endpoint}
    (hbound : (c.bind r binding).outcome = .ok e) :
    ∃ schema, e.requestSchemaName = some schema.name ∧
      (c.bind r binding).state.1.get? schema.name = some schema ∧
      (c.bind r binding).state.2.Serves body.name e.operationId schema := by
  cases hcompiled : c.compiled? r binding with
  | none =>
      rcases (bind_of_not_compiled hcompiled).2 with ⟨_, hfailed, _⟩ | ⟨hnone, _⟩
      · exact absurd (hbound.symm.trans hfailed) (by simp)
      · exact absurd (hbody.symm.trans hnone) (by simp)
  | some schema =>
      obtain ⟨other, hother, hname, hentries, hcases⟩ := bind_of_compiled hcompiled
      obtain rfl := Option.some.inj (hbody.symm.trans hother)
      rcases hcases with
        ⟨_, hfailed, _⟩ | ⟨validator, made, hmade, hvalidator, hpublished, hnode, hstate⟩
      · exact absurd (hbound.symm.trans hfailed) (by simp)
      · obtain rfl := Except.ok.inj (hbound.symm.trans hmade)
        refine ⟨schema, hpublished, by rw [hentries, if_pos rfl], ?_⟩
        rw [hstate]
        refine ⟨hname, ⟨validator, ?_, hvalidator⟩, fun held hmem hoperation _ => ?_⟩
        · exact (NameTable.get?_put c.validators body.name body.name validator).trans (if_pos rfl)
        · -- of this operation only the new endpoint is left
          rcases mem_endpoints_hold hmem with rfl | ⟨_, hother⟩
          · exact hnode
          · exact absurd hoperation hother

/-- An endpoint with a request body is one that was held before, or what the binding made of a
request body. -/
theorem mem_endpoints_bind {c : Controller} {r : Registry} {binding : Binding} {e : Endpoint}
    (he : e ∈ (c.bind r binding).state.2.endpoints) {name : String}
    (hname : e.requestSchemaName = some name) :
    e ∈ c.endpoints ∨
      ∃ body, binding.body? = some body ∧ (c.bind r binding).outcome = .ok e := by
  cases hcompiled : c.compiled? r binding with
  | none =>
      rcases (bind_of_not_compiled hcompiled).2 with ⟨_, _, hstate⟩ | ⟨_, made, hnone, hstate⟩
      · exact .inl (hstate ▸ he)
      · rcases mem_endpoints_hold (hstate ▸ he) with rfl | ⟨hearlier, _⟩
        · exact absurd (hname.symm.trans hnone) (by simp)
        · exact .inl hearlier
  | some schema =>
      obtain ⟨body, hbody, _, _, hcases⟩ := bind_of_compiled hcompiled
      rcases hcases with ⟨_, _, hstate⟩ | ⟨validator, made, hmade, _, _, _, hstate⟩
      · exact .inl (hstate ▸ he)
      · rcases mem_endpoints_hold (hstate ▸ he) with rfl | ⟨hearlier, _⟩
        · exact .inr ⟨body, hbody, hmade⟩
        · exact .inl hearlier

end Controller

/-! ## What a call leaves of a request body -/

namespace Session

theorem step_bind_of_none {s : Session} {id : String} (h : s.controllers.get? id = none)
    (binding : Binding) : (s.step (.bind id binding)).state = s := by
  simp [step, h]

theorem step_bind {s : Session} {id : String} {c : Controller}
    (h : s.controllers.get? id = some c) (binding : Binding) :
    (s.step (.bind id binding)).outcome = (c.bind s.registry binding).outcome.map .endpoint ∧
      (s.step (.bind id binding)).state =
        ⟨(c.bind s.registry binding).state.1,
          s.controllers.put id (c.bind s.registry binding).state.2⟩ := by
  simp [step, h]

theorem controller_step_begin (s : Session) (id : String) (settings : ControllerSettings) :
    (s.step (.begin id settings)).state.controllers.get? id = some { settings } :=
  (NameTable.get?_put s.controllers id id _).trans (if_pos rfl)

theorem controller_step_bind {s : Session} {id : String} {c : Controller}
    (h : s.controllers.get? id = some c) (binding : Binding) :
    (s.step (.bind id binding)).state.controllers.get? id =
      some (c.bind s.registry binding).state.2 := by
  rw [(step_bind h binding).2]
  exact (NameTable.get?_put s.controllers id id _).trans (if_pos rfl)

/-- A call that neither begins a controller nor binds for it leaves it as it was. -/
theorem controller_step_of_other {s : Session} {call : Call} {id : String}
    (hbegin : ∀ settings, call ≠ .begin id settings) (hbind : ∀ binding, call ≠ .bind id binding) :
    (s.step call).state.controllers.get? id = s.controllers.get? id := by
  cases call with
  | declare name => rfl
  | compile name raw overrides => rfl
  | freeze => rfl
  | begin controller settings =>
      have hne : id ≠ controller := by
        rintro rfl
        exact hbegin settings rfl
      exact (NameTable.get?_put s.controllers controller id _).trans (if_neg hne)
  | bind controller binding =>
      have hne : id ≠ controller := by
        rintro rfl
        exact hbind binding rfl
      cases hbinder : s.controllers.get? controller with
      | none => rw [step_bind_of_none hbinder]
      | some binder =>
          rw [(step_bind hbinder binding).2]
          exact (NameTable.get?_put s.controllers controller id _).trans (if_neg hne)

end Session

namespace Session.HoldsRequest

variable {s : Session} {id request operation : String} {schema : Schema} {c : Controller}

theorem of_unchanged (h : s.HoldsRequest id request operation schema c) {other : Session}
    (hregistry : other.registry.get? schema.name = s.registry.get? schema.name)
    (hcontroller : other.controllers.get? id = s.controllers.get? id) :
    other.HoldsRequest id request operation schema c where
  present := hcontroller.trans h.present
  registered := hregistry.trans h.registered
  serves := h.serves

theorem bind (h : s.HoldsRequest id request operation schema c) (controller : String)
    (binding : Binding)
    (hquiet : ∀ other, s.compiled? (.bind controller binding) = some other →
      other.name ≠ schema.name) :
    ∃ later, (s.step (.bind controller binding)).state.HoldsRequest id request operation schema
      later := by
  cases hbinder : s.controllers.get? controller with
  | none => exact ⟨c, (step_bind_of_none hbinder binding).symm ▸ h⟩
  | some binder =>
      have hbinderQuiet : ∀ other, binder.compiled? s.registry binding = some other →
          other.name ≠ schema.name := by simpa [Session.compiled?, hbinder] using hquiet
      have hregistered : (s.step (.bind controller binding)).state.registry.get? schema.name =
          some schema := by
        rw [(step_bind hbinder binding).2]
        exact (Controller.get?_bind_of_ne hbinderQuiet).trans h.registered
      by_cases hid : controller = id
      · subst hid
        obtain rfl := Option.some.inj (hbinder.symm.trans h.present)
        exact ⟨_, controller_step_bind hbinder binding, hregistered, h.serves.bind hbinderQuiet⟩
      · have hother : (s.step (.bind controller binding)).state.controllers.get? id =
            s.controllers.get? id := controller_step_of_other (by simp) (by simp [hid])
        exact ⟨c, hother.trans h.present, hregistered, h.serves⟩

theorem step (h : s.HoldsRequest id request operation schema c) (call : Call)
    (hkept : ∀ settings, call ≠ .begin id settings)
    (hquiet : ∀ other, s.compiled? call = some other → other.name ≠ schema.name) :
    ∃ later, (s.step call).state.HoldsRequest id request operation schema later := by
  cases call with
  | declare name => exact ⟨c, h.of_unchanged (s.registry.get?_declare name schema.name) rfl⟩
  | compile name raw overrides =>
      refine ⟨c, h.of_unchanged (Registry.get?_compile_of_ne fun other houtcome => ?_) rfl⟩
      exact hquiet other (Outcome.toOption_eq_some.mpr houtcome)
  | freeze => exact ⟨c, h.of_unchanged rfl rfl⟩
  | begin controller settings =>
      exact ⟨c, h.of_unchanged rfl (controller_step_of_other hkept (by simp))⟩
  | bind controller binding => exact h.bind controller binding hquiet

/-- Calls that compile nothing under the name of the schema leave the request body as it was. -/
theorem run (h : s.HoldsRequest id request operation schema c) (calls : List Call)
    (hkept : ∀ settings, .begin id settings ∉ calls)
    (halone : LeavesAlone schema.name s calls) :
    ∃ later, (s.run calls).HoldsRequest id request operation schema later := by
  induction calls generalizing s c with
  | nil => exact ⟨c, h⟩
  | cons call rest ih =>
      obtain ⟨hquiet, hrest⟩ := halone
      have hcall : ∀ settings, call ≠ .begin id settings := by
        rintro settings rfl
        exact hkept settings List.mem_cons_self
      obtain ⟨later, hlater⟩ := h.step call hcall hquiet
      exact ih hlater (fun settings hmem => hkept settings (List.mem_cons_of_mem _ hmem)) hrest

end Session.HoldsRequest

namespace Session

/-! ## Bindings of request bodies along a run -/

theorem run_concat (s : Session) (calls : List Call) (call : Call) :
    s.run (calls ++ [call]) = ((s.run calls).step call).state := by
  simp [run]

theorem run_append_cons (s : Session) (earlier : List Call) (call : Call) (later : List Call) :
    s.run (earlier ++ call :: later) = ((s.run earlier).step call).state.run later := by
  simp [run]

theorem bound_by_controller {s : Session} {id : String} {binding : Binding} {e : Endpoint}
    (h : (s.step (.bind id binding)).outcome = .ok (.endpoint e)) :
    ∃ c, s.controllers.get? id = some c ∧ (c.bind s.registry binding).outcome = .ok e := by
  cases hpresent : s.controllers.get? id with
  | none => simp [step, hpresent] at h
  | some c =>
      rw [(step_bind hpresent binding).1] at h
      cases hmade : (c.bind s.registry binding).outcome with
      | error failure => simp [hmade, Except.map] at h
      | ok made => exact ⟨c, rfl, by simpa [hmade, Except.map] using h⟩

/-- A binding of a request body that succeeds leaves the request body held. -/
theorem holdsRequest_of_bind {s : Session} {id : String} {binding : Binding} {body : RequestBody}
    (hbody : binding.body? = some body) {e : Endpoint}
    (hbound : (s.step (.bind id binding)).outcome = .ok (.endpoint e)) :
    ∃ schema later, e.requestSchemaName = some schema.name ∧
      (s.step (.bind id binding)).state.HoldsRequest id body.name e.operationId schema later := by
  obtain ⟨c, hpresent, hmade⟩ := bound_by_controller hbound
  obtain ⟨schema, hname, hregistered, hserves⟩ := Controller.serves_of_bind hbody hmade
  refine ⟨schema, (c.bind s.registry binding).state.2, hname, ?_⟩
  refine ⟨controller_step_bind hpresent binding, ?_, hserves⟩
  rw [(step_bind hpresent binding).2]
  exact hregistered

/-- An endpoint with a request body was held before the call, or the call bound it. -/
theorem mem_endpoints_step {s : Session} {call : Call} {id : String} {c : Controller}
    (hpresent : (s.step call).state.controllers.get? id = some c) {e : Endpoint}
    (he : e ∈ c.endpoints) {name : String} (hname : e.requestSchemaName = some name) :
    (∃ earlier, s.controllers.get? id = some earlier ∧ e ∈ earlier.endpoints ∧
        ∀ settings, call ≠ .begin id settings) ∨
      ∃ binding body, call = .bind id binding ∧ binding.body? = some body ∧
        (s.step call).outcome = .ok (.endpoint e) := by
  by_cases hbegin : ∃ settings, call = .begin id settings
  · obtain ⟨settings, rfl⟩ := hbegin
    -- a controller that has just begun holds no endpoint
    obtain rfl := Option.some.inj ((controller_step_begin s id settings).symm.trans hpresent)
    exact absurd he List.not_mem_nil
  · push Not at hbegin
    by_cases hbind : ∃ binding, call = .bind id binding
    · obtain ⟨binding, rfl⟩ := hbind
      cases hbinder : s.controllers.get? id with
      | none =>
          rw [step_bind_of_none hbinder, hbinder] at hpresent
          cases hpresent
      | some binder =>
          obtain rfl := Option.some.inj
            ((controller_step_bind hbinder binding).symm.trans hpresent)
          rcases Controller.mem_endpoints_bind he hname with hearlier | ⟨body, hbody, hmade⟩
          · exact .inl ⟨binder, rfl, hearlier, hbegin⟩
          · exact .inr ⟨binding, body, rfl, hbody, by rw [(step_bind hbinder binding).1, hmade]; rfl⟩
    · push Not at hbind
      rw [controller_step_of_other hbegin hbind] at hpresent
      exact .inl ⟨c, hpresent, he, hbegin⟩

namespace RequestBinding

variable {s : Session} {calls : List Call} {id : String}

def concat (b : s.RequestBinding calls id) (call : Call)
    (hkept : ∀ settings, call ≠ .begin id settings) : s.RequestBinding (calls ++ [call]) id :=
  { b with
    later := b.later ++ [call]
    split := (congrArg (· ++ [call]) b.split).trans (by simp)
    kept := fun settings hmem => by
      rcases List.mem_append.mp hmem with hlater | hlast
      · exact b.kept settings hlater
      · exact hkept settings (List.mem_singleton.mp hlast).symm }

/-- As long as the binding stands, its request body is held by the controller that the run
leaves. -/
theorem holdsRequest (b : s.RequestBinding calls id) (hstands : b.Stands) {c : Controller}
    (hpresent : (s.run calls).controllers.get? id = some c) :
    ∃ schema, b.endpoint.requestSchemaName = some schema.name ∧
      (s.run calls).HoldsRequest id b.body.name b.endpoint.operationId schema c := by
  obtain ⟨schema, bound, hname, hbound⟩ := holdsRequest_of_bind b.declared b.bound
  obtain ⟨last, hlast⟩ := hbound.run b.later b.kept (hstands schema.name hname)
  rw [← run_append_cons, ← b.split] at hlast
  obtain rfl := Option.some.inj (hlast.present.symm.trans hpresent)
  exact ⟨schema, hname, hlast⟩

end RequestBinding

/-- Every endpoint with a request body that is held after a run was made by a binding of the run. -/
theorem exists_requestBinding {defaults : TypeDefaults} {calls : List Call} {id : String}
    {c : Controller} (hpresent : ((start defaults).run calls).controllers.get? id = some c)
    {e : Endpoint} (he : e ∈ c.endpoints) {name : String}
    (hname : e.requestSchemaName = some name) :
    ∃ b : (start defaults).RequestBinding calls id, b.endpoint = e := by
  -- from the end of the run: the last call bound the endpoint, or left it where it was
  induction calls using List.reverseRecOn generalizing c with
  | nil => exact absurd hpresent (by simp [run, start, NameTable.get?])
  | append_singleton calls call ih =>
      rw [run_concat] at hpresent
      rcases mem_endpoints_step hpresent he hname with
        ⟨earlier, hearlier, hmem, hkept⟩ | ⟨binding, body, rfl, hbody, hmade⟩
      · obtain ⟨b, rfl⟩ := ih hearlier hmem
        exact ⟨b.concat call hkept, rfl⟩
      · exact ⟨⟨calls, binding, [], body, e, rfl, hbody, hmade, by simp⟩, rfl⟩

/-- A request body that compiles and has a validator is bound: the schema, the validator and the
endpoint are held. -/
theorem step_bind_custom {s : Session} {id : String} {c : Controller}
    (hpresent : s.controllers.get? id = some c) {name action : String} {settings : ActionSettings}
    {raw : Value} {schemas : ActionSchemas} {schema : Schema} {validator : Validator}
    (hschemas : c.actionSchemas s.registry settings true = .ok schemas)
    (hcompile : (s.registry.compile (c.requestSchemaName name) raw settings.overrides).outcome =
      .ok schema) (hvalidator : schema.descriptor.validator = .ok validator) :
    (s.step (.bind id (.custom name action settings raw))).outcome =
        .ok (.endpoint (c.endpoint action settings schemas (some schema))) ∧
      (s.step (.bind id (.custom name action settings raw))).state =
        ⟨(s.registry.compile (c.requestSchemaName name) raw settings.overrides).state,
          s.controllers.put id ({ c with validators := c.validators.put name validator }.hold
            (c.endpoint action settings schemas (some schema)))⟩ := by
  obtain ⟨houtcome, hstate⟩ := step_bind hpresent (.custom name action settings raw)
  rw [houtcome, hstate, Controller.bind, Controller.bindRequest, hschemas]
  simp only [hcompile, hvalidator]
  exact ⟨rfl, trivial⟩

/-! ## Two request bodies -/

/-- Declarations of one required flag. -/
def requiredFlag (field : String) : Value :=
  .list [.list [.text "required", .text field, .text "boolean"]]

def flagSchema (name field : String) : Schema :=
  ⟨name, [.plain ⟨field, .boolean, true, {}⟩],
    .object [(field, .leaf .boolean ⟨true, {}, {}⟩)] ⟨false, {}, { title := some name }⟩⟩

def flagValidator (field : String) : Validator :=
  .object [(field, ⟨true, false, none⟩, .boolean)]

theorem validator_flagSchema (name field : String) :
    (flagSchema name field).descriptor.validator = .ok (flagValidator field) := by
  simp only [flagSchema, Descriptor.validator, Validator.ofRules, Validator.ofFields,
    Validator.ofRule]
  simp [Validator.ofType, flagValidator, Record.ofList]
  rfl

/-- The binding of a request body with a flag. -/
def createUser : Binding := .custom "create_user" "create" {} (requiredFlag "admin")

def createEndpoint : Endpoint :=
  users.endpoint "create" {} ⟨[], []⟩ (some (flagSchema "Users.Schemas.CreateUser" "admin"))

def creator : Controller :=
  { users with
    endpoints := [createEndpoint]
    validators := [("create_user", flagValidator "admin")] }

/-- A session in which one controller has begun. -/
def usersOnly : Session := (start .builtIn).run [.begin "u" users.settings]

def created : Session where
  registry :=
    (usersOnly.registry.compile "Users.Schemas.CreateUser" (requiredFlag "admin") []).state
  controllers := [("u", creator)]

theorem step_createUser :
    (usersOnly.step (.bind "u" createUser)).outcome = .ok (.endpoint createEndpoint) ∧
      (usersOnly.step (.bind "u" createUser)).state = created :=
  step_bind_custom (rfl : usersOnly.controllers.get? "u" = some users) rfl rfl
    (validator_flagSchema _ _)

/-- The binding of another request body by another action. -/
def importUser (name : String) : Binding := .custom name "import" {} (requiredFlag "active")

/-- The controller after this binding, whose body is compiled under a name. -/
def importer (name schemaName : String) : Controller :=
  { users with
    endpoints := [createEndpoint,
      users.endpoint "import" {} ⟨[], []⟩ (some (flagSchema schemaName "active"))]
    validators := [("create_user", flagValidator "admin"), (name, flagValidator "active")] }

def imported (name schemaName : String) : Session where
  registry := (created.registry.compile schemaName (requiredFlag "active") []).state
  controllers := [("u", importer name schemaName)]

def usersCalls (name : String) : List Call :=
  [.begin "u" users.settings, .bind "u" createUser, .bind "u" (importUser name)]

theorem run_usersCalls (name : String) :
    (start .builtIn).run (usersCalls name) =
      (created.step (.bind "u" (importUser name))).state := by
  rw [← step_createUser.2]
  rfl

theorem run_import_user :
    (start .builtIn).run (usersCalls "import_user") =
      imported "import_user" "Users.Schemas.ImportUser" := by
  rw [run_usersCalls]
  exact (step_bind_custom (rfl : created.controllers.get? "u" = some creator) rfl rfl
    (validator_flagSchema _ _)).2

theorem run_create_user_again :
    (start .builtIn).run (usersCalls "create-user") =
      imported "create-user" "Users.Schemas.CreateUser" := by
  rw [run_usersCalls]
  exact (step_bind_custom (rfl : created.controllers.get? "u" = some creator) rfl rfl
    (validator_flagSchema _ _)).2

/-- The first of the two bindings. -/
def firstBinding (name : String) : (start .builtIn).RequestBinding (usersCalls name) "u" where
  earlier := [.begin "u" users.settings]
  binding := createUser
  later := [.bind "u" (importUser name)]
  body := ⟨"create_user", {}, requiredFlag "admin"⟩
  endpoint := createEndpoint
  split := rfl
  declared := rfl
  bound := step_createUser.1
  kept := by simp

/-- Another request body under another name leaves the first one alone. -/
theorem firstBinding_stands : (firstBinding "import_user").Stands := by
  intro name hname
  obtain rfl : "Users.Schemas.CreateUser" = name := Option.some.inj hname
  have hstate : (((start .builtIn).run (firstBinding "import_user").earlier).step
      (.bind "u" (firstBinding "import_user").binding)).state = created := step_createUser.2
  have hcompiled : created.compiled? (.bind "u" (importUser "import_user")) =
      some (flagSchema "Users.Schemas.ImportUser" "active") := rfl
  rw [hstate]
  refine ⟨fun other hother => ?_, trivial⟩
  obtain rfl := Option.some.inj (hcompiled.symm.trans hother)
  simp [flagSchema]

/-! ## Verdicts and published bodies -/

/-- As long as a binding stands, the verdicts under the name of its request are those of the
descriptor that the registry holds under the name made of it. -/
theorem judge_eq_registered {s : Session} {calls : List Call} {id : String} {c : Controller}
    (hpresent : (s.run calls).controllers.get? id = some c) (b : s.RequestBinding calls id)
    (hstands : b.Stands) (input : Value) :
    c.judge b.body.name input = (do
      let d ← (s.run calls).registry.descriptorOf (.named (c.requestSchemaName b.body.name))
      d.judge input) := by
  obtain ⟨schema, _, hheld⟩ := b.holdsRequest hstands hpresent
  obtain ⟨validator, hkept, hvalidator⟩ := hheld.serves.checked
  have hlookup : (s.run calls).registry.descriptorOf
      (.named (c.requestSchemaName b.body.name)) = .ok schema.descriptor := by
    rw [hheld.serves.named]
    simp [Registry.descriptorOf, Registry.lookup, hheld.registered]
  rw [hlookup, Controller.judge, hkept]
  exact (Descriptor.judge_eq hvalidator input).symm

theorem judge_create_user_eq_registered :
    ((start .builtIn).run (usersCalls "import_user")).controllers.get? "u" =
        some (importer "import_user" "Users.Schemas.ImportUser") ∧
      (firstBinding "import_user").Stands ∧
      ∀ input, (importer "import_user" "Users.Schemas.ImportUser").judge "create_user" input = (do
        let d ← ((start .builtIn).run (usersCalls "import_user")).registry.descriptorOf
          (.named ((importer "import_user" "Users.Schemas.ImportUser").requestSchemaName
            "create_user"))
        d.judge input) := by
  have hpresent : ((start .builtIn).run (usersCalls "import_user")).controllers.get? "u" =
      some (importer "import_user" "Users.Schemas.ImportUser") := by
    rw [run_import_user]
    rfl
  exact ⟨hpresent, firstBinding_stands,
    judge_eq_registered hpresent (firstBinding "import_user") firstBinding_stands⟩

def adminInput : Value := .object false [("admin", .bool true)]

/-- The names of two requests may make one name in the registry. The verdicts under the first name
are still those of the first body, while the registry holds the second. -/
theorem judge_ne_registered :
    ∃ c, ((start .builtIn).run (usersCalls "create-user")).controllers.get? "u" = some c ∧
      c.judge "create_user" adminInput = .ok (.accepted adminInput) ∧
      (do
        let d ← ((start .builtIn).run (usersCalls "create-user")).registry.descriptorOf
          (.named (c.requestSchemaName "create_user"))
        d.judge adminInput) =
        .ok (.rejected [("active", ["Invalid input: expected boolean, received undefined"])]) := by
  rw [run_create_user_again]
  refine ⟨importer "create-user" "Users.Schemas.CreateUser", rfl, rfl, ?_⟩
  have hdescriptor : (imported "create-user" "Users.Schemas.CreateUser").registry.descriptorOf
      (.named ((importer "create-user" "Users.Schemas.CreateUser").requestSchemaName
        "create_user")) = .ok (flagSchema "Users.Schemas.CreateUser" "active").descriptor := rfl
  rw [hdescriptor]
  exact (Descriptor.judge_eq (validator_flagSchema _ _) adminInput).trans rfl

/-- Every endpoint with a request body comes from a binding of the run. As long as a binding of it
stands, it publishes the documentation that the registry holds under its name. -/
theorem requestBody_eq_registered {defaults : TypeDefaults} {calls : List Call} {id : String}
    {c : Controller} (hpresent : ((start defaults).run calls).controllers.get? id = some c)
    {e : Endpoint} (he : e ∈ c.endpoints) {name : String}
    (hname : e.requestSchemaName = some name) :
    (∃ b : (start defaults).RequestBinding calls id, b.endpoint = e) ∧
      ∀ b : (start defaults).RequestBinding calls id, b.endpoint = e → b.Stands →
        ∃ node, e.requestBody = some node ∧
          ((start defaults).run calls).registry.documentationOf (.named name) = .ok node := by
  refine ⟨exists_requestBinding hpresent he hname, ?_⟩
  rintro b rfl hstands
  obtain ⟨schema, hschema, hheld⟩ := b.holdsRequest hstands hpresent
  obtain rfl := Option.some.inj (hschema.symm.trans hname)
  refine ⟨_, hheld.serves.published b.endpoint he rfl hname, ?_⟩
  simp [Registry.documentationOf, Registry.lookup, hheld.registered]

theorem requestBody_create_user_eq_registered :
    ((start .builtIn).run (usersCalls "import_user")).controllers.get? "u" =
        some (importer "import_user" "Users.Schemas.ImportUser") ∧
      createEndpoint ∈ (importer "import_user" "Users.Schemas.ImportUser").endpoints ∧
      createEndpoint.requestSchemaName = some "Users.Schemas.CreateUser" ∧
      ∃ node, createEndpoint.requestBody = some node ∧
        ((start .builtIn).run (usersCalls "import_user")).registry.documentationOf
          (.named "Users.Schemas.CreateUser") = .ok node := by
  have hpresent : ((start .builtIn).run (usersCalls "import_user")).controllers.get? "u" =
      some (importer "import_user" "Users.Schemas.ImportUser") := by
    rw [run_import_user]
    rfl
  have hheld : createEndpoint ∈ (importer "import_user" "Users.Schemas.ImportUser").endpoints :=
    List.mem_cons_self
  have hname : createEndpoint.requestSchemaName = some "Users.Schemas.CreateUser" := rfl
  exact ⟨hpresent, hheld, hname, (requestBody_eq_registered hpresent hheld hname).2
    (firstBinding "import_user") rfl firstBinding_stands⟩

/-- The endpoint of the first request body still publishes the first body, under a name for which
the registry holds the second. -/
theorem requestBody_ne_registered :
    ∃ c e node, ((start .builtIn).run (usersCalls "create-user")).controllers.get? "u" = some c ∧
      e ∈ c.endpoints ∧ e.requestSchemaName = some "Users.Schemas.CreateUser" ∧
      ((start .builtIn).run (usersCalls "create-user")).registry.documentationOf
        (.named "Users.Schemas.CreateUser") = .ok node ∧
      e.requestBody ≠ some node := by
  rw [run_create_user_again]
  refine ⟨importer "create-user" "Users.Schemas.CreateUser", createEndpoint, _, rfl,
    List.mem_cons_self, rfl, rfl, fun heq => ?_⟩
  have hnames := congrArg
    (Option.map fun v : Value => Record.names (v.member "properties").ownEntries) heq
  revert hnames
  decide

end Session

end FieldSchema
