import Mathlib
import FieldSchema.Proofs.History

/-!
# Failed bindings

Binding an action with a request body resolves references, compiles the body into the registry,
builds its validator and holds the endpoint, in this order. A binding that fails never changes the
controller. It changes the registry in one way only: when the body was compiled to a schema from
which no validator can be built, the registry holds that schema from then on.
-/

namespace FieldSchema

/-- A request body as a binding declares it. -/
structure RequestBody where
  name : String
  settings : ActionSettings
  declarations : Value

/-- The request body of a binding, if it has one. -/
def Binding.body? : Binding → Option RequestBody
  | .create name settings declarations => some ⟨name, settings, declarations⟩
  | .update name settings declarations => some ⟨name, settings, declarations⟩
  | .custom name _ settings declarations => some ⟨name, settings, declarations⟩
  | .customAction _ _ => none
  | .index _ => none
  | .showMember _ => none
  | .delete _ => none

namespace Controller

/-- The request body of a binding compiles to a schema, and then no validator can be built from
it. -/
def Strands (c : Controller) (r : Registry) (binding : Binding) (s : Schema) : Prop :=
  ∃ body schemas failure, binding.body? = some body ∧
    c.actionSchemas r body.settings true = .ok schemas ∧
    (r.compile (c.requestSchemaName body.name) body.declarations body.settings.overrides).outcome =
      .ok s ∧
    s.descriptor.validator = .error failure

theorem not_strands_of_no_body {c : Controller} {r : Registry} {binding : Binding}
    (hbody : binding.body? = none) (s : Schema) : ¬c.Strands r binding s := by
  rintro ⟨body, _, _, hsome, _⟩
  exact absurd (hbody.symm.trans hsome) (by simp)

theorem strands_iff_of_body {c : Controller} {r : Registry} {binding : Binding}
    {body : RequestBody} (hbody : binding.body? = some body) (s : Schema) :
    c.Strands r binding s ↔
      (∃ schemas, c.actionSchemas r body.settings true = .ok schemas) ∧
        (r.compile (c.requestSchemaName body.name) body.declarations
          body.settings.overrides).outcome = .ok s ∧
        ∃ failure, s.descriptor.validator = .error failure := by
  constructor
  · rintro ⟨other, schemas, failure, hother, hschemas, houtcome, hvalidator⟩
    obtain rfl := Option.some.inj (hbody.symm.trans hother)
    exact ⟨⟨schemas, hschemas⟩, houtcome, failure, hvalidator⟩
  · rintro ⟨⟨schemas, hschemas⟩, houtcome, failure, hvalidator⟩
    exact ⟨body, schemas, failure, hbody, hschemas, houtcome, hvalidator⟩

/-! ## One binding -/

theorem bindPlain_error_state {c : Controller} {r : Registry} {action : String}
    {settings : ActionSettings} {callbacks : Bool} {failure : Failure}
    (h : (c.bindPlain r action settings callbacks).outcome = .error failure) :
    (c.bindPlain r action settings callbacks).state = c := by
  unfold bindPlain at h ⊢
  split at h
  next => rfl
  next => cases h

/-- A binding without a request body that fails changes nothing. -/
theorem bind_error_state_of_no_body {c : Controller} {r : Registry} {binding : Binding}
    {failure : Failure} (hbody : binding.body? = none)
    (h : (c.bind r binding).outcome = .error failure) : (c.bind r binding).state = (r, c) := by
  cases binding with
  | create name settings declarations => cases hbody
  | update name settings declarations => cases hbody
  | custom name action settings declarations => cases hbody
  | customAction action settings => exact congrArg (r, ·) (bindPlain_error_state h)
  | index settings => exact congrArg (r, ·) (bindPlain_error_state h)
  | showMember settings => exact congrArg (r, ·) (bindPlain_error_state h)
  | delete settings => exact congrArg (r, ·) (bindPlain_error_state h)

theorem bind_of_body {binding : Binding} {body : RequestBody} (hbody : binding.body? = some body) :
    ∃ action, ∀ (c : Controller) (r : Registry),
      c.bind r binding = c.bindRequest r body.name action body.settings body.declarations := by
  cases binding with
  | create name settings declarations =>
      cases hbody
      exact ⟨"create", fun _ _ => rfl⟩
  | update name settings declarations =>
      cases hbody
      exact ⟨"update", fun _ _ => rfl⟩
  | custom name action settings declarations =>
      cases hbody
      exact ⟨action, fun _ _ => rfl⟩
  | customAction action settings => cases hbody
  | index settings => cases hbody
  | showMember settings => cases hbody
  | delete settings => cases hbody

/-- What binding a request body can do: a reference is not found, the body does not compile, no
validator can be built, or the endpoint is held. -/
theorem bindRequest_cases (c : Controller) (r : Registry) (name action : String)
    (settings : ActionSettings) (raw : Value) :
    (∃ failure, c.actionSchemas r settings true = .error failure ∧
      c.bindRequest r name action settings raw =
        { outcome := .error failure, state := (r, c) }) ∨
    (∃ schemas compiled, c.actionSchemas r settings true = .ok schemas ∧
      r.compile (c.requestSchemaName name) raw settings.overrides = compiled ∧
      ((∃ failure, compiled.outcome = .error failure ∧
        c.bindRequest r name action settings raw =
          { outcome := .error failure
            state := (compiled.state, c)
            notices := compiled.notices }) ∨
      (∃ s failure, compiled.outcome = .ok s ∧ s.descriptor.validator = .error failure ∧
        c.bindRequest r name action settings raw =
          { outcome := .error failure
            state := (compiled.state, c)
            notices := compiled.notices }) ∨
      (∃ s validator, compiled.outcome = .ok s ∧ s.descriptor.validator = .ok validator ∧
        c.bindRequest r name action settings raw =
          { outcome := .ok (c.endpoint action settings schemas (some s))
            state := (compiled.state,
              { c with validators := c.validators.put name validator }.hold
                (c.endpoint action settings schemas (some s)))
            notices := compiled.notices }))) := by
  unfold bindRequest
  cases hschemas : c.actionSchemas r settings true with
  | error failure => exact .inl ⟨failure, rfl, rfl⟩
  | ok schemas =>
      refine .inr ⟨schemas, _, rfl, rfl, ?_⟩
      dsimp only
      generalize r.compile (c.requestSchemaName name) raw settings.overrides = compiled
      cases compiled.outcome with
      | error failure => exact .inl ⟨failure, rfl, rfl⟩
      | ok s =>
          right
          cases hvalidator : s.descriptor.validator with
          | error failure => exact .inl ⟨s, failure, rfl, hvalidator, by simp only [hvalidator]⟩
          | ok validator => exact .inr ⟨s, validator, rfl, hvalidator, by simp only [hvalidator]⟩

end Controller

/-! ## What a failed binding changes -/

/-- Holding the schema that is already held under its name changes no answer. -/
theorem Registry.hold_sameAnswers_iff {r : Registry} (hr : r.IsSettled) (name : String)
    (s : Schema) :
    r.SameAnswers ((r.mark name .compiling).hold name s) ↔ r.get? name = some s := by
  constructor
  · intro h
    rw [← h.entries name, get?_hold, if_pos rfl]
  · intro h
    have hstate : r.stateOf name = some .compiled := (hr.compiled_iff name).mpr (by simp [h])
    have hheld : r.schemas.get? name = some s := h
    have hmem : name ∈ r.names := (NameTable.isSome_get?_iff r.schemas name).mp (by simp [hheld])
    refine ⟨?_, fun other => ?_, fun other => ?_, rfl⟩
    · exact (names_hold (r.mark name .compiling) name s).trans (if_pos hmem)
    · rw [get?_hold, get?_mark]
      by_cases heq : other = name <;> simp [heq, h]
    · rw [stateOf_hold, stateOf_mark]
      by_cases heq : other = name <;> simp [heq, hstate]

/-- A binding that fails leaves the controller as it was. It leaves the registry's answers as they
were exactly when it strands no schema that the registry did not hold already. -/
theorem Controller.bind_error_iff {r : Registry} (hr : r.IsSettled) {c : Controller}
    {binding : Binding} {failure : Failure} (h : (c.bind r binding).outcome = .error failure) :
    (c.bind r binding).state.2 = c ∧
      (r.SameAnswers (c.bind r binding).state.1 ↔
        ∀ s, c.Strands r binding s → r.get? s.name = some s) := by
  cases hbody : binding.body? with
  | none =>
      rw [bind_error_state_of_no_body hbody h]
      exact ⟨rfl, fun _ s hs => absurd hs (not_strands_of_no_body hbody s),
        fun _ => Registry.SameAnswers.refl r⟩
  | some body =>
      obtain ⟨action, hbind⟩ := bind_of_body hbody
      rw [hbind] at h ⊢
      simp only [strands_iff_of_body hbody]
      -- each way to fail leaves another registry behind
      rcases c.bindRequest_cases r body.name action body.settings body.declarations with
        ⟨_, hschemas, hrequest⟩ | ⟨schemas, compiled, hschemas, hcompiled, hcases⟩
      · rw [hrequest]
        refine ⟨rfl, fun _ s hs => ?_, fun _ => Registry.SameAnswers.refl r⟩
        obtain ⟨⟨schemas, hok⟩, _⟩ := hs
        exact absurd (hschemas.symm.trans hok) (by simp)
      · subst hcompiled
        rcases hcases with ⟨_, houtcome, hrequest⟩ | ⟨s, reason, houtcome, hvalidator, hrequest⟩ |
          ⟨_, _, _, _, hrequest⟩
        · rw [hrequest]
          refine ⟨rfl, fun _ s hs => ?_, fun _ => Registry.compile_error_sameAnswers houtcome⟩
          exact absurd (houtcome.symm.trans hs.2.1) (by simp)
        · obtain ⟨hstate, _, hcompile⟩ := Registry.compile_ok_state houtcome
          rw [hrequest]
          refine ⟨rfl, ?_⟩
          dsimp only
          -- the schema was held before its validator could not be built
          have hname : s.name = c.requestSchemaName body.name := Schema.compile_name hcompile
          rw [hstate, Registry.hold_sameAnswers_iff hr]
          constructor
          · rintro hheld t ⟨_, hok, _⟩
            obtain rfl := Except.ok.inj (houtcome.symm.trans hok)
            rw [hname]
            exact hheld
          · intro hall
            rw [← hname]
            exact hall s ⟨⟨schemas, hschemas⟩, houtcome, reason, hvalidator⟩
        · rw [hrequest] at h
          cases h

namespace Session

/-- In every state that a run reaches, a binding that fails leaves validators and endpoints as they
were, and it leaves the names, schemas and states of the registry as they were exactly when every
schema that it strands was held before. -/
theorem failed_bind_keeps_iff (defaults : TypeDefaults) (calls : List Call) (c : Controller)
    (binding : Binding) {failure : Failure}
    (h : (c.bind ((start defaults).run calls).registry binding).outcome = .error failure) :
    (c.bind ((start defaults).run calls).registry binding).state.2 = c ∧
      (((start defaults).run calls).registry.SameAnswers
          (c.bind ((start defaults).run calls).registry binding).state.1 ↔
        ∀ s, c.Strands ((start defaults).run calls).registry binding s →
          ((start defaults).run calls).registry.get? s.name = some s) :=
  Controller.bind_error_iff (run_isSettled defaults calls) h

/-- A controller without bindings. -/
def users : Controller where
  settings := { name := "Users", basePath := "/users" }

/-- A request body with one field, whose pattern is not well formed. -/
def brokenBody : Binding :=
  .create "create_user" {}
    (.list [.list [.text "required", .text "code", .text "string",
      .object false [("pattern", .text "(")]]])

/-- On an empty registry the broken body fails for its pattern, and the statement above applies. -/
theorem failed_bind_brokenBody_keeps_iff :
    (users.bind ((start .builtIn).run []).registry brokenBody).outcome = .error .badPattern ∧
      (users.bind ((start .builtIn).run []).registry brokenBody).state.2 = users ∧
      (((start .builtIn).run []).registry.SameAnswers
          (users.bind ((start .builtIn).run []).registry brokenBody).state.1 ↔
        ∀ s, users.Strands ((start .builtIn).run []).registry brokenBody s →
          ((start .builtIn).run []).registry.get? s.name = some s) := by
  have hfails : (users.bind ((start .builtIn).run []).registry brokenBody).outcome =
      .error .badPattern := by cbv
  exact ⟨hfails, failed_bind_keeps_iff .builtIn [] users brokenBody hfails⟩

/-- The broken body fails and yet leaves its schema in the registry. -/
theorem failed_bind_brokenBody_adds_name :
    (users.bind ((start .builtIn).run []).registry brokenBody).outcome = .error .badPattern ∧
      ((start .builtIn).run []).registry.names = [] ∧
      (users.bind ((start .builtIn).run []).registry brokenBody).state.1.names =
        ["Users.Schemas.CreateUser"] := by
  refine ⟨by cbv, rfl, by cbv⟩

end Session

end FieldSchema
