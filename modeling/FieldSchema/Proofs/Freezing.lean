import FieldSchema.Proofs.RequestBodies

/-!
# Freezing

A frozen registry stays as it is: announcing and compiling are refused, and a binding with a request
body fails at the latest when its body is to be compiled, before the controller has changed. So
nothing that is called after freezing changes an answer of the registry.
-/

namespace FieldSchema

namespace Registry

variable {r : Registry}

theorem declare_of_frozen (h : r.frozen = true) (name : String) :
    r.declare name = { outcome := .error (.defect (.registryFrozen name)), state := r } :=
  if_pos h

theorem compile_of_frozen (h : r.frozen = true) (name : String) (raw : Value)
    (overrides : Record Value) :
    r.compile name raw overrides =
      { outcome := .error (.defect (.registryFrozen name)), state := r } :=
  if_pos h

theorem freeze_of_frozen (h : r.frozen = true) : r.freeze = r := by
  cases r
  simp_all [freeze]

/-- Two registries give the same answer to every question, however a schema is referred to. -/
structure AnswersLike (r other : Registry) : Prop where
  names : other.names = r.names
  has : ∀ name, other.has name = r.has name
  entries : ∀ name, other.get? name = r.get? name
  states : ∀ name, other.stateOf name = r.stateOf name
  documentation : ∀ reference, other.documentationOf reference = r.documentationOf reference
  descriptors : ∀ reference, other.descriptorOf reference = r.descriptorOf reference

theorem freeze_answersLike (r : Registry) : r.AnswersLike r.freeze :=
  ⟨rfl, fun _ => rfl, fun _ => rfl, fun _ => rfl, fun _ => rfl, fun _ => rfl⟩

end Registry

namespace Controller

variable {r : Registry}

/-- Over a frozen registry a request body is refused once the schemas of its action have been
found. Neither the registry nor the controller changes. -/
theorem bindRequest_of_frozen (h : r.frozen = true) (c : Controller) (name action : String)
    (settings : ActionSettings) (raw : Value) :
    c.bindRequest r name action settings raw =
      { outcome := c.actionSchemas r settings true >>= fun _ =>
          .error (.defect (.registryFrozen (c.requestSchemaName name)))
        state := (r, c) } := by
  unfold bindRequest
  rw [Registry.compile_of_frozen h]
  cases c.actionSchemas r settings true with
  | error failure => rfl
  | ok schemas => rfl

theorem bind_of_frozen (h : r.frozen = true) (c : Controller) {binding : Binding}
    {body : RequestBody} (hbody : binding.body? = some body) :
    ∃ failure, c.bind r binding = { outcome := .error failure, state := (r, c) } := by
  obtain ⟨action, hbind⟩ := bind_of_body hbody
  rw [hbind, bindRequest_of_frozen h]
  cases c.actionSchemas r body.settings true with
  | error failure => exact ⟨failure, rfl⟩
  | ok schemas => exact ⟨_, rfl⟩

end Controller

namespace Session

theorem run_registry_of_frozen {s : Session} (h : s.registry.frozen = true) (calls : List Call) :
    (s.run calls).registry = s.registry := by
  apply run_registry_invariant (P := fun r => r = s.registry)
  · rintro r name rfl
    rw [Registry.declare_of_frozen h]
  · rintro r name raw overrides rfl
    rw [Registry.compile_of_frozen h]
  · rintro r rfl
    exact Registry.freeze_of_frozen h
  · rfl

/-- A call that binds a request body over a frozen registry fails and leaves every controller as it
was, whichever controller it is for. -/
theorem step_bind_of_frozen {s : Session} (h : s.registry.frozen = true) (id : String)
    {binding : Binding} (hbody : binding.body?.isSome = true) :
    (∃ failure, (s.step (.bind id binding)).outcome = .error failure) ∧
      ∀ other, (s.step (.bind id binding)).state.controllers.get? other =
        s.controllers.get? other := by
  obtain ⟨body, hbody⟩ := Option.isSome_iff_exists.mp hbody
  cases hpresent : s.controllers.get? id with
  | none =>
      rw [step_bind_of_none hpresent]
      refine ⟨⟨.noMembers, ?_⟩, fun _ => rfl⟩
      simp [step, hpresent]
  | some c =>
      obtain ⟨failure, hfails⟩ := Controller.bind_of_frozen h c hbody
      obtain ⟨houtcome, hstate⟩ := step_bind hpresent binding
      rw [houtcome, hstate, hfails]
      refine ⟨⟨failure, rfl⟩, ?_⟩
      intro other
      refine (NameTable.get?_put s.controllers id other c).trans ?_
      split
      next heq => rw [heq, hpresent]
      next => rfl

/-- Freezing is final. Whatever is called after a registry has been frozen, it answers every
question as it did before; announcing and compiling are refused, for any name; and binding a request
body fails and leaves all controllers with their endpoints and validators. -/
theorem freeze_is_final (s : Session) (later : List Call) :
    (s.run (.freeze :: later)).registry.frozen = true ∧
    s.registry.AnswersLike (s.run (.freeze :: later)).registry ∧
    (∀ name, ((s.run (.freeze :: later)).step (.declare name)).outcome =
      .error (.defect (.registryFrozen name))) ∧
    (∀ name raw overrides, ((s.run (.freeze :: later)).step (.compile name raw overrides)).outcome =
      .error (.defect (.registryFrozen name))) ∧
    ∀ id binding, binding.body?.isSome = true →
      (∃ failure, ((s.run (.freeze :: later)).step (.bind id binding)).outcome = .error failure) ∧
      ∀ other, ((s.run (.freeze :: later)).step (.bind id binding)).state.controllers.get? other =
        (s.run (.freeze :: later)).controllers.get? other := by
  have hregistry : (s.run (.freeze :: later)).registry = s.registry.freeze :=
    run_registry_of_frozen (s := (s.step .freeze).state) rfl later
  have hfrozen : (s.run (.freeze :: later)).registry.frozen = true := by
    rw [hregistry]
    rfl
  refine ⟨hfrozen, ?_, ?_, ?_, ?_⟩
  · rw [hregistry]
    exact s.registry.freeze_answersLike
  · intro name
    simp only [step, Registry.declare_of_frozen hfrozen]
    rfl
  · intro name raw overrides
    simp only [step, Registry.compile_of_frozen hfrozen]
    rfl
  · intro id binding hbody
    exact step_bind_of_frozen hfrozen id hbody

/-- After one user body was bound and the registry frozen, an index can still be bound, but the body
cannot be bound again. -/
theorem created_freeze_is_final :
    ((created.run [.freeze, .bind "u" (.index {})]).step (.bind "u" createUser)).outcome =
        .error (.defect (.registryFrozen "Users.Schemas.CreateUser")) ∧
      ∀ other,
        ((created.run [.freeze, .bind "u" (.index {})]).step
            (.bind "u" createUser)).state.controllers.get? other =
          (created.run [.freeze, .bind "u" (.index {})]).controllers.get? other := by
  obtain ⟨_, _, _, _, hbind⟩ := freeze_is_final created [.bind "u" (.index {})]
  exact ⟨rfl, (hbind "u" createUser rfl).2⟩

end Session

end FieldSchema
