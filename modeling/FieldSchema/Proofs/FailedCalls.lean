import FieldSchema.Proofs.Agreement

/-!
# Failed calls

Sessions are alike when their registries give the same answers and compile with the same type
defaults, and their controllers are the same. No call tells them apart, so that they stay alike
whatever is called. Announcing or compiling that fails leaves a session like the one before, and the
rest of the run goes on as if the call had not been made.
-/

namespace FieldSchema

/-- Two steps end alike: with the same outcome and the same notices, and in related states. -/
structure Step.Corresponds {σ α : Type} (related : σ → σ → Prop) (step other : Step σ α) :
    Prop where
  outcome : other.outcome = step.outcome
  notices : other.notices = step.notices
  state : related step.state other.state

namespace Registry

theorem SameAnswers.symm {r other : Registry} (h : r.SameAnswers other) : other.SameAnswers r :=
  ⟨h.names.symm, fun name => (h.entries name).symm, fun name => (h.states name).symm, h.frozen.symm⟩

theorem SameAnswers.trans {r other third : Registry} (h : r.SameAnswers other)
    (h' : other.SameAnswers third) : r.SameAnswers third :=
  ⟨h'.names.trans h.names, fun name => (h'.entries name).trans (h.entries name),
    fun name => (h'.states name).trans (h.states name), h'.frozen.trans h.frozen⟩

/-- Two registries answer alike and compile with the same type defaults. -/
structure Alike (r other : Registry) : Prop extends r.SameAnswers other where
  typeDefaults : other.typeDefaults = r.typeDefaults

theorem Alike.refl (r : Registry) : r.Alike r := ⟨SameAnswers.refl r, rfl⟩

theorem typeDefaults_restore (r : Registry) (name : String) (earlier : Option SchemaState) :
    (r.restore name earlier).typeDefaults = r.typeDefaults := by
  cases earlier <;> rfl

theorem typeDefaults_compile (r : Registry) (name : String) (raw : Value)
    (overrides : Record Value) :
    (r.compile name raw overrides).state.typeDefaults = r.typeDefaults := by
  rcases r.compile_cases name raw overrides with
    ⟨_, hstate, _⟩ | ⟨_, _, _, _, hstate⟩ | ⟨_, _, _, _, _, hstate⟩ <;> rw [hstate]
  · exact typeDefaults_restore _ name _
  · rfl

theorem compile_error_alike {r : Registry} {name : String} {raw : Value}
    {overrides : Record Value} {failure : Failure}
    (h : (r.compile name raw overrides).outcome = .error failure) :
    r.Alike (r.compile name raw overrides).state :=
  ⟨compile_error_sameAnswers h, r.typeDefaults_compile name raw overrides⟩

theorem declare_error_state {r : Registry} {name : String} {failure : Failure}
    (h : (r.declare name).outcome = .error failure) : (r.declare name).state = r := by
  unfold declare at h ⊢
  split
  next => rfl
  next hopen => simp [hopen] at h

/-- The outcome and the notices of a compilation depend on what the registry holds, on its type
defaults and on whether it is frozen, and on none of its states. -/
theorem compile_reply_congr {r other : Registry} (hentries : ∀ name, other.get? name = r.get? name)
    (hfrozen : other.frozen = r.frozen) (hdefaults : other.typeDefaults = r.typeDefaults)
    (name : String) (raw : Value) (overrides : Record Value) :
    (other.compile name raw overrides).outcome = (r.compile name raw overrides).outcome ∧
      (other.compile name raw overrides).notices = (r.compile name raw overrides).notices := by
  have hlookup : (other.mark name .compiling).embeddable name =
      (r.mark name .compiling).embeddable name := by
    funext reference
    simp only [embeddable, get?_mark, hentries]
  have hhas : (other.mark name .compiling).has name = (r.mark name .compiling).has name := by
    simp only [has, get?_mark, hentries]
  simp only [Registry.compile, hfrozen, hdefaults, hlookup, hhas]
  split
  next => exact ⟨rfl, rfl⟩
  next => split <;> exact ⟨rfl, rfl⟩

namespace Alike

variable {r other : Registry}

theorem mark (h : r.Alike other) (name : String) (state : SchemaState) :
    (r.mark name state).Alike (other.mark name state) where
  names := h.names
  entries := h.entries
  states name := by rw [stateOf_mark, stateOf_mark, h.states]
  frozen := h.frozen
  typeDefaults := h.typeDefaults

theorem hold (h : r.Alike other) (name : String) (s : Schema) :
    (r.hold name s).Alike (other.hold name s) where
  names := by rw [names_hold, names_hold, h.names]
  entries name := by rw [get?_hold, get?_hold, h.entries]
  states name := by rw [stateOf_hold, stateOf_hold, h.states]
  frozen := h.frozen
  typeDefaults := h.typeDefaults

/-- No compilation tells registries apart that are alike. -/
theorem compile (h : r.Alike other) (name : String) (raw : Value) (overrides : Record Value) :
    (r.compile name raw overrides).Corresponds Alike (other.compile name raw overrides) := by
  have hresult := compile_reply_congr h.entries h.frozen h.typeDefaults name raw overrides
  refine ⟨hresult.1, hresult.2, ?_⟩
  cases houtcome : (r.compile name raw overrides).outcome with
  | error failure =>
      -- both are left as they were
      have hsame := (compile_error_sameAnswers houtcome).symm.trans h.toSameAnswers
      refine ⟨hsame.trans (compile_error_sameAnswers (hresult.1.trans houtcome)), ?_⟩
      rw [typeDefaults_compile, typeDefaults_compile, h.typeDefaults]
  | ok s =>
      rw [(compile_ok_state houtcome).1, (compile_ok_state (hresult.1.trans houtcome)).1]
      exact (h.mark name .compiling).hold name s

theorem declare (h : r.Alike other) (name : String) :
    (r.declare name).Corresponds Alike (other.declare name) := by
  simp only [Registry.declare, h.frozen, h.states]
  split
  next => exact ⟨rfl, rfl, h⟩
  next =>
    refine ⟨rfl, rfl, ?_⟩
    dsimp only
    split
    next => exact h
    next => exact h.mark name .declared

theorem freeze (h : r.Alike other) : r.freeze.Alike other.freeze :=
  { h with frozen := rfl }

theorem lookup (h : r.Alike other) : other.lookup = r.lookup := by
  funext name
  simp only [Registry.lookup, h.entries]

theorem documentationOf (h : r.Alike other) : other.documentationOf = r.documentationOf := by
  funext reference
  simp only [Registry.documentationOf, h.lookup]

theorem nameOf (h : r.Alike other) : other.nameOf = r.nameOf := by
  funext reference
  simp only [Registry.nameOf, h.lookup]

end Alike

end Registry

/-! ## Bindings -/

namespace Controller

variable {r other : Registry}

theorem actionSchemas_alike (h : r.Alike other) (c : Controller) (settings : ActionSettings)
    (callbacks : Bool) :
    c.actionSchemas other settings callbacks = c.actionSchemas r settings callbacks := by
  simp only [actionSchemas, responseNodes, callbackNodes, callbackName?, h.documentationOf,
    h.nameOf]

/-- Registries that are alike, each with the same controller. -/
def Alike (held other : Registry × Controller) : Prop :=
  held.1.Alike other.1 ∧ other.2 = held.2

theorem bindPlain_alike (h : r.Alike other) (c : Controller) (action : String)
    (settings : ActionSettings) (callbacks : Bool) :
    (bind.plain c r action settings callbacks).Corresponds Alike
      (bind.plain c other action settings callbacks) := by
  have hplain : c.bindPlain other action settings callbacks =
      c.bindPlain r action settings callbacks := by
    simp only [bindPlain, actionSchemas_alike h]
  simp only [bind.plain, hplain]
  exact ⟨rfl, rfl, h, rfl⟩

theorem bindRequest_alike (h : r.Alike other) (c : Controller) (name action : String)
    (settings : ActionSettings) (raw : Value) :
    (c.bindRequest r name action settings raw).Corresponds Alike
      (c.bindRequest other name action settings raw) := by
  simp only [bindRequest, actionSchemas_alike h]
  split
  next => exact ⟨rfl, rfl, h, rfl⟩
  next =>
    obtain ⟨houtcome, hnotices, hstate⟩ :=
      h.compile (c.requestSchemaName name) raw settings.overrides
    simp only [houtcome, hnotices]
    split
    next => exact ⟨rfl, rfl, hstate, rfl⟩
    next => split <;> exact ⟨rfl, rfl, hstate, rfl⟩

theorem bind_alike (h : r.Alike other) (c : Controller) (binding : Binding) :
    (c.bind r binding).Corresponds Alike (c.bind other binding) := by
  cases binding with
  | create name settings raw => exact bindRequest_alike h c name "create" settings raw
  | update name settings raw => exact bindRequest_alike h c name "update" settings raw
  | custom name action settings raw => exact bindRequest_alike h c name action settings raw
  | customAction action settings => exact bindPlain_alike h c action settings true
  | index settings => exact bindPlain_alike h c "index" settings false
  | showMember settings => exact bindPlain_alike h c "show" settings false
  | delete settings => exact bindPlain_alike h c "delete" settings true

end Controller

/-! ## Runs -/

namespace Session

/-- Two sessions whose registries are alike and whose controllers are the same. -/
structure Alike (s other : Session) : Prop where
  registry : s.registry.Alike other.registry
  controllers : other.controllers = s.controllers

namespace Alike

variable {s other : Session}

/-- No call tells sessions apart that are alike. -/
theorem step (h : s.Alike other) (call : Call) :
    (s.step call).Corresponds Alike (other.step call) := by
  cases call with
  | declare name =>
      obtain ⟨houtcome, hnotices, hstate⟩ := h.registry.declare name
      simp only [Session.step, houtcome, hnotices]
      exact ⟨rfl, rfl, hstate, h.controllers⟩
  | compile name raw overrides =>
      obtain ⟨houtcome, hnotices, hstate⟩ := h.registry.compile name raw overrides
      simp only [Session.step, houtcome, hnotices]
      exact ⟨rfl, rfl, hstate, h.controllers⟩
  | freeze => exact ⟨rfl, rfl, h.registry.freeze, h.controllers⟩
  | begin controller settings =>
      refine ⟨rfl, rfl, h.registry, ?_⟩
      simp only [Session.step, h.controllers]
  | bind controller binding =>
      simp only [Session.step, h.controllers]
      split
      next => exact ⟨rfl, rfl, h⟩
      next c _ =>
        obtain ⟨houtcome, hnotices, hregistry, hcontroller⟩ :=
          Controller.bind_alike h.registry c binding
        simp only [houtcome, hnotices, hcontroller]
        exact ⟨rfl, rfl, hregistry, rfl⟩

theorem run (h : s.Alike other) (calls : List Call) : (s.run calls).Alike (other.run calls) := by
  induction calls generalizing s other with
  | nil => exact h
  | cons call rest ih => exact ih (h.step call).state

end Alike

/-- Announcing or compiling that fails leaves a session that is like the one before. -/
theorem step_error_alike {s : Session} {call : Call} {failure : Failure}
    (hcall : ∀ controller binding, call ≠ .bind controller binding)
    (h : (s.step call).outcome = .error failure) : s.Alike (s.step call).state := by
  cases call with
  | declare name =>
      have hfailed : (s.registry.declare name).outcome = .error failure := by
        simp only [step] at h
        cases houtcome : (s.registry.declare name).outcome <;>
          simp_all [Except.map]
      simp only [step, Registry.declare_error_state hfailed]
      exact ⟨Registry.Alike.refl _, rfl⟩
  | compile name raw overrides =>
      have hfailed : (s.registry.compile name raw overrides).outcome = .error failure := by
        simp only [step] at h
        cases houtcome : (s.registry.compile name raw overrides).outcome <;>
          simp_all [Except.map]
      exact ⟨Registry.compile_error_alike hfailed, rfl⟩
  | freeze => cases h
  | begin controller settings => cases h
  | bind controller binding => exact absurd rfl (hcall controller binding)

/-- A call that announces or compiles and fails, for whatever reason, changes no answer of the
registry. Whatever is called afterwards, the run goes on as if the call had not been made: the
answers stay the same, and so do the outcome and the notices of every further call. -/
theorem failed_call_leaves_no_trace {s : Session} {call : Call} {failure : Failure}
    (hcall : ∀ controller binding, call ≠ .bind controller binding)
    (h : (s.step call).outcome = .error failure) :
    s.registry.SameAnswers (s.step call).state.registry ∧
      ∀ later, (s.run later).Alike ((s.step call).state.run later) ∧
        ∀ next, ((s.run later).step next).Corresponds Alike
          (((s.step call).state.run later).step next) := by
  have halike := step_error_alike hcall h
  refine ⟨halike.registry.toSameAnswers, fun later => ?_⟩
  have hlater := halike.run later
  exact ⟨hlater, hlater.step⟩

/-- The session that the address book leaves behind. -/
def addressed : Session := (start .builtIn).run addressBook

/-- Declarations that refer, inside a block, to a schema which is not compiled. -/
def ownedAddress : Value :=
  .list [.list [.text "required", .text "deed", .text "object",
    .object false [("fields",
      .list [.list [.text "embeds_one", .text "owner", .text "Nobody"]])]]]

/-- Compiling addresses anew fails inside the block, after their name has been marked, and the
statement above applies to the run that goes on. -/
theorem failed_address_leaves_no_trace :
    (addressed.step (.compile "Address" ownedAddress [])).outcome =
        .error (.defect (.unknownReference "Nobody" (some "deed.owner"))) ∧
      addressed.registry.SameAnswers
        (addressed.step (.compile "Address" ownedAddress [])).state.registry ∧
      ∀ later, (addressed.run later).Alike
          ((addressed.step (.compile "Address" ownedAddress [])).state.run later) ∧
        ∀ next, ((addressed.run later).step next).Corresponds Alike
          (((addressed.step (.compile "Address" ownedAddress [])).state.run later).step next) := by
  have hfails : (addressed.step (.compile "Address" ownedAddress [])).outcome =
      .error (.defect (.unknownReference "Nobody" (some "deed.owner"))) := by rfl
  exact ⟨hfails, failed_call_leaves_no_trace (by simp) hfails⟩

end Session

end FieldSchema
