import FieldSchema.Session

/-!
# Histories of registries and sessions

What a registry answers is its names, its schemas and its states. A compilation that fails leaves
every answer as it was; one that succeeds changes the answers for its name alone. Along every run of
a session a name is held exactly when its state says so, and every schema that is held was compiled
from declarations that could embed compiled schemas only.
-/

namespace FieldSchema

/-- A schema that some compilation returned, where every schema that it could embed was compiled
too. -/
inductive Schema.IsCompiled : Schema → Prop where
  | intro {name : String} {raw : Value} {around : Surroundings} {s : Schema}
      {notices : List Notice}
      (embeddable : ∀ reference target, around.lookup reference = some target → target.IsCompiled)
      (compiled : Schema.compile name raw around = .ok (s, notices)) : s.IsCompiled

/-- A property that every compilation gives its schema, once all embeddable schemas have it, is a
property of all compiled schemas. -/
theorem Schema.IsCompiled.of_compile {P : Schema → Prop}
    (hcompile : ∀ name raw around s notices,
      (∀ reference target, around.lookup reference = some target → P target) →
      Schema.compile name raw around = .ok (s, notices) → P s)
    {s : Schema} (h : s.IsCompiled) : P s := by
  induction h with
  | intro _ hcompiled ih => exact hcompile _ _ _ _ _ ih hcompiled

theorem Schema.compile_name {name : String} {raw : Value} {around : Surroundings} {s : Schema}
    {notices : List Notice} (h : Schema.compile name raw around = .ok (s, notices)) :
    s.name = name := by
  obtain ⟨declared, fields, _, _, rfl, -⟩ := Schema.compile_eq_ok.mp h
  rfl

namespace Registry

/-- Two registries answer every question alike. -/
structure SameAnswers (r other : Registry) : Prop where
  names : other.names = r.names
  entries : ∀ name, other.get? name = r.get? name
  states : ∀ name, other.stateOf name = r.stateOf name
  frozen : other.frozen = r.frozen

theorem SameAnswers.refl (r : Registry) : r.SameAnswers r :=
  ⟨rfl, fun _ => rfl, fun _ => rfl, rfl⟩

/-! ## One compilation -/

/-- The surroundings in which a registry compiles declarations under a name. -/
def surroundings (r : Registry) (name : String) (overrides : Record Value) : Surroundings :=
  ⟨(r.mark name .compiling).embeddable name, r.typeDefaults, overrides⟩

theorem stateOf_mark (r : Registry) (name other : String) (state : SchemaState) :
    (r.mark name state).stateOf other = if other = name then some state else r.stateOf other :=
  NameTable.get?_put r.states name other state

@[simp] theorem get?_mark (r : Registry) (name other : String) (state : SchemaState) :
    (r.mark name state).get? other = r.get? other := rfl

/-- A mark that is taken back leaves no trace in any state. -/
theorem stateOf_restore_mark (r : Registry) (name other : String) (state : SchemaState) :
    ((r.mark name state).restore name (r.stateOf name)).stateOf other = r.stateOf other := by
  cases hstate : r.stateOf name with
  | none =>
      refine (NameTable.get?_remove _ name other).trans ?_
      rw [mark, NameTable.get?_put]
      by_cases heq : other = name
      · simpa [heq] using hstate.symm
      · simp only [heq, if_false]
        rfl
  | some earlier =>
      rw [restore, stateOf_mark, stateOf_mark]
      by_cases heq : other = name <;> simp [heq, hstate]

theorem restore_mark_sameAnswers (r : Registry) (name : String) (state : SchemaState) :
    r.SameAnswers ((r.mark name state).restore name (r.stateOf name)) := by
  refine ⟨?_, fun other => ?_, fun other => r.stateOf_restore_mark name other state, ?_⟩ <;>
    cases r.stateOf name <;> rfl

/-- What a compilation can do: a frozen registry refuses it, a failure takes the mark back, and a
success holds the schema. -/
theorem compile_cases (r : Registry) (name : String) (raw : Value) (overrides : Record Value) :
    (r.frozen = true ∧ (r.compile name raw overrides).state = r ∧
      (r.compile name raw overrides).outcome = .error (.defect (.registryFrozen name))) ∨
    (∃ failure, r.frozen = false ∧
      Schema.compile name raw (r.surroundings name overrides) = .error failure ∧
      (r.compile name raw overrides).outcome = .error failure ∧
      (r.compile name raw overrides).state =
        (r.mark name .compiling).restore name (r.stateOf name)) ∨
    (∃ s notices, r.frozen = false ∧
      Schema.compile name raw (r.surroundings name overrides) = .ok (s, notices) ∧
      (r.compile name raw overrides).outcome = .ok s ∧
      (r.compile name raw overrides).state = (r.mark name .compiling).hold name s) := by
  unfold compile
  by_cases hfrozen : r.frozen = true
  · exact .inl ⟨hfrozen, by simp [hfrozen], by simp [hfrozen]⟩
  · right
    rw [if_neg hfrozen]
    have hopen : r.frozen = false := by simpa using hfrozen
    dsimp only
    rw [show (⟨(r.mark name .compiling).embeddable name, r.typeDefaults, overrides⟩ :
      Surroundings) = r.surroundings name overrides from rfl]
    cases hcompile : Schema.compile name raw (r.surroundings name overrides) with
    | error failure => exact .inl ⟨failure, hopen, rfl, rfl, rfl⟩
    | ok result => exact .inr ⟨result.1, result.2, hopen, rfl, rfl, rfl⟩

/-- A compilation that fails, for whatever reason, leaves every answer as it was. -/
theorem compile_error_sameAnswers {r : Registry} {name : String} {raw : Value}
    {overrides : Record Value} {failure : Failure}
    (h : (r.compile name raw overrides).outcome = .error failure) :
    r.SameAnswers (r.compile name raw overrides).state := by
  rcases r.compile_cases name raw overrides with
    ⟨_, hstate, _⟩ | ⟨_, _, _, _, hstate⟩ | ⟨s, _, _, _, houtcome, _⟩
  · rw [hstate]
    exact SameAnswers.refl r
  · rw [hstate]
    exact r.restore_mark_sameAnswers name .compiling
  · exact absurd (houtcome.symm.trans h) (by simp)

/-- A compilation that succeeds makes its schema the answer for its name and changes no other
answer. -/
theorem compile_ok_state {r : Registry} {name : String} {raw : Value} {overrides : Record Value}
    {s : Schema} (h : (r.compile name raw overrides).outcome = .ok s) :
    (r.compile name raw overrides).state = (r.mark name .compiling).hold name s ∧
      ∃ notices, Schema.compile name raw (r.surroundings name overrides) = .ok (s, notices) := by
  rcases r.compile_cases name raw overrides with
    ⟨_, _, houtcome⟩ | ⟨_, _, _, houtcome, _⟩ | ⟨t, notices, _, hcompile, houtcome, hstate⟩
  · exact absurd (houtcome.symm.trans h) (by simp)
  · exact absurd (houtcome.symm.trans h) (by simp)
  · obtain rfl := Except.ok.inj (houtcome.symm.trans h)
    exact ⟨hstate, notices, hcompile⟩

theorem get?_hold (r : Registry) (name other : String) (s : Schema) :
    (r.hold name s).get? other = if other = name then some s else r.get? other :=
  NameTable.get?_put r.schemas name other s

theorem stateOf_hold (r : Registry) (name other : String) (s : Schema) :
    (r.hold name s).stateOf other = if other = name then some .compiled else r.stateOf other :=
  stateOf_mark { r with schemas := r.schemas.put name s } name other .compiled

theorem names_hold (r : Registry) (name : String) (s : Schema) :
    (r.hold name s).names = if name ∈ r.names then r.names else r.names ++ [name] :=
  NameTable.names_put r.schemas name s

/-! ## What registries keep -/

/-- What holds of a registry between calls: a name is held exactly when its state says so, and what
it holds under a name was compiled under that name. -/
structure IsSettled (r : Registry) : Prop where
  compiled_iff : ∀ name, r.stateOf name = some .compiled ↔ (r.get? name).isSome = true
  provenance : ∀ name s, r.get? name = some s → s.IsCompiled ∧ s.name = name

theorem IsSettled.of_sameAnswers {r other : Registry} (hr : r.IsSettled)
    (h : r.SameAnswers other) : other.IsSettled where
  compiled_iff name := by rw [h.states, h.entries, hr.compiled_iff]
  provenance name s hs := hr.provenance name s (h.entries name ▸ hs)

theorem declare_isSettled {r : Registry} (hr : r.IsSettled) (name : String) :
    (r.declare name).state.IsSettled := by
  unfold declare
  split
  · exact hr
  · dsimp only
    split
    next => exact hr
    next habsent =>
      refine ⟨fun other => ?_, fun other s hs => hr.provenance other s hs⟩
      have hiff := hr.compiled_iff other
      rw [stateOf_mark, get?_mark]
      by_cases heq : other = name
      · subst heq
        have hnone : r.stateOf other = none := by simpa using habsent
        simpa [hnone] using hiff
      · simpa [heq] using hiff

theorem compile_isSettled {r : Registry} (hr : r.IsSettled) (name : String) (raw : Value)
    (overrides : Record Value) : (r.compile name raw overrides).state.IsSettled := by
  cases houtcome : (r.compile name raw overrides).outcome with
  | error failure => exact hr.of_sameAnswers (compile_error_sameAnswers houtcome)
  | ok s =>
      obtain ⟨hstate, notices, hcompile⟩ := compile_ok_state houtcome
      rw [hstate]
      refine ⟨fun other => ?_, fun other t ht => ?_⟩
      · rw [stateOf_hold, get?_hold, stateOf_mark]
        by_cases heq : other = name
        · simp [heq]
        · simpa [heq] using hr.compiled_iff other
      · rw [get?_hold] at ht
        split at ht
        next heq =>
          -- whatever the new schema embeds was held before it
          obtain rfl := Option.some.inj ht
          refine ⟨.intro (fun reference target htarget => ?_) hcompile,
            heq ▸ Schema.compile_name hcompile⟩
          have htarget : (r.mark name .compiling).embeddable name reference = some target := htarget
          unfold embeddable at htarget
          split at htarget
          next => exact absurd htarget (by simp)
          next => exact (hr.provenance reference target htarget).1
        next => exact hr.provenance other t ht

end Registry

/-! ## Runs -/

namespace Controller

/-- Binding an action does nothing to the registry, or compiles one schema. -/
theorem bind_registry (c : Controller) (r : Registry) (binding : Binding) :
    (c.bind r binding).state.1 = r ∨
      ∃ name raw overrides,
        (c.bind r binding).state.1 = (r.compile name raw overrides).state := by
  have hrequest : ∀ name action settings raw,
      (c.bindRequest r name action settings raw).state.1 = r ∨
        (c.bindRequest r name action settings raw).state.1 =
          (r.compile (c.requestSchemaName name) raw settings.overrides).state := by
    intro name action settings raw
    unfold bindRequest
    split
    next => exact .inl rfl
    next =>
      -- what comes after compiling does not touch the registry
      right
      dsimp only
      split
      next => rfl
      next => split <;> rfl
  cases binding with
  | create name settings raw => exact (hrequest name "create" settings raw).imp_right (⟨_, _, _, ·⟩)
  | update name settings raw => exact (hrequest name "update" settings raw).imp_right (⟨_, _, _, ·⟩)
  | custom name action settings raw =>
      exact (hrequest name action settings raw).imp_right (⟨_, _, _, ·⟩)
  | customAction action settings => exact .inl rfl
  | index settings => exact .inl rfl
  | showMember settings => exact .inl rfl
  | delete settings => exact .inl rfl

end Controller

namespace Session

/-- A session before its first call, whose registry applies type defaults. -/
def start (defaults : TypeDefaults) : Session :=
  { registry := { typeDefaults := defaults } }

/-- What declaring, compiling and freezing keep of a registry is kept by every call. -/
theorem step_registry_invariant {P : Registry → Prop}
    (hdeclare : ∀ r name, P r → P (r.declare name).state)
    (hcompile : ∀ r name raw overrides, P r → P (r.compile name raw overrides).state)
    (hfreeze : ∀ r : Registry, P r → P r.freeze) (s : Session) (call : Call)
    (hs : P s.registry) : P (s.step call).state.registry := by
  cases call with
  | declare name => exact hdeclare _ name hs
  | compile name raw overrides => exact hcompile _ name raw overrides hs
  | freeze => exact hfreeze _ hs
  | begin controller settings => exact hs
  | bind controller binding =>
      unfold step
      dsimp only
      split
      next => exact hs
      next c _ =>
        rcases c.bind_registry s.registry binding with hstate | ⟨name, raw, overrides, hstate⟩
        · exact hstate.symm ▸ hs
        · exact hstate.symm ▸ hcompile _ name raw overrides hs

/-- What every call keeps of a registry is kept by every run. -/
theorem run_registry_invariant {P : Registry → Prop}
    (hdeclare : ∀ r name, P r → P (r.declare name).state)
    (hcompile : ∀ r name raw overrides, P r → P (r.compile name raw overrides).state)
    (hfreeze : ∀ r : Registry, P r → P r.freeze) (calls : List Call) (s : Session)
    (hs : P s.registry) : P (s.run calls).registry := by
  induction calls generalizing s with
  | nil => exact hs
  | cons call rest ih =>
      exact ih _ (step_registry_invariant hdeclare hcompile hfreeze s call hs)

theorem run_isSettled (defaults : TypeDefaults) (calls : List Call) :
    ((start defaults).run calls).registry.IsSettled := by
  apply run_registry_invariant
  · exact fun r name hr => Registry.declare_isSettled hr name
  · exact fun r name raw overrides hr => Registry.compile_isSettled hr name raw overrides
  · exact fun r hr => ⟨hr.compiled_iff, hr.provenance⟩
  · exact ⟨fun name => by simp [start, Registry.stateOf, Registry.get?, NameTable.get?],
      fun name s hs => absurd hs (by simp [start, Registry.get?, NameTable.get?])⟩

end Session

end FieldSchema
