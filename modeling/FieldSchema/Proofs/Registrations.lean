import FieldSchema.Proofs.Agreement
import FieldSchema.Proofs.RequestBodies

/-!
# Registrations

A call registers a schema when it compiles one and the compilation succeeds. The registrations of a
run in their order decide which names the registry holds and which of them are compiled; a name is
in another state only when it was announced and never registered.
-/

namespace FieldSchema

/-- A compilation that succeeded: the schema, and the declarations and overrides it came from. -/
structure Registration where
  schema : Schema
  declarations : Value
  overrides : Record Value

def Registration.name (g : Registration) : String := g.schema.name

/-- The declarations and overrides that a call has compiled, if it gets as far as that. -/
def Call.source? : Call → Option (Value × Record Value)
  | .compile _ raw overrides => some (raw, overrides)
  | .bind _ binding => binding.body?.map fun body => (body.declarations, body.settings.overrides)
  | .declare _ => none
  | .freeze => none
  | .begin _ _ => none

namespace Session

def registration? (s : Session) (call : Call) : Option Registration := do
  let schema ← s.compiled? call
  let source ← call.source?
  return ⟨schema, source.1, source.2⟩

/-- The registrations of a run in their order. -/
def registrations : Session → List Call → List Registration
  | _, [] => []
  | s, call :: rest => (s.registration? call).toList ++ registrations (s.step call).state rest

def registeredNames (s : Session) (calls : List Call) : List String :=
  (s.registrations calls).map Registration.name

/-- Some call of a run announces a name, and the registry is not frozen then. -/
def Announces (name : String) : Session → List Call → Prop
  | _, [] => False
  | s, call :: rest =>
      (call = .declare name ∧ (s.step call).outcome = .ok .done) ∨
        Announces name (s.step call).state rest

theorem registrations_concat (s : Session) (calls : List Call) (call : Call) :
    s.registrations (calls ++ [call]) =
      s.registrations calls ++ ((s.run calls).registration? call).toList := by
  induction calls generalizing s with
  | nil => simp [registrations, run]
  | cons first rest ih =>
      have hrun : s.run (first :: rest) = (s.step first).state.run rest := rfl
      simp only [List.cons_append, registrations, ih, hrun, List.append_assoc]

theorem announces_concat (name : String) (s : Session) (calls : List Call) (call : Call) :
    Announces name s (calls ++ [call]) ↔
      Announces name s calls ∨
        (call = .declare name ∧ ((s.run calls).step call).outcome = .ok .done) := by
  induction calls generalizing s with
  | nil => simp [Announces, run]
  | cons first rest ih =>
      have hrun : s.run (first :: rest) = (s.step first).state.run rest := rfl
      simp only [List.cons_append, Announces, ih, hrun, or_assoc]

end Session

/-! ## What one call does to the registry -/

namespace Controller

/-- A binding that compiles a schema leaves the registry as the compilation does. -/
theorem bind_registry_of_compiled {c : Controller} {r : Registry} {binding : Binding}
    {schema : Schema} (h : c.compiled? r binding = some schema) :
    ∃ body, binding.body? = some body ∧
      (r.compile schema.name body.declarations body.settings.overrides).outcome = .ok schema ∧
      (c.bind r binding).state.1 =
        (r.compile schema.name body.declarations body.settings.overrides).state := by
  obtain ⟨body, hbody, hname, _, _⟩ := bind_of_compiled h
  obtain ⟨⟨schemas, hschemas⟩, houtcome⟩ := (compiled?_eq_some_iff hbody).mp h
  obtain ⟨action, hbind⟩ := bind_of_body hbody
  rw [← hname]
  refine ⟨body, hbody, houtcome, ?_⟩
  rw [hbind]
  rcases c.bindRequest_cases r body.name action body.settings body.declarations with
    ⟨_, hfailed, _⟩ | ⟨_, compiled, _, rfl, hcases⟩
  · exact absurd (hschemas.symm.trans hfailed) (by simp)
  · rcases hcases with ⟨_, _, hrequest⟩ | ⟨_, _, _, _, hrequest⟩ | ⟨_, _, _, _, hrequest⟩ <;>
      rw [hrequest]

/-- A binding that compiles no schema leaves all answers of the registry as they were. -/
theorem bind_sameAnswers_of_not_compiled {c : Controller} {r : Registry} {binding : Binding}
    (h : c.compiled? r binding = none) : r.SameAnswers (c.bind r binding).state.1 := by
  cases hbody : binding.body? with
  | none =>
      cases binding with
      | create name settings declarations => cases hbody
      | update name settings declarations => cases hbody
      | custom name action settings declarations => cases hbody
      | customAction action settings => exact Registry.SameAnswers.refl r
      | index settings => exact Registry.SameAnswers.refl r
      | showMember settings => exact Registry.SameAnswers.refl r
      | delete settings => exact Registry.SameAnswers.refl r
  | some body =>
      obtain ⟨action, hbind⟩ := bind_of_body hbody
      rw [hbind]
      rcases c.bindRequest_cases r body.name action body.settings body.declarations with
        ⟨_, _, hrequest⟩ | ⟨schemas, compiled, hschemas, rfl, hcases⟩
      · rw [hrequest]
        exact Registry.SameAnswers.refl r
      · have hnot : ∀ schema, (r.compile (c.requestSchemaName body.name) body.declarations
            body.settings.overrides).outcome ≠ .ok schema := by
          intro schema houtcome
          have hsome := (compiled?_eq_some_iff hbody).mpr ⟨⟨schemas, hschemas⟩, houtcome⟩
          exact absurd (h.symm.trans hsome) (by simp)
        rcases hcases with ⟨_, houtcome, hrequest⟩ | ⟨schema, _, houtcome, _⟩ |
          ⟨schema, _, houtcome, _⟩
        · rw [hrequest]
          exact Registry.compile_error_sameAnswers houtcome
        · exact absurd houtcome (hnot schema)
        · exact absurd houtcome (hnot schema)

end Controller

namespace Registry

/-- Announcing a name changes no answer, or gives a name without a state its first one. -/
theorem declare_cases (r : Registry) (name : String) :
    (r.frozen = true ∧ (r.declare name).state = r ∧
      (r.declare name).outcome = .error (.defect (.registryFrozen name))) ∨
    (r.frozen = false ∧ (r.declare name).outcome = .ok () ∧
      (((r.stateOf name).isSome = true ∧ (r.declare name).state = r) ∨
        (r.stateOf name = none ∧ (r.declare name).state = r.mark name .declared))) := by
  unfold declare
  by_cases hfrozen : r.frozen = true
  · exact .inl ⟨hfrozen, by simp [hfrozen], by simp [hfrozen]⟩
  · right
    have hopen : r.frozen = false := by simpa using hfrozen
    cases hstate : r.stateOf name with
    | none => simp [hopen]
    | some state => simp [hopen]

theorem names_declare (r : Registry) (name : String) : (r.declare name).state.names = r.names := by
  rcases r.declare_cases name with ⟨_, hstate, _⟩ | ⟨_, _, ⟨_, hstate⟩ | ⟨_, hstate⟩⟩ <;>
    rw [hstate]
  rfl

theorem names_nodup_compile {r : Registry} (hr : r.names.Nodup) (name : String) (raw : Value)
    (overrides : Record Value) : (r.compile name raw overrides).state.names.Nodup := by
  cases houtcome : (r.compile name raw overrides).outcome with
  | error failure => rwa [(compile_error_sameAnswers houtcome).names]
  | ok schema =>
      rw [(compile_ok_state houtcome).1, names_hold]
      split
      next => exact hr
      next hnew =>
        exact List.nodup_append'.mpr ⟨hr, List.nodup_singleton name, by simpa using hnew⟩

theorem stateOf_declare {r : Registry} {name : String}
    (h : (r.declare name).outcome = .ok ()) (other : String) :
    (r.declare name).state.stateOf other =
      if other = name then some ((r.stateOf name).getD .declared) else r.stateOf other := by
  rcases r.declare_cases name with ⟨_, _, hfailed⟩ | ⟨_, _, ⟨hsome, hstate⟩ | ⟨hnone, hstate⟩⟩
  · exact absurd (h.symm.trans hfailed) (by simp)
  · rw [hstate]
    split
    next heq =>
      obtain ⟨state, hstate⟩ := Option.isSome_iff_exists.mp hsome
      rw [heq, hstate]
      rfl
    next => rfl
  · rw [hstate, stateOf_mark, hnone]
    rfl

end Registry

namespace Session

/-- What a call does to the registry: it registers a schema, announces a name, freezes the registry,
or changes no answer. -/
theorem step_registry_cases (s : Session) (call : Call) :
    (∃ g, s.registration? call = some g ∧ (∀ name, call ≠ .declare name) ∧
      (s.registry.compile g.name g.declarations g.overrides).outcome = .ok g.schema ∧
      (s.step call).state.registry =
        (s.registry.compile g.name g.declarations g.overrides).state) ∨
    (s.registration? call = none ∧
      ((∃ name, call = .declare name ∧
          (s.step call).state.registry = (s.registry.declare name).state) ∨
        (call = .freeze ∧ (s.step call).state.registry = s.registry.freeze) ∨
        ((∀ name, call ≠ .declare name) ∧
          s.registry.SameAnswers (s.step call).state.registry))) := by
  cases call with
  | declare name => exact .inr ⟨rfl, .inl ⟨name, rfl, rfl⟩⟩
  | compile name raw overrides =>
      have hstep : (s.step (.compile name raw overrides)).state.registry =
          (s.registry.compile name raw overrides).state := rfl
      rw [hstep]
      cases houtcome : (s.registry.compile name raw overrides).outcome with
      | error failure =>
          refine .inr ⟨?_, .inr (.inr ⟨by simp, Registry.compile_error_sameAnswers houtcome⟩)⟩
          simp [registration?, compiled?, houtcome, Except.toOption]
      | ok schema =>
          obtain ⟨_, _, hcompile⟩ := Registry.compile_ok_state houtcome
          have hname : schema.name = name := Schema.compile_name hcompile
          refine .inl ⟨⟨schema, raw, overrides⟩, ?_, by simp, ?_, ?_⟩
          · simp [registration?, compiled?, Call.source?, houtcome, Except.toOption]
          · simpa only [Registration.name, hname] using houtcome
          · simp only [Registration.name, hname]
  | freeze => exact .inr ⟨rfl, .inr (.inl ⟨rfl, rfl⟩)⟩
  | begin controller settings =>
      exact .inr ⟨rfl, .inr (.inr ⟨by simp, Registry.SameAnswers.refl _⟩)⟩
  | bind controller binding =>
      cases hbinder : s.controllers.get? controller with
      | none =>
          rw [step_bind_of_none hbinder]
          refine .inr ⟨?_, .inr (.inr ⟨by simp, Registry.SameAnswers.refl _⟩)⟩
          simp [registration?, compiled?, hbinder]
      | some c =>
          rw [(step_bind hbinder binding).2]
          cases hcompiled : c.compiled? s.registry binding with
          | none =>
              refine .inr ⟨?_, .inr (.inr ⟨by simp,
                Controller.bind_sameAnswers_of_not_compiled hcompiled⟩)⟩
              simp [registration?, compiled?, hbinder, hcompiled]
          | some schema =>
              obtain ⟨body, hbody, houtcome, hstate⟩ :=
                Controller.bind_registry_of_compiled hcompiled
              refine .inl ⟨⟨schema, body.declarations, body.settings.overrides⟩, ?_, by simp,
                houtcome, hstate⟩
              simp [registration?, compiled?, Call.source?, hbinder, hcompiled, hbody]

/-- A call that registers nothing leaves what is held under every name. -/
theorem get?_step_of_not_registered {s : Session} {call : Call} (h : s.registration? call = none)
    (name : String) : (s.step call).state.registry.get? name = s.registry.get? name := by
  rcases s.step_registry_cases call with ⟨g, hg, _⟩ | ⟨_, hstate⟩
  · exact absurd (hg.symm.trans h) (by simp)
  · rcases hstate with ⟨other, _, hstate⟩ | ⟨_, hstate⟩ | ⟨_, hstate⟩
    · rw [hstate, Registry.get?_declare]
    · rw [hstate]
      rfl
    · exact hstate.entries name

/-! ## What a run leaves in the registry -/

theorem run_typeDefaults (defaults : TypeDefaults) (calls : List Call) :
    ((start defaults).run calls).registry.typeDefaults = defaults := by
  apply run_registry_invariant (P := fun r => r.typeDefaults = defaults)
  · intro r name hr
    rcases r.declare_cases name with ⟨_, hstate, _⟩ | ⟨_, _, ⟨_, hstate⟩ | ⟨_, hstate⟩⟩ <;>
      rw [hstate] <;> exact hr
  · intro r name raw overrides hr
    rcases r.compile_cases name raw overrides with
      ⟨_, hstate, _⟩ | ⟨_, _, _, _, hstate⟩ | ⟨_, _, _, _, _, hstate⟩
    · rw [hstate]
      exact hr
    · rw [hstate]
      cases r.stateOf name <;> exact hr
    · rw [hstate]
      exact hr
  · exact fun r hr => hr
  · rfl

/-- Between calls no name is being compiled. -/
theorem run_stateOf_ne_compiling (defaults : TypeDefaults) (calls : List Call) (name : String) :
    ((start defaults).run calls).registry.stateOf name ≠ some .compiling := by
  apply run_registry_invariant (P := fun r => r.stateOf name ≠ some .compiling)
  · intro r other hr
    rcases r.declare_cases other with ⟨_, hstate, _⟩ | ⟨_, _, ⟨_, hstate⟩ | ⟨_, hstate⟩⟩
    · rwa [hstate]
    · rwa [hstate]
    · rw [hstate, Registry.stateOf_mark]
      split <;> simp [hr]
  · intro r other raw overrides hr
    cases houtcome : (r.compile other raw overrides).outcome with
    | error failure => rwa [(Registry.compile_error_sameAnswers houtcome).states]
    | ok schema =>
        rw [(Registry.compile_ok_state houtcome).1, Registry.stateOf_hold, Registry.stateOf_mark]
        split <;> simp [hr]
  · exact fun r hr => hr
  · simp [start, Registry.stateOf, NameTable.get?]

theorem run_names_nodup (defaults : TypeDefaults) (calls : List Call) :
    ((start defaults).run calls).registry.names.Nodup := by
  apply run_registry_invariant (P := fun r => r.names.Nodup)
  · exact fun r name hr => (r.names_declare name).symm ▸ hr
  · exact fun r name raw overrides hr => Registry.names_nodup_compile hr name raw overrides
  · exact fun r hr => hr
  · exact List.nodup_nil

theorem eraseDups_concat (names : List String) (name : String) :
    (names ++ [name]).eraseDups =
      if name ∈ names then names.eraseDups else names.eraseDups ++ [name] := by
  rw [List.eraseDups_append]
  by_cases h : name ∈ names <;> simp [List.removeAll, h, List.eraseDups_cons]

theorem nodup_eraseDups (names : List String) : names.eraseDups.Nodup := by
  induction names using List.reverseRecOn with
  | nil => exact List.nodup_nil
  | append_singleton names name ih =>
      rw [eraseDups_concat]
      split
      next => exact ih
      next hnew =>
        apply List.nodup_append'.mpr
        refine ⟨ih, List.nodup_singleton name, ?_⟩
        simpa using hnew

/-- The names that the registry holds are those of the registrations, each where it came first. -/
theorem run_names_eq (defaults : TypeDefaults) (calls : List Call) :
    ((start defaults).run calls).registry.names =
      ((start defaults).registeredNames calls).eraseDups := by
  -- from the end of the run: the last call adds a name at the end, or none
  induction calls using List.reverseRecOn with
  | nil => rfl
  | append_singleton calls call ih =>
      rw [run_concat, registeredNames, registrations_concat, List.map_append]
      rcases ((start defaults).run calls).step_registry_cases call with
        ⟨g, hg, _, houtcome, hstate⟩ | ⟨hnone, hstate⟩
      · have hmem : g.name ∈ ((start defaults).run calls).registry.names ↔
            g.name ∈ (start defaults).registeredNames calls := by
          rw [ih, List.mem_eraseDups]
        have hadded : ((start defaults).registeredNames calls ++ [g.name]).eraseDups =
            if g.name ∈ ((start defaults).run calls).registry.names then
              ((start defaults).run calls).registry.names
            else ((start defaults).run calls).registry.names ++ [g.name] := by
          rw [eraseDups_concat, ← ih]
          exact if_congr hmem.symm rfl rfl
        rw [hstate, (Registry.compile_ok_state houtcome).1, Registry.names_hold, hg]
        exact hadded.symm
      · rw [hnone, Option.toList_none, List.map_nil, List.append_nil, ← registeredNames, ← ih]
        rcases hstate with ⟨name, _, hstate⟩ | ⟨_, hstate⟩ | ⟨_, hstate⟩
        · rw [hstate, Registry.names_declare]
        · rw [hstate]
          rfl
        · exact hstate.names

theorem mem_run_names_iff (defaults : TypeDefaults) (calls : List Call) (name : String) :
    name ∈ ((start defaults).run calls).registry.names ↔
      name ∈ (start defaults).registeredNames calls := by
  rw [run_names_eq, List.mem_eraseDups]

/-- A name is compiled exactly when a schema was registered under it. -/
theorem run_stateOf_eq_compiled_iff (defaults : TypeDefaults) (calls : List Call) (name : String) :
    ((start defaults).run calls).registry.stateOf name = some .compiled ↔
      name ∈ (start defaults).registeredNames calls := by
  rw [(run_isSettled defaults calls).compiled_iff, ← mem_run_names_iff]
  exact NameTable.isSome_get?_iff _ name

theorem step_declare_outcome (s : Session) (name : String) :
    (s.step (.declare name)).outcome = .ok .done ↔ (s.registry.declare name).outcome = .ok () := by
  simp only [step]
  cases (s.registry.declare name).outcome <;> simp [Except.map]

/-- A name is in the state of announced names exactly when a call has announced it and none has
registered a schema under it. -/
theorem run_stateOf_eq_declared_iff (defaults : TypeDefaults) (calls : List Call) (name : String) :
    ((start defaults).run calls).registry.stateOf name = some .declared ↔
      Announces name (start defaults) calls ∧ name ∉ (start defaults).registeredNames calls := by
  induction calls using List.reverseRecOn with
  | nil => simp [run, start, Registry.stateOf, NameTable.get?, Announces]
  | append_singleton calls call ih =>
      have hcompiled := run_stateOf_eq_compiled_iff defaults calls name
      have hidle := run_stateOf_ne_compiling defaults calls name
      rw [run_concat, announces_concat, registeredNames, registrations_concat, List.map_append,
        ← registeredNames]
      generalize (start defaults).run calls = s at *
      rcases s.step_registry_cases call with
        ⟨g, hg, hother, houtcome, hstate⟩ | ⟨hnone, hstate⟩
      · rw [hstate, (Registry.compile_ok_state houtcome).1, Registry.stateOf_hold,
          Registry.stateOf_mark, hg]
        by_cases hname : name = g.name
        · simp [hname]
        · simp [hname, hother, ih]
      · rw [hnone, Option.toList_none, List.map_nil, List.append_nil]
        rcases hstate with ⟨other, rfl, hstate⟩ | ⟨rfl, hstate⟩ | ⟨hother, hstate⟩
        · rw [hstate, step_declare_outcome]
          cases houtcome : (s.registry.declare other).outcome with
          | error failure =>
              rcases s.registry.declare_cases other with ⟨_, hsame, _⟩ | ⟨_, hok, _⟩
              · simpa [hsame] using ih
              · exact absurd (houtcome.symm.trans hok) (by simp)
          | ok _ =>
              rw [Registry.stateOf_declare houtcome]
              by_cases hname : name = other
              · -- only a name that is compiled keeps another state
                subst hname
                rw [← hcompiled]
                cases hearlier : s.registry.stateOf name with
                | none => simp
                | some state =>
                    cases state with
                    | declared => simp
                    | compiling => exact absurd hearlier hidle
                    | compiled => simp
              · have hne : ¬other = name := fun h => hname h.symm
                simpa [hname, hne] using ih
        · have hsame : s.registry.freeze.stateOf name = s.registry.stateOf name := rfl
          rw [hstate, hsame]
          simpa using ih
        · rw [hstate.states]
          simpa [hother] using ih

end Session

/-! ## The states of a registry -/

namespace Node

theorem get?_unplaced_self {α β : Type} (name : String) (encode : α → Value) (imposed : Option α)
    (stated : Option β) :
    Record.get? (unplaced name encode imposed stated) name =
      if stated.isSome then none else imposed.map encode := by
  cases stated <;> simp [unplaced, Record.get?_ofOption]

theorem published?_title (n : Node) : n.published? "title" = n.title.map .text := by
  have hcontent : Record.get? n.content "title" = none := n.get?_content (by decide)
  cases hstated : n.notes.stated.title <;> cases himposed : n.notes.imposed.title <;>
    simp [published?, ownEntries_toValue, entriesAround, Keywords.entries, Record.get?_append,
      Record.get?_cons, Record.get?_ofOption, get?_unplaced, get?_unplaced_self, hcontent, title,
      hstated, himposed]

/-- What a node publishes as the root of a schema: the type of objects, a title, and that it is not
required. -/
structure IsRootOf (n : Node) (name : String) : Prop where
  type : n.published? "type" = some (.text "object")
  title : n.published? "title" = some (.text name)
  required : n.published? "required" = some (.bool false)

end Node

theorem Schema.compile_isRootOf {name : String} {raw : Value} {around : Surroundings} {s : Schema}
    {notices : List Notice} (h : Schema.compile name raw around = .ok (s, notices)) :
    s.documentation.IsRootOf name := by
  obtain ⟨declared, fields, _, _, rfl, -⟩ := Schema.compile_eq_ok.mp h
  exact ⟨Node.published?_type _, Node.published?_title _, Node.published?_required _⟩

theorem Schema.IsCompiled.isRootOf {s : Schema} (h : s.IsCompiled) :
    s.documentation.IsRootOf s.name :=
  h.of_compile fun _ _ _ _ _ _ hcompile =>
    (Schema.compile_name hcompile).symm ▸ Schema.compile_isRootOf hcompile

namespace Session

/-- The states of a registry after any run. No name is being compiled; the compiled names are the
names held, once each, in the order of their first registrations; announced names are those that a
call announced and none registered; and every schema is held under its own name, with the root that
belongs to it. -/
theorem run_registry_states (defaults : TypeDefaults) (calls : List Call) :
    ((start defaults).run calls).registry.names.Nodup ∧
      ((start defaults).run calls).registry.names =
        ((start defaults).registeredNames calls).eraseDups ∧
      ∀ name,
        ((start defaults).run calls).registry.stateOf name ≠ some .compiling ∧
        (((start defaults).run calls).registry.stateOf name = some .compiled ↔
          ((start defaults).run calls).registry.has name = true) ∧
        (((start defaults).run calls).registry.has name = true ↔
          name ∈ ((start defaults).run calls).registry.names) ∧
        (((start defaults).run calls).registry.stateOf name = some .declared ↔
          Announces name (start defaults) calls ∧
            name ∉ (start defaults).registeredNames calls) ∧
        ∀ s, ((start defaults).run calls).registry.get? name = some s →
          s.name = name ∧ s.documentation.IsRootOf name := by
  refine ⟨run_names_nodup defaults calls, run_names_eq defaults calls, fun name => ?_⟩
  refine ⟨run_stateOf_ne_compiling defaults calls name,
    (run_isSettled defaults calls).compiled_iff name, NameTable.isSome_get?_iff _ name,
    run_stateOf_eq_declared_iff defaults calls name, fun s hs => ?_⟩
  obtain ⟨hcompiled, rfl⟩ := (run_isSettled defaults calls).provenance name s hs
  exact ⟨rfl, hcompiled.isRootOf⟩

/-- After the address book, addresses are compiled anew: both names are still listed where they
came first, once each. -/
theorem addressBook_registry_states :
    ∃ s, ((start .builtIn).run (addressBook ++ [.compile "Address" (.list []) []])).registry.get?
        "Address" = some s ∧ s.documentation.IsRootOf "Address" ∧
      (start .builtIn).registeredNames (addressBook ++ [.compile "Address" (.list []) []]) =
        ["Address", "User", "Address"] ∧
      ((start .builtIn).run (addressBook ++ [.compile "Address" (.list []) []])).registry.names =
        ["Address", "User"] := by
  obtain ⟨_, hnames, hstates⟩ :=
    run_registry_states .builtIn (addressBook ++ [.compile "Address" (.list []) []])
  have hregistered : (start .builtIn).registeredNames
      (addressBook ++ [.compile "Address" (.list []) []]) = ["Address", "User", "Address"] := rfl
  refine ⟨_, rfl, ((hstates "Address").2.2.2.2 _ rfl).2, hregistered, ?_⟩
  rw [hnames, hregistered]
  decide

end Session

/-! ## Registrations that stand -/

/-- A registry holds what a registration compiled, and every schema that could be embedded then. -/
structure Registration.StandsIn (g : Registration) (r : Registry) : Prop where
  held : r.get? g.name = some g.schema
  compiled : ∃ around notices,
    Schema.compile g.name g.declarations around = .ok (g.schema, notices) ∧
    around.typeDefaults = r.typeDefaults ∧ around.overrides = g.overrides ∧
    ∀ reference t, around.lookup reference = some t → r.get? reference = some t

theorem Registration.StandsIn.mono {g : Registration} {r other : Registry} (h : g.StandsIn r)
    (hdefaults : other.typeDefaults = r.typeDefaults)
    (hkeep : ∀ name s, r.get? name = some s → other.get? name = some s) : g.StandsIn other := by
  obtain ⟨around, notices, hcompile, htype, hoverrides, hlookup⟩ := h.compiled
  exact ⟨hkeep _ _ h.held, around, notices, hcompile, htype.trans hdefaults.symm, hoverrides,
    fun reference t ht => hkeep _ _ (hlookup reference t ht)⟩

theorem Registry.lookup_surroundings_iff {r : Registry} {name reference : String}
    {overrides : Record Value} {t : Schema} :
    (r.surroundings name overrides).lookup reference = some t ↔
      reference ≠ name ∧ r.get? reference = some t := by
  simp only [surroundings, embeddable, get?_mark]
  split
  next heq => simp [heq]
  next hne => simp [hne]

namespace Session

theorem mem_registeredNames_of_get? {defaults : TypeDefaults} {calls : List Call} {name : String}
    {s : Schema} (h : ((start defaults).run calls).registry.get? name = some s) :
    name ∈ (start defaults).registeredNames calls := by
  rw [← mem_run_names_iff]
  exact (NameTable.isSome_get?_iff _ name).mp (Option.isSome_iff_exists.mpr ⟨s, h⟩)

/-- Where every name is registered at most once, all registrations stand at the end. -/
theorem run_stands (defaults : TypeDefaults) (calls : List Call)
    (honce : ((start defaults).registeredNames calls).Nodup) :
    ∀ g ∈ (start defaults).registrations calls,
      g.StandsIn ((start defaults).run calls).registry := by
  induction calls using List.reverseRecOn with
  | nil => simp [registrations]
  | append_singleton calls call ih =>
      have hdefaults : ((start defaults).run (calls ++ [call])).registry.typeDefaults =
          ((start defaults).run calls).registry.typeDefaults := by
        rw [run_typeDefaults, run_typeDefaults]
      rw [registeredNames, registrations_concat, List.map_append] at honce
      rw [registrations_concat]
      have hearlier := ih honce.of_append_left
      rcases ((start defaults).run calls).step_registry_cases call with
        ⟨g, hg, _, houtcome, hstate⟩ | ⟨hnone, _⟩
      · rw [hg] at honce ⊢
        obtain ⟨hheld, notices, hcompile⟩ := Registry.compile_ok_state houtcome
        have hfresh : g.name ∉ (start defaults).registeredNames calls := fun hmem =>
          List.disjoint_of_nodup_append honce hmem (List.mem_singleton.mpr rfl)
        have hget (name : String) :
            ((start defaults).run (calls ++ [call])).registry.get? name =
              if name = g.name then some g.schema
              else ((start defaults).run calls).registry.get? name := by
          rw [run_concat, hstate, hheld]
          exact Registry.get?_hold _ _ _ _
        have hkeep (name : String) (s : Schema)
            (hs : ((start defaults).run calls).registry.get? name = some s) :
            ((start defaults).run (calls ++ [call])).registry.get? name = some s := by
          have hne : name ≠ g.name := fun heq => hfresh (heq ▸ mem_registeredNames_of_get? hs)
          rw [hget, if_neg hne, hs]
        intro other hother
        rcases List.mem_append.mp hother with hother | hother
        · exact (hearlier other hother).mono hdefaults hkeep
        · obtain rfl : other = g := List.mem_singleton.mp hother
          exact ⟨by rw [hget, if_pos rfl], _, notices, hcompile, hdefaults.symm, rfl,
            fun reference t ht => hkeep reference t (Registry.lookup_surroundings_iff.mp ht).2⟩
      · rw [hnone, Option.toList_none, List.append_nil]
        refine fun g hg => (hearlier g hg).mono hdefaults fun name s hs => ?_
        rw [run_concat, get?_step_of_not_registered hnone, hs]

/-- The raw declarations that were registered under a name. -/
def declarationsOf (s : Session) (calls : List Call) (name : String) : Value :=
  (((s.registrations calls).find? fun g => g.name == name).map Registration.declarations).getD
    .absent

theorem declarationsOf_eq {s : Session} {calls : List Call}
    (honce : (s.registeredNames calls).Nodup) {g : Registration} (hg : g ∈ s.registrations calls) :
    s.declarationsOf calls g.name = g.declarations := by
  obtain ⟨first, hfirst⟩ : ∃ first, (s.registrations calls).find? (fun other =>
      other.name == g.name) = some first :=
    Option.isSome_iff_exists.mp (List.find?_isSome.mpr ⟨g, hg, by simp⟩)
  have hname : first.name = g.name := by simpa using List.find?_some hfirst
  have heq : first = g :=
    List.inj_on_of_nodup_map honce (List.mem_of_find?_eq_some hfirst) hg hname
  rw [declarationsOf, hfirst, heq]
  rfl

end Session

end FieldSchema
