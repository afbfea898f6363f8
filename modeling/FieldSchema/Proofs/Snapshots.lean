import FieldSchema.Proofs.Containment
import FieldSchema.Proofs.Independence

/-!
# Snapshots

What a registry holds under a name is what was registered under it last. A schema is embedded as the
registry holds it at that time: at the place of an embed stand the documentation and the descriptor
of the embedded schema, and they stay there whatever is registered later.
-/

namespace FieldSchema

open Outcome

/-- A block embeds a schema under a field. The field stands inside others, which are listed by their
names from the outside in. -/
inductive Declaration.EmbedsAt :
    List Declaration → List String → String → EmbedKind → String → Prop
  | here {block : List Declaration} {name reference : String} {kind : EmbedKind}
      (hembed : .embed kind name reference ∈ block) : EmbedsAt block [] name kind reference
  | inside {block inner : List Declaration} {head : FieldHead} {outer : List String}
      {name reference : String} {kind : EmbedKind} (hblock : .block head inner ∈ block)
      (h : EmbedsAt inner outer name kind reference) :
      EmbedsAt block (head.name :: outer) name kind reference

/-! ## Fields at a place -/

/-- The known members of a value, or of the elements of an array. -/
def Node.innerProperties? : Node → Option (Record Node)
  | .object properties _ => some properties
  | .array items _ => items.properties?
  | _ => none

/-- The node of a field at any depth, by the names of the fields around it and its own. -/
def Node.field? : Node → List String → Option Node
  | n, [] => some n
  | n, name :: place => do
      let properties ← n.innerProperties?
      let property ← properties.get? name
      property.field? place

/-- The rule of a field at any depth, by the names of the fields around it and its own. -/
def Rule.field? : Rule → List String → Option Rule
  | rule, [] => some rule
  | rule, name :: place => do
      let inner ← rule.inner?
      let found ← inner.find? fun other => other.name == name
      found.field? place

/-- The rule that a schema has for its values. -/
def Schema.rule (s : Schema) : Rule :=
  .fields ⟨s.name, .map, false, {}⟩ s.descriptor

/-- The node of a field that embeds a schema. -/
def EmbedKind.node (s : Schema) : EmbedKind → Node
  | .one => s.documentation
  | .many => .array s.documentation ⟨false, {}, {}⟩

/-- The rule of a field that embeds a schema. -/
def EmbedKind.rule (name : String) (s : Schema) : EmbedKind → Rule
  | .one => .fields ⟨name, .map, false, {}⟩ s.descriptor
  | .many => .itemFields ⟨name, .array, false, {}⟩ s.descriptor

/-- A schema holds another one at the place of an embed. -/
structure Schema.HoldsAt (s : Schema) (outer : List String) (name : String) (kind : EmbedKind)
    (embedded : Schema) : Prop where
  node : s.documentation.field? (outer ++ [name]) = some (kind.node embedded)
  rule : s.rule.field? (outer ++ [name]) = some (kind.rule name embedded)

theorem Declaration.BlockIsWellFormed.of_mem {block : List Declaration}
    (h : BlockIsWellFormed block) {d : Declaration} (hd : d ∈ block) : d.IsWellFormed := by
  induction block with
  | nil => cases hd
  | cons first rest ih =>
      rcases List.mem_cons.mp hd with rfl | hrest
      · exact h.1
      · exact ih h.2.2 hrest

namespace Compilation

/-! ## What stands at the place of an embed -/

theorem compileEmbed_eq_ok {lookup : String → Option Schema} {kind : EmbedKind}
    {name reference path : String} {field : CompiledField}
    (h : compileEmbed lookup kind name reference path = .ok field) :
    ∃ t, lookup reference = some t ∧ field = ⟨kind.node t, kind.rule name t⟩ := by
  unfold compileEmbed at h
  split at h
  next => cases h
  next t ht =>
    refine ⟨t, ht, ?_⟩
    cases kind with
    | one => exact (Except.ok.inj h).symm
    | many => exact (Except.ok.inj h).symm

/-- A block compiles each of its declarations, and finds it under the declared name. -/
theorem get?_compileAll {around : Surroundings} {parent : String} {block : List Declaration}
    {fields : List (String × CompiledField)} (h : compileAll around parent block = .ok fields)
    (hnodup : (block.map Declaration.name).Nodup) {d : Declaration} (hd : d ∈ block) :
    ∃ field, compileOne around parent d = .ok field ∧ Record.get? fields d.name = some field := by
  induction block generalizing fields with
  | nil => cases hd
  | cons first rest ih =>
      obtain ⟨field, others, hfield, hothers, rfl⟩ := compileAll_cons_eq_ok.mp h
      obtain ⟨hfresh, hrest⟩ := List.nodup_cons.mp hnodup
      rcases List.mem_cons.mp hd with rfl | hd
      · exact ⟨field, hfield, by simp [Record.get?_cons]⟩
      · obtain ⟨found, hfound, hget⟩ := ih hothers hrest hd
        have hne : d.name ≠ first.name := by
          intro heq
          exact hfresh (heq ▸ List.mem_map_of_mem hd)
        exact ⟨found, hfound, by simpa [Record.get?_cons, hne] using hget⟩

theorem find?_rules {fields : List (String × CompiledField)}
    (hnamed : ∀ field ∈ fields, field.2.rule.name = field.1) (name : String) :
    (rules fields).find? (fun rule => rule.name == name) =
      (Record.get? fields name).map CompiledField.rule := by
  induction fields with
  | nil => rfl
  | cons field rest ih =>
      have hfirst := hnamed field List.mem_cons_self
      have hrest := ih fun other hother => hnamed other (List.mem_cons_of_mem _ hother)
      rw [Record.get?_cons]
      by_cases heq : name = field.1
      · simp [rules, hfirst, heq]
      · have hne : ¬field.1 = name := fun h => heq h.symm
        simpa [rules, hfirst, heq, hne] using hrest

theorem innerProperties?_assembleBlock (ctx : FieldContext) (type : FieldType) (stated : Keywords)
    (inner : List (String × CompiledField)) :
    (assembleBlock ctx type stated inner).node.innerProperties? = some (properties inner) := by
  cases type with
  | scalar scalar => rfl
  | array element => rfl

theorem inner?_assembleBlock (ctx : FieldContext) (type : FieldType) (stated : Keywords)
    (inner : List (String × CompiledField)) :
    (assembleBlock ctx type stated inner).rule.inner? = some (rules inner) := by
  cases type with
  | scalar scalar => rfl
  | array element => rfl

/-- Whatever has compiled fields inside leads to each of them under its name. -/
theorem field?_of_compiled {fields : List (String × CompiledField)}
    (hnodup : (fields.map Prod.fst).Nodup)
    (hnamed : ∀ field ∈ fields, field.2.rule.name = field.1)
    {name : String} {field : CompiledField} (hget : Record.get? fields name = some field)
    (place : List String) :
    (∀ n : Node, n.innerProperties? = some (properties fields) →
      n.field? (name :: place) = field.node.field? place) ∧
    ∀ rule : Rule, rule.inner? = some (rules fields) →
      rule.field? (name :: place) = field.rule.field? place := by
  constructor
  · intro n hn
    have hproperty := get?_properties hnodup name
    simp [Node.field?, hn, hproperty, hget]
  · intro rule hrule
    have hfound := find?_rules hnamed name
    simp [Rule.field?, hrule, hfound, hget]

/-- Compiled fields hold at the place of every embed what could be looked up under its reference. -/
theorem embedded_compileAll {around : Surroundings}
    (hlookup : ∀ reference s, around.lookup reference = some s → s.Agrees)
    {block : List Declaration} {outer : List String} {name reference : String} {kind : EmbedKind}
    (hplace : Declaration.EmbedsAt block outer name kind reference)
    (hblock : Declaration.BlockIsWellFormed block) {parent : String}
    {fields : List (String × CompiledField)} (h : compileAll around parent block = .ok fields) :
    ∃ t, around.lookup reference = some t ∧
      (∀ n : Node, n.innerProperties? = some (properties fields) →
        n.field? (outer ++ [name]) = some (kind.node t)) ∧
      ∀ rule : Rule, rule.inner? = some (rules fields) →
        rule.field? (outer ++ [name]) = some (kind.rule name t) := by
  -- on the place: a block goes on with its own fields, below another path
  induction hplace generalizing parent fields with
  | @here block name reference kind hembed =>
      have hagrees := (pervades_agrees hlookup).compileAll hblock h
      have hnames := map_fst_compileAll h
      obtain ⟨field, hfield, hget⟩ := get?_compileAll h hblock.nodup_names hembed
      rw [compileOne] at hfield
      obtain ⟨t, ht, rfl⟩ := compileEmbed_eq_ok hfield
      obtain ⟨hnode, hrule⟩ := field?_of_compiled (hnames ▸ hblock.nodup_names)
        (fun field hfield => (hagrees field hfield).2) hget []
      exact ⟨t, ht, hnode, hrule⟩
  | @inside block inner head outer name reference kind hmem _ ih =>
      have hagrees := (pervades_agrees hlookup).compileAll hblock h
      have hnames := map_fst_compileAll h
      obtain ⟨field, hfield, hget⟩ := get?_compileAll h hblock.nodup_names hmem
      obtain ⟨ctx, stated, innerFields, _, _, hinner, rfl⟩ := compileBlock_eq_ok.mp hfield
      obtain ⟨t, ht, hdeepNode, hdeepRule⟩ := ih (hblock.of_mem hmem).2.2 hinner
      obtain ⟨hnode, hrule⟩ := field?_of_compiled (hnames ▸ hblock.nodup_names)
        (fun field hfield => (hagrees field hfield).2) hget (outer ++ [name])
      refine ⟨t, ht, ?_, ?_⟩
      · intro n hn
        exact (hnode n hn).trans (hdeepNode _ (innerProperties?_assembleBlock ..))
      · intro rule hinnerRules
        exact (hrule rule hinnerRules).trans (hdeepRule _ (inner?_assembleBlock ..))

end Compilation

/-- At the place of every embed a compiled schema holds what it could look up there. -/
theorem Schema.compile_holdsAt {name : String} {raw : Value} {around : Surroundings} {s : Schema}
    {notices : List Notice} {declared : List Declaration}
    (hlookup : ∀ reference t, around.lookup reference = some t → t.Agrees)
    (hread : Declaration.readAll raw = .ok declared)
    (h : Schema.compile name raw around = .ok (s, notices)) {outer : List String}
    {field reference : String} {kind : EmbedKind}
    (hplace : Declaration.EmbedsAt declared outer field kind reference) :
    ∃ t, around.lookup reference = some t ∧ s.HoldsAt outer field kind t := by
  obtain ⟨other, fields, hother, hfields, rfl, -⟩ := Schema.compile_eq_ok.mp h
  obtain rfl := Except.ok.inj (hread.symm.trans hother)
  have hwell := Declaration.readAll_isWellFormed hread
  obtain ⟨t, ht, hnode, hrule⟩ := Compilation.embedded_compileAll hlookup hplace hwell hfields
  exact ⟨t, ht, hnode _ rfl, hrule _ rfl⟩

namespace Session

/-! ## The last registration of a name -/

theorem registration_compile {s : Session} {call : Call} {g : Registration}
    (h : s.registration? call = some g) :
    (s.registry.compile g.name g.declarations g.overrides).outcome = .ok g.schema ∧
      (s.step call).state.registry =
        (s.registry.compile g.name g.declarations g.overrides).state := by
  rcases s.step_registry_cases call with ⟨other, hother, _, hcompile⟩ | ⟨hnone, _⟩
  · obtain rfl := Option.some.inj (h.symm.trans hother)
    exact hcompile
  · exact absurd (h.symm.trans hnone) (by simp)

/-- A call changes what is held under the name of its registration, and under no other. -/
theorem get?_step (s : Session) (call : Call) (name : String) :
    (s.step call).state.registry.get? name =
      (((s.registration? call).filter fun g => g.name == name).map Registration.schema).or
        (s.registry.get? name) := by
  cases hcall : s.registration? call with
  | none =>
      rw [get?_step_of_not_registered hcall]
      rfl
  | some g =>
      obtain ⟨houtcome, hstate⟩ := registration_compile hcall
      rw [hstate, Registry.get?_compile, houtcome]
      by_cases heq : name = g.name
      · subst heq
        simp [Except.toOption, Option.filter_some]
      · have hne : ¬g.name = name := fun h => heq h.symm
        simp [heq, hne, Option.filter_some]

theorem get?_run (s : Session) (calls : List Call) (name : String) :
    (s.run calls).registry.get? name =
      (((s.registrations calls).filter fun g => g.name == name).getLast?.map
        Registration.schema).or (s.registry.get? name) := by
  induction calls using List.reverseRecOn with
  | nil => rfl
  | append_singleton calls call ih =>
      rw [run_concat, get?_step, ih, registrations_concat, List.filter_append,
        List.getLast?_append, ← Option.or_assoc]
      congr 1
      cases (s.run calls).registration? call with
      | none => simp
      | some g => by_cases hname : g.name = name <;> simp [hname, Option.filter_some]

/-- What each compilation over the type defaults gives its schema, once all embeddable schemas have
it, every schema has that is held after a run. -/
theorem held_of_compile {P : Schema → Prop} {defaults : TypeDefaults}
    (hcompile : ∀ name raw around s notices, around.typeDefaults = defaults →
      (∀ reference target, around.lookup reference = some target → P target) →
      Schema.compile name raw around = .ok (s, notices) → P s)
    (calls : List Call) {name : String} {s : Schema}
    (h : ((start defaults).run calls).registry.get? name = some s) : P s := by
  induction calls using List.reverseRecOn generalizing name s with
  | nil => cases h
  | append_singleton calls call ih =>
      rw [run_concat] at h
      cases hcall : ((start defaults).run calls).registration? call with
      | none =>
          rw [get?_step_of_not_registered hcall] at h
          exact ih h
      | some g =>
          obtain ⟨houtcome, hstate⟩ := registration_compile hcall
          obtain ⟨hheld, notices, hschema⟩ := Registry.compile_ok_state houtcome
          rw [hstate, hheld, Registry.get?_hold] at h
          split at h
          next =>
            obtain rfl := Option.some.inj h
            refine hcompile _ _ _ _ _ (run_typeDefaults defaults calls) ?_ hschema
            intro reference target htarget
            exact ih (Registry.lookup_surroundings_iff.mp htarget).2
          next => exact ih h

theorem get?_step_of_other {s : Session} {call : Call} {name : String}
    (h : ∀ g, s.registration? call = some g → g.name ≠ name) :
    (s.step call).state.registry.get? name = s.registry.get? name := by
  have hnone : ((s.registration? call).filter fun g => g.name == name) = none := by
    rw [Option.filter_eq_none_iff]
    intro g hg
    simpa using h g hg
  rw [get?_step, hnone]
  rfl

/-- A call of a run makes a registration, and no later call registers its name again. -/
structure RegistersLast (s : Session) (earlier : List Call) (call : Call) (later : List Call)
    (g : Registration) : Prop where
  registered : (s.run earlier).registration? call = some g
  notAgain : g.name ∉ ((s.run earlier).step call).state.registeredNames later

theorem RegistersLast.get?_run {s : Session} {earlier later : List Call} {call : Call}
    {g : Registration} (h : s.RegistersLast earlier call later g) :
    (s.run (earlier ++ call :: later)).registry.get? g.name = some g.schema := by
  have hthen : (((s.run earlier).step call).state.registrations later).filter
      (fun g' => g'.name == g.name) = [] := by
    rw [List.filter_eq_nil_iff]
    intro g' hg' hname
    apply h.notAgain
    exact List.mem_map.mpr ⟨g', hg', by simpa using hname⟩
  rw [run_append_cons, Session.get?_run, hthen, get?_step, h.registered]
  simp [Option.filter_some]

/-- What a run holds under a name that it did not begin with comes from one of its calls. -/
theorem exists_registersLast {s : Session} (calls : List Call) {name : String}
    (hfresh : s.registry.get? name = none) (h : (s.run calls).registry.has name = true) :
    ∃ earlier call later g, calls = earlier ++ call :: later ∧
      s.RegistersLast earlier call later g ∧ g.name = name := by
  induction calls using List.reverseRecOn with
  | nil => exact absurd h (by simp [run, Registry.has, hfresh])
  | append_singleton calls call ih =>
      by_cases hcall : ∃ g, (s.run calls).registration? call = some g ∧ g.name = name
      · obtain ⟨g, hg, hname⟩ := hcall
        refine ⟨calls, call, [], g, rfl, ⟨hg, ?_⟩, hname⟩
        simp [registeredNames, registrations]
      · push Not at hcall
        rw [run_concat, Registry.has, get?_step_of_other hcall] at h
        obtain ⟨earlier, first, later, g, rfl, hlast, rfl⟩ := ih h
        refine ⟨earlier, first, later ++ [call], g, by simp, ⟨hlast.registered, ?_⟩, rfl⟩
        rw [registeredNames, registrations_concat, List.map_append, List.mem_append]
        rintro (hmem | hmem)
        · exact hlast.notAgain hmem
        · obtain ⟨g', hg', hname⟩ := List.mem_map.mp hmem
          rw [run_append_cons] at hcall
          exact hcall g' (Option.mem_toList.mp hg') hname

/-- The schema of a registration holds, at the place of every embed, what the registry held under
the reference before the call. -/
theorem registration_holdsAt {s : Session} (hs : s.registry.IsSettled) {call : Call}
    {g : Registration} (h : s.registration? call = some g) :
    ∃ declared, Declaration.readAll g.declarations = .ok declared ∧
      ∀ outer field kind reference, Declaration.EmbedsAt declared outer field kind reference →
        ∃ t, s.registry.get? reference = some t ∧ g.schema.HoldsAt outer field kind t := by
  obtain ⟨houtcome, _⟩ := registration_compile h
  obtain ⟨_, _, hcompile⟩ := Registry.compile_ok_state houtcome
  obtain ⟨declared, _, hread, _⟩ := Schema.compile_eq_ok.mp hcompile
  have hlookup : ∀ reference t,
      (s.registry.surroundings g.name g.overrides).lookup reference = some t → t.Agrees := by
    intro reference t ht
    exact (hs.provenance reference t (Registry.lookup_surroundings_iff.mp ht).2).1.agrees
  refine ⟨declared, hread, ?_⟩
  intro outer field kind reference hplace
  obtain ⟨t, ht, hholds⟩ := Schema.compile_holdsAt hlookup hread hcompile hplace
  exact ⟨t, (Registry.lookup_surroundings_iff.mp ht).2, hholds⟩

/-- Snapshots. After any run the registry holds under a name the schema of the last registration of
that name, which no compilation of another name changes. At the place of every embed of the schema
stands what the registry held under the reference when the schema was registered. -/
theorem run_snapshots (defaults : TypeDefaults) (calls : List Call) (name : String) :
    ((start defaults).run calls).registry.get? name =
      (((start defaults).registrations calls).filter fun g => g.name == name).getLast?.map
        Registration.schema ∧
    (∀ call, (∀ g, ((start defaults).run calls).registration? call = some g → g.name ≠ name) →
      ((start defaults).run (calls ++ [call])).registry.get? name =
        ((start defaults).run calls).registry.get? name) ∧
    (∀ other raw overrides, other ≠ name →
      ((start defaults).run (calls ++ [.compile other raw overrides])).registry.get? name =
        ((start defaults).run calls).registry.get? name) ∧
    (((start defaults).run calls).registry.has name = true →
      ∃ earlier call later g, calls = earlier ++ call :: later ∧
        (start defaults).RegistersLast earlier call later g ∧ g.name = name) ∧
    ∀ earlier call later g, calls = earlier ++ call :: later →
      (start defaults).RegistersLast earlier call later g → g.name = name →
      ((start defaults).run calls).registry.get? name = some g.schema ∧
      ∃ declared, Declaration.readAll g.declarations = .ok declared ∧
        ∀ outer field kind reference,
          Declaration.EmbedsAt declared outer field kind reference →
          ∃ t, ((start defaults).run earlier).registry.get? reference = some t ∧
            g.schema.HoldsAt outer field kind t := by
  have hfresh : (start defaults).registry.get? name = none := rfl
  refine ⟨?_, ?_, ?_, ?_, ?_⟩
  · rw [get?_run, hfresh, Option.or_none]
  · intro call hother
    rw [run_concat]
    exact get?_step_of_other hother
  · intro other raw overrides hne
    rw [run_concat]
    refine (Registry.get?_compile _ other raw overrides name).trans ?_
    exact if_neg hne.symm
  · exact exists_registersLast calls hfresh
  · rintro earlier call later g rfl hlast rfl
    refine ⟨hlast.get?_run, ?_⟩
    exact registration_holdsAt (run_isSettled defaults earlier) hlast.registered

/-- The address book, then an office with an address inside its site, then addresses anew. -/
def movedOffice : List Call :=
  addressBook ++ [.compile "Office" office [], .compile "Address" (.list []) []]

/-- An office keeps the address of the address book, though addresses were compiled anew. -/
theorem movedOffice_snapshots :
    ∃ s t, ((start .builtIn).run movedOffice).registry.get? "Office" = some s ∧
      ((start .builtIn).run addressBook).registry.get? "Address" = some t ∧
      s.HoldsAt ["site"] "home" .one t ∧
      ((start .builtIn).run movedOffice).registry.get? "Address" ≠ some t := by
  obtain ⟨_, _, _, _, hsnapshot⟩ := run_snapshots .builtIn movedOffice "Office"
  obtain ⟨hheld, declared, hread, hembedded⟩ := hsnapshot addressBook (.compile "Office" office [])
    [.compile "Address" (.list []) []] _ rfl ⟨rfl, by decide⟩ rfl
  obtain rfl := Except.ok.inj hread
  obtain ⟨t, ht, hholds⟩ := hembedded ["site"] "home" .one "Address"
    (.inside (List.mem_singleton.mpr rfl) (.here (List.mem_singleton.mpr rfl)))
  refine ⟨_, t, hheld, ht, hholds, ?_⟩
  intro hsame
  have hlengths := congrArg (Option.map fun u => u.descriptor.length) (hsame.trans ht.symm)
  exact absurd hlengths (by decide)

end Session

end FieldSchema
