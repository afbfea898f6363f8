import FieldSchema.Proofs.Registrations

/-!
# Schemas inside schemas

Embedding takes a schema as it was compiled, so that the documentation of a schema contains the
trees of the schemas it embeds, of those that they embed, and so on. A schema contains a tree that
was compiled under a name exactly when it embeds a schema of that name or one that contains such a
tree. It never embeds its own name; so it contains a tree of its own name only when the name was
compiled before and came back through another schema.
-/

namespace FieldSchema

namespace Node

/-- The nodes directly inside a node. -/
def children : Node → List Node
  | .leaf _ _ => []
  | .array items _ => [items]
  | .openObject _ => []
  | .object properties _ => properties.map Prod.snd

/-- A node stands inside another, at any depth. -/
def IsInside : Node → Node → Prop :=
  Relation.TransGen fun inner outer => inner ∈ outer.children

/-- A node is another, or stands inside it. -/
def IsWithin : Node → Node → Prop :=
  Relation.ReflTransGen fun inner outer => inner ∈ outer.children

end Node

/-- A tree that was compiled under a name stands inside the documentation of a schema. -/
def Schema.ContainsTreeOf (s : Schema) (name : String) : Prop :=
  ∃ t : Schema, t.IsCompiled ∧ t.name = name ∧ t.documentation.IsInside s.documentation

mutual

/-- The schemas that a declaration embeds, inside its block too. -/
def Declaration.references : Declaration → List String
  | .field _ => []
  | .block _ inner => Declaration.blockReferences inner
  | .embed _ _ reference => [reference]

/-- The schemas that the declarations of a block embed. -/
def Declaration.blockReferences : List Declaration → List String
  | [] => []
  | d :: rest => d.references ++ Declaration.blockReferences rest

end

/-! ## Roots of compiled schemas -/

namespace Node

/-- The name of the schema of which a node is the root. Only such a root has a title imposed on
it. -/
def rootOf? (n : Node) : Option String := n.notes.imposed.title

theorem isInside_iff {inner outer : Node} :
    inner.IsInside outer ↔ ∃ child ∈ outer.children, inner.IsWithin child := by
  rw [IsInside, Relation.TransGen.tail'_iff]
  exact ⟨fun ⟨child, hwithin, hchild⟩ => ⟨child, hchild, hwithin⟩,
    fun ⟨child, hchild, hwithin⟩ => ⟨child, hwithin, hchild⟩⟩

theorem isWithin_iff {inner outer : Node} :
    inner.IsWithin outer ↔ inner = outer ∨ inner.IsInside outer := by
  rw [IsWithin, IsInside, Relation.reflTransGen_iff_eq_or_transGen, eq_comm]

/-- A root within a node that is no root itself is within a child. -/
theorem isWithin_iff_of_not_root {inner outer : Node} (hinner : inner.rootOf?.isSome = true)
    (houter : outer.rootOf? = none) :
    inner.IsWithin outer ↔ ∃ child ∈ outer.children, inner.IsWithin child := by
  rw [isWithin_iff, isInside_iff]
  refine or_iff_right ?_
  rintro rfl
  simp [houter] at hinner

end Node

theorem Schema.compile_rootOf? {name : String} {raw : Value} {around : Surroundings} {s : Schema}
    {notices : List Notice} (h : Schema.compile name raw around = .ok (s, notices)) :
    s.documentation.rootOf? = some name := by
  obtain ⟨declared, fields, _, _, rfl, -⟩ := Schema.compile_eq_ok.mp h
  rfl

theorem Schema.IsCompiled.rootOf? {s : Schema} (h : s.IsCompiled) :
    s.documentation.rootOf? = some s.name :=
  h.of_compile fun _ _ _ _ _ _ hcompile =>
    (Schema.compile_name hcompile).symm ▸ Schema.compile_rootOf? hcompile

/-! ## What a compilation brings in -/

/-- A root stands within a schema that one of some references means. -/
def Node.IsWithinAny (root : Node) (lookup : String → Option Schema) (references : List String) :
    Prop :=
  ∃ reference ∈ references, ∃ t, lookup reference = some t ∧ root.IsWithin t.documentation

namespace Node

variable {root : Node} {lookup : String → Option Schema}

theorem not_isWithinAny_nil : ¬root.IsWithinAny lookup [] := by
  simp [IsWithinAny]

theorem isWithinAny_append {references others : List String} :
    root.IsWithinAny lookup (references ++ others) ↔
      root.IsWithinAny lookup references ∨ root.IsWithinAny lookup others := by
  simp only [IsWithinAny, List.mem_append, or_and_right, exists_or]

theorem not_isWithin_of_no_children {n : Node} (hroot : root.rootOf?.isSome = true)
    (hn : n.rootOf? = none) (hchildren : n.children = []) : ¬root.IsWithin n := by
  rw [isWithin_iff_of_not_root hroot hn, hchildren]
  simp

theorem isWithin_array_iff {items : Node} {notes : Annotations}
    (hroot : root.rootOf?.isSome = true) (hnotes : notes.imposed.title = none) :
    root.IsWithin (.array items notes) ↔ root.IsWithin items := by
  have hnode : (array items notes).rootOf? = none := hnotes
  rw [isWithin_iff_of_not_root hroot hnode]
  simp [children]

end Node

namespace Compilation

theorem names_nodes (fields : List (String × CompiledField)) :
    Record.names (fields.map fun field => (field.1, field.2.node)) = fields.map Prod.fst := by
  simp [Record.names]

theorem mem_properties_iff {fields : List (String × CompiledField)}
    (hnodup : (fields.map Prod.fst).Nodup) {entry : String × Node} :
    entry ∈ properties fields ↔ ∃ field ∈ fields, (field.1, field.2.node) = entry :=
  (Record.ofList_perm (names_nodes fields ▸ hnodup)).mem_iff.trans List.mem_map

theorem get?_properties {fields : List (String × CompiledField)}
    (hnodup : (fields.map Prod.fst).Nodup) (name : String) :
    Record.get? (properties fields) name = (Record.get? fields name).map CompiledField.node := by
  rw [properties, Record.get?_ofList (names_nodes fields ▸ hnodup)]
  exact Record.get?_mapValues CompiledField.node fields name

theorem isWithin_object_iff {root : Node} {fields : List (String × CompiledField)}
    (notes : Annotations) (hroot : root.rootOf?.isSome = true)
    (hnotes : notes.imposed.title = none) (hnodup : (fields.map Prod.fst).Nodup) :
    root.IsWithin (.object (properties fields) notes) ↔
      ∃ field ∈ fields, root.IsWithin field.2.node := by
  have hnode : (Node.object (properties fields) notes).rootOf? = none := hnotes
  rw [Node.isWithin_iff_of_not_root hroot hnode]
  simp only [Node.children, List.mem_map]
  constructor
  · rintro ⟨_, ⟨entry, hentry, rfl⟩, hwithin⟩
    obtain ⟨field, hfield, rfl⟩ := (mem_properties_iff hnodup).mp hentry
    exact ⟨field, hfield, hwithin⟩
  · rintro ⟨field, hfield, hwithin⟩
    exact ⟨_, ⟨_, (mem_properties_iff hnodup).mpr ⟨field, hfield, rfl⟩, rfl⟩, hwithin⟩

/-- The node of a scalar field has no children, and no title is imposed on it. -/
theorem compileScalar_node {ctx : FieldContext} {type : ScalarType} {field : CompiledField}
    (h : compileScalar ctx type = .ok field) :
    field.node.children = [] ∧ field.node.rootOf? = none := by
  cases compileScalar_madeAs h with
  | choice h =>
      obtain ⟨values, _, h⟩ := Outcome.bind_eq_ok.mp h
      obtain ⟨given, _, h⟩ := Outcome.bind_eq_ok.mp h
      obtain ⟨default, _, h⟩ := Outcome.bind_eq_ok.mp h
      obtain rfl := Outcome.pure_eq_ok.mp h
      exact ⟨rfl, rfl⟩
  | plain _ _ htitle h =>
      obtain ⟨stated, _, h⟩ := Outcome.bind_eq_ok.mp h
      obtain rfl := Outcome.pure_eq_ok.mp h
      exact ⟨rfl, htitle⟩
  | temporal _ h =>
      obtain ⟨stated, _, h⟩ := Outcome.bind_eq_ok.mp h
      obtain ⟨sample, _, h⟩ := Outcome.bind_eq_ok.mp h
      obtain rfl := Outcome.pure_eq_ok.mp h
      exact ⟨rfl, rfl⟩
  | openObject hfield =>
      subst hfield
      exact ⟨rfl, rfl⟩

/-- No root stands within a field that is no block and no embed. -/
theorem not_isWithin_compileField {around : Surroundings} {parent : String} {head : FieldHead}
    {field : CompiledField} (h : compileField around parent head = .ok field) {root : Node}
    (hroot : root.rootOf?.isSome = true) : ¬root.IsWithin field.node := by
  obtain ⟨ctx, _, h⟩ := Outcome.bind_eq_ok.mp h
  split at h
  next =>
    obtain ⟨hchildren, hnode⟩ := compileScalar_node h
    exact Node.not_isWithin_of_no_children hroot hnode hchildren
  next element _ =>
    obtain ⟨stated, _, h⟩ := Outcome.bind_eq_ok.mp h
    cases element <;>
      (obtain rfl := Outcome.pure_eq_ok.mp h
       rw [Node.isWithin_array_iff hroot rfl]
       exact Node.not_isWithin_of_no_children hroot rfl rfl)

theorem isWithin_compileEmbed_iff {lookup : String → Option Schema} {kind : EmbedKind}
    {name reference path : String} {field : CompiledField}
    (h : compileEmbed lookup kind name reference path = .ok field) {root : Node}
    (hroot : root.rootOf?.isSome = true) :
    root.IsWithin field.node ↔ root.IsWithinAny lookup [reference] := by
  have hany : root.IsWithinAny lookup [reference] ↔
      ∃ t, lookup reference = some t ∧ root.IsWithin t.documentation := by
    simp [Node.IsWithinAny]
  unfold compileEmbed at h
  split at h
  next => cases h
  next target htarget =>
    simp only [hany, htarget, Option.some.injEq, exists_eq_left']
    cases kind with
    | one =>
        obtain rfl := Except.ok.inj h
        exact Iff.rfl
    | many =>
        obtain rfl := Except.ok.inj h
        exact Node.isWithin_array_iff hroot rfl

mutual

/-- The roots within a compiled declaration are those within the schemas it embeds. -/
theorem isWithin_compileOne_iff {around : Surroundings} (parent : String) (d : Declaration)
    (hd : d.IsWellFormed) {field : CompiledField} (h : compileOne around parent d = .ok field)
    {root : Node} (hroot : root.rootOf?.isSome = true) :
    root.IsWithin field.node ↔ root.IsWithinAny around.lookup d.references := by
  cases d with
  | field head =>
      exact iff_of_false (not_isWithin_compileField h hroot) Node.not_isWithinAny_nil
  | block head inner =>
      obtain ⟨ctx, stated, fields, _, _, hfields, rfl⟩ := compileBlock_eq_ok.mp h
      have hnodup : (fields.map Prod.fst).Nodup :=
        map_fst_compileAll hfields ▸ hd.2.2.nodup_names
      rw [Declaration.references, ← isWithin_compileAll_iff ctx.path inner hd.2.2 hfields hroot]
      cases htype : head.type with
      | scalar type => exact isWithin_object_iff _ hroot rfl hnodup
      | array element =>
          exact (Node.isWithin_array_iff hroot rfl).trans (isWithin_object_iff _ hroot rfl hnodup)
  | embed kind name reference => exact isWithin_compileEmbed_iff h hroot
termination_by sizeOf d

theorem isWithin_compileAll_iff {around : Surroundings} (parent : String)
    (block : List Declaration) (hblock : Declaration.BlockIsWellFormed block)
    {fields : List (String × CompiledField)} (h : compileAll around parent block = .ok fields)
    {root : Node} (hroot : root.rootOf?.isSome = true) :
    (∃ field ∈ fields, root.IsWithin field.2.node) ↔
      root.IsWithinAny around.lookup (Declaration.blockReferences block) := by
  cases block with
  | nil =>
      obtain rfl := Except.ok.inj h
      simp [Declaration.blockReferences, Node.not_isWithinAny_nil]
  | cons d rest =>
      obtain ⟨first, others, hfirst, hothers, rfl⟩ := compileAll_cons_eq_ok.mp h
      rw [Declaration.blockReferences, Node.isWithinAny_append,
        ← isWithin_compileOne_iff parent d hblock.1 hfirst hroot,
        ← isWithin_compileAll_iff parent rest hblock.2.2 hothers hroot]
      simp
termination_by sizeOf block

end

mutual

/-- A compilation that succeeds has found every schema it refers to. -/
theorem lookup_of_compileOne {around : Surroundings} (parent : String) (d : Declaration)
    {field : CompiledField} (h : compileOne around parent d = .ok field) :
    ∀ reference ∈ d.references, (around.lookup reference).isSome = true := by
  cases d with
  | field head => simp [Declaration.references]
  | block head inner =>
      obtain ⟨ctx, stated, fields, _, _, hfields, _⟩ := compileBlock_eq_ok.mp h
      exact lookup_of_compileAll ctx.path inner hfields
  | embed kind name reference =>
      rw [compileOne, compileEmbed] at h
      intro other hother
      obtain rfl := List.mem_singleton.mp hother
      split at h
      next => cases h
      next target htarget => simp [htarget]
termination_by sizeOf d

theorem lookup_of_compileAll {around : Surroundings} (parent : String) (block : List Declaration)
    {fields : List (String × CompiledField)} (h : compileAll around parent block = .ok fields) :
    ∀ reference ∈ Declaration.blockReferences block,
      (around.lookup reference).isSome = true := by
  cases block with
  | nil => simp [Declaration.blockReferences]
  | cons d rest =>
      obtain ⟨first, others, hfirst, hothers, _⟩ := compileAll_cons_eq_ok.mp h
      intro reference hreference
      rcases List.mem_append.mp hreference with hone | hrest
      · exact lookup_of_compileOne parent d hfirst reference hone
      · exact lookup_of_compileAll parent rest hothers reference hrest
termination_by sizeOf block

end

end Compilation

namespace Schema

/-- A compiled schema contains a tree of a name exactly when one of the schemas that it embeds has
that name or contains such a tree. -/
theorem compile_containsTreeOf_iff {name : String} {raw : Value} {around : Surroundings}
    {s : Schema} {notices : List Notice} {declared : List Declaration}
    (hembeddable : ∀ reference t, around.lookup reference = some t → t.IsCompiled)
    (hread : Declaration.readAll raw = .ok declared)
    (h : Schema.compile name raw around = .ok (s, notices)) (other : String) :
    s.ContainsTreeOf other ↔ ∃ reference ∈ Declaration.blockReferences declared,
      ∃ t, around.lookup reference = some t ∧ (t.name = other ∨ t.ContainsTreeOf other) := by
  obtain ⟨_, fields, hread', hfields, rfl, -⟩ := Schema.compile_eq_ok.mp h
  obtain rfl := Except.ok.inj (hread.symm.trans hread')
  have hwell := Declaration.readAll_isWellFormed hread
  have hnodup : (fields.map Prod.fst).Nodup :=
    Compilation.map_fst_compileAll hfields ▸ hwell.nodup_names
  have hinside : ∀ root : Node, root.rootOf?.isSome = true →
      (root.IsInside (ofFields name fields).documentation ↔
        root.IsWithinAny around.lookup (Declaration.blockReferences declared)) := by
    intro root hroot
    -- the root of the schema itself has the same children as an object without a title
    rw [← Compilation.isWithin_compileAll_iff "" declared hwell hfields hroot,
      ← Compilation.isWithin_object_iff ⟨false, {}, {}⟩ hroot rfl hnodup,
      Node.isWithin_iff_of_not_root hroot rfl, Node.isInside_iff]
    rfl
  constructor
  · rintro ⟨t, ht, rfl, hstands⟩
    obtain ⟨reference, hreference, target, htarget, hwithin⟩ :=
      (hinside t.documentation (by simp [ht.rootOf?])).mp hstands
    refine ⟨reference, hreference, target, htarget, ?_⟩
    rcases Node.isWithin_iff.mp hwithin with heq | hdeep
    · left
      have hroots := congrArg Node.rootOf? heq
      rw [ht.rootOf?, (hembeddable reference target htarget).rootOf?] at hroots
      exact (Option.some.inj hroots).symm
    · exact .inr ⟨t, ht, rfl, hdeep⟩
  · rintro ⟨reference, hreference, target, htarget, rfl | ⟨t, ht, rfl, hdeep⟩⟩
    · have htargetCompiled := hembeddable reference target htarget
      refine ⟨target, htargetCompiled, rfl, (hinside _ (by simp [htargetCompiled.rootOf?])).mpr ?_⟩
      exact ⟨reference, hreference, target, htarget, Node.isWithin_iff.mpr (.inl rfl)⟩
    · refine ⟨t, ht, rfl, (hinside _ (by simp [ht.rootOf?])).mpr ?_⟩
      exact ⟨reference, hreference, target, htarget, Node.isWithin_iff.mpr (.inr hdeep)⟩

end Schema

/-! ## What registries hold -/

namespace Registry

/-- A compilation in a registry does not embed its own name, and its schema contains a tree exactly
when a schema that it embeds has the tree's name or contains it. -/
theorem compile_containsTreeOf_iff {r : Registry} (hr : r.IsSettled) {name : String} {raw : Value}
    {overrides : Record Value} {s : Schema}
    (h : (r.compile name raw overrides).outcome = .ok s) :
    ∃ declared, Declaration.readAll raw = .ok declared ∧
      name ∉ Declaration.blockReferences declared ∧
      ∀ other, s.ContainsTreeOf other ↔
        ∃ reference ∈ Declaration.blockReferences declared,
          ∃ t, r.get? reference = some t ∧ (reference = other ∨ t.ContainsTreeOf other) := by
  obtain ⟨_, notices, hcompile⟩ := compile_ok_state h
  obtain ⟨declared, fields, hread, hfields, _⟩ := Schema.compile_eq_ok.mp hcompile
  have hfound := Compilation.lookup_of_compileAll "" declared hfields
  have hown : name ∉ Declaration.blockReferences declared := by
    intro hmem
    obtain ⟨t, ht⟩ := Option.isSome_iff_exists.mp (hfound name hmem)
    exact (lookup_surroundings_iff.mp ht).1 rfl
  refine ⟨declared, hread, hown, fun other => ?_⟩
  rw [Schema.compile_containsTreeOf_iff (fun reference t ht =>
    (hr.provenance reference t (lookup_surroundings_iff.mp ht).2).1) hread hcompile]
  constructor
  · rintro ⟨reference, hreference, t, ht, hother⟩
    have hheld := (lookup_surroundings_iff.mp ht).2
    exact ⟨reference, hreference, t, hheld, (hr.provenance reference t hheld).2 ▸ hother⟩
  · rintro ⟨reference, hreference, t, hheld, hother⟩
    have hne : reference ≠ name := fun heq => hown (heq ▸ hreference)
    exact ⟨reference, hreference, t, lookup_surroundings_iff.mpr ⟨hne, hheld⟩,
      (hr.provenance reference t hheld).2.symm ▸ hother⟩

/-- Every tree inside a schema that is held has a name that is held. -/
def KnowsTrees (r : Registry) : Prop :=
  ∀ name s other, r.get? name = some s → s.ContainsTreeOf other → r.has other = true

theorem KnowsTrees.compile {r : Registry} (hr : r.IsSettled) (hknows : r.KnowsTrees) (name : String)
    (raw : Value) (overrides : Record Value) :
    (r.compile name raw overrides).state.KnowsTrees := by
  cases houtcome : (r.compile name raw overrides).outcome with
  | error failure =>
      have hsame := compile_error_sameAnswers houtcome
      intro holder t other ht hother
      rw [has, hsame.entries]
      exact hknows holder t other (hsame.entries holder ▸ ht) hother
  | ok s =>
      obtain ⟨_, _, _, hcontains⟩ := compile_containsTreeOf_iff hr houtcome
      have hstays : ∀ other, r.has other = true →
          (r.compile name raw overrides).state.has other = true := by
        intro other hother
        rw [(compile_ok_state houtcome).1, has, get?_hold]
        split
        next => rfl
        next => exact hother
      intro holder t other ht hother
      apply hstays
      rw [(compile_ok_state houtcome).1, get?_hold] at ht
      split at ht
      next =>
        obtain rfl := Option.some.inj ht
        obtain ⟨reference, _, u, hheld, rfl | hdeep⟩ := (hcontains other).mp hother
        · simp [has, hheld]
        · exact hknows reference u other hheld hdeep
      next => exact hknows holder t other ht hother

end Registry

namespace Session

theorem run_knowsTrees (defaults : TypeDefaults) (calls : List Call) :
    ((start defaults).run calls).registry.KnowsTrees := by
  have hboth : ((start defaults).run calls).registry.IsSettled ∧
      ((start defaults).run calls).registry.KnowsTrees := by
    apply run_registry_invariant (P := fun r => r.IsSettled ∧ r.KnowsTrees)
    · rintro r name ⟨hr, hknows⟩
      refine ⟨Registry.declare_isSettled hr name, fun holder s other hs hother => ?_⟩
      rw [Registry.get?_declare] at hs
      rw [Registry.has, Registry.get?_declare]
      exact hknows holder s other hs hother
    · rintro r name raw overrides ⟨hr, hknows⟩
      exact ⟨Registry.compile_isSettled hr name raw overrides,
        hknows.compile hr name raw overrides⟩
    · exact fun r hr => ⟨⟨hr.1.compiled_iff, hr.1.provenance⟩, hr.2⟩
    · exact ⟨run_isSettled defaults [],
        fun name s _ hs => absurd hs (by simp [start, Registry.get?, NameTable.get?])⟩
  exact hboth.2

/-- A schema contains a tree of its own name only after the name was registered twice. -/
theorem two_le_count_of_containsTreeOf (defaults : TypeDefaults) (calls : List Call) {name : String}
    {s : Schema} (hs : ((start defaults).run calls).registry.get? name = some s)
    (hown : s.ContainsTreeOf name) :
    2 ≤ ((start defaults).registeredNames calls).count name := by
  induction calls using List.reverseRecOn with
  | nil => exact absurd hs (by simp [run, start, Registry.get?, NameTable.get?])
  | append_singleton calls call ih =>
      have hsettled := run_isSettled defaults calls
      have hknows := run_knowsTrees defaults calls
      have hregistered := mem_run_names_iff defaults calls name
      rw [registeredNames, registrations_concat, List.map_append, List.count_append,
        ← registeredNames]
      rw [run_concat] at hs
      rcases ((start defaults).run calls).step_registry_cases call with
        ⟨g, hg, _, houtcome, hstate⟩ | ⟨hnone, _⟩
      · rw [hg]
        rw [hstate, (Registry.compile_ok_state houtcome).1, Registry.get?_hold] at hs
        split at hs
        next heq =>
          -- the tree came back through another schema, which knew the name
          subst heq
          obtain rfl := Option.some.inj hs
          obtain ⟨_, _, hfresh, hcontains⟩ :=
            Registry.compile_containsTreeOf_iff hsettled houtcome
          obtain ⟨reference, hreference, t, hheld, rfl | hdeep⟩ := (hcontains g.name).mp hown
          · exact absurd hreference hfresh
          · have hearlier := hknows reference t g.name hheld hdeep
            have hmem := hregistered.mp ((NameTable.isSome_get?_iff _ g.name).mp hearlier)
            have hcount := List.count_pos_iff.mpr hmem
            simp
            omega
        next => exact Nat.le_add_right_of_le (ih hs)
      · rw [get?_step_of_not_registered hnone] at hs
        exact Nat.le_add_right_of_le (ih hs)

/-- After any run, a schema contains a tree that was compiled under its own name only when the name
was registered more than once. A compilation never embeds the name that it compiles, and its schema
contains a tree of that name exactly when one of the schemas that it embeds contains one. -/
theorem run_containsTreeOf_own (defaults : TypeDefaults) (calls : List Call) :
    (∀ name s, ((start defaults).run calls).registry.get? name = some s →
      s.ContainsTreeOf name → 2 ≤ ((start defaults).registeredNames calls).count name) ∧
    ∀ name raw overrides s,
      (((start defaults).run calls).registry.compile name raw overrides).outcome = .ok s →
      ∃ declared, Declaration.readAll raw = .ok declared ∧
        name ∉ Declaration.blockReferences declared ∧
        (s.ContainsTreeOf name ↔ ∃ reference ∈ Declaration.blockReferences declared,
          ∃ t, ((start defaults).run calls).registry.get? reference = some t ∧
            t.ContainsTreeOf name) := by
  refine ⟨fun name s hs hown => two_le_count_of_containsTreeOf defaults calls hs hown, ?_⟩
  intro name raw overrides s h
  obtain ⟨declared, hread, hfresh, hcontains⟩ :=
    Registry.compile_containsTreeOf_iff (run_isSettled defaults calls) h
  refine ⟨declared, hread, hfresh, (hcontains name).trans ⟨?_, ?_⟩⟩
  · rintro ⟨reference, hreference, t, hheld, rfl | hdeep⟩
    · exact absurd hreference hfresh
    · exact ⟨reference, hreference, t, hheld, hdeep⟩
  · rintro ⟨reference, hreference, t, hheld, hdeep⟩
    exact ⟨reference, hreference, t, hheld, .inr hdeep⟩

/-- Authors are compiled, then books, which embed their author. -/
def authorsAndBooks : List Call :=
  [.compile "Author" (.list [.list [.text "required", .text "name", .text "string"]]) [],
    .compile "Book" (.list [.list [.text "embeds_one", .text "author", .text "Author"]]) []]

/-- Declarations of an author who has books. -/
def withBooks : Value :=
  .list [.list [.text "embeds_many", .text "books", .text "Book"]]

def authorNode : Node :=
  .object [("name", .leaf .string ⟨true, {}, {}⟩)] ⟨false, {}, { title := some "Author" }⟩

def bookNode : Node :=
  .object [("author", authorNode)] ⟨false, {}, { title := some "Book" }⟩

theorem authorNode_isInside (books author : Annotations) :
    authorNode.IsInside (.object [("books", .array bookNode books)] author) := by
  have hbook : authorNode ∈ bookNode.children := by simp [bookNode, Node.children]
  have hbooks : bookNode ∈ (Node.array bookNode books).children := by simp [Node.children]
  exact ((Relation.TransGen.single hbook).tail hbooks).tail (by simp [Node.children])

/-- The author of the first compilation stands in the books of the second one. -/
theorem withBooks_containsTreeOf :
    ∃ s, ((start .builtIn).run (authorsAndBooks ++ [.compile "Author" withBooks []])).registry.get?
        "Author" = some s ∧
      (((start .builtIn).run authorsAndBooks).registry.compile "Author" withBooks []).outcome =
        .ok s ∧ s.ContainsTreeOf "Author" := by
  have hauthor := ((run_isSettled .builtIn authorsAndBooks).provenance "Author" _ rfl).1
  exact ⟨_, rfl, rfl, _, hauthor, rfl, authorNode_isInside _ _⟩

theorem withBooks_containsTreeOf_own :
    ∃ s, (((start .builtIn).run authorsAndBooks).registry.compile "Author" withBooks []).outcome =
        .ok s ∧
      2 ≤ ((start .builtIn).registeredNames
        (authorsAndBooks ++ [.compile "Author" withBooks []])).count "Author" ∧
      ∃ declared, Declaration.readAll withBooks = .ok declared ∧
        "Author" ∉ Declaration.blockReferences declared ∧
        (s.ContainsTreeOf "Author" ↔ ∃ reference ∈ Declaration.blockReferences declared,
          ∃ t, ((start .builtIn).run authorsAndBooks).registry.get? reference = some t ∧
            t.ContainsTreeOf "Author") := by
  obtain ⟨s, hheld, hcompile, hcontains⟩ := withBooks_containsTreeOf
  exact ⟨s, hcompile, (run_containsTreeOf_own .builtIn _).1 "Author" s hheld hcontains,
    (run_containsTreeOf_own .builtIn authorsAndBooks).2 "Author" withBooks [] s hcompile⟩

/-- A schema may contain itself: a name that is compiled anew takes in its earlier tree through a
schema that had embedded it. -/
theorem exists_containsTreeOf_own :
    ¬∀ (defaults : TypeDefaults) (calls : List Call) (name : String) (s : Schema),
      ((start defaults).run calls).registry.get? name = some s → ¬s.ContainsTreeOf name := by
  intro h
  obtain ⟨s, hheld, _, hcontains⟩ := withBooks_containsTreeOf
  exact h .builtIn _ "Author" s hheld hcontains

end Session

end FieldSchema
