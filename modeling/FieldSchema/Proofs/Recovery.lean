import FieldSchema.Proofs.DeclaredOrder
import FieldSchema.Proofs.Inlining

/-!
# What published documentation determines

A documentation tree states on each field whether it is required; what is published lists required
names on the object around them, and says nothing of roots and of the elements of arrays. Nothing is
lost: roots are never required, and elements are required exactly when their array is. So trees that
are published alike are alike.
-/

namespace FieldSchema

/-- A tree as compilations make them: elements are required as their array is, and the properties of
an object have distinct names that stand in enumeration order. -/
inductive Node.IsRegular : Node → Prop
  | leaf (type : LeafType) (notes : Annotations) : IsRegular (.leaf type notes)
  | openObject (notes : Annotations) : IsRegular (.openObject notes)
  | array {items : Node} {notes : Annotations} (same : items.required = notes.required)
      (h : items.IsRegular) : IsRegular (.array items notes)
  | object {properties : Record Node} {notes : Annotations} (distinct : properties.names.Nodup)
      (ordered : properties.names.Pairwise Record.EnumeratedBefore)
      (h : ∀ entry ∈ properties, entry.2.IsRegular) : IsRegular (.object properties notes)

/-- The documentation of a schema is such a tree, and is not required. -/
structure Schema.IsRegular (s : Schema) : Prop where
  required : s.documentation.required = false
  documentation : s.documentation.IsRegular

/-- A published schema as it should be: what it lists as required are names of its properties, in
their order and once each, and it lists some or has no list. The same holds of its items and of its
properties. -/
inductive Publication.IsTidy : Value → Prop
  | object {members : Record Value}
      (required : members.get? "required" = none ∨
        ∃ (properties : Record Value) (names : List String),
          members.get? "properties" = some (.object false properties) ∧
            members.get? "required" = some (.list (names.map .text)) ∧ names ≠ [] ∧ names.Nodup ∧
            names.Sublist properties.names)
      (items : ∀ v, members.get? "items" = some v → IsTidy v)
      (held : ∀ v, members.get? "properties" = some v →
        ∃ properties : Record Value, v = .object false properties)
      (properties : ∀ properties : Record Value,
        members.get? "properties" = some (.object false properties) →
          ∀ entry ∈ properties, IsTidy entry.2) :
      IsTidy (.object false members)

open Publication

/-! ## Compiled trees are regular -/

theorem Node.isRegular_of_children {n : Node} (h : n.children = []) : n.IsRegular := by
  cases n with
  | leaf type notes => exact .leaf type notes
  | openObject notes => exact .openObject notes
  | array items notes => cases h
  | object properties notes =>
      obtain rfl := List.map_eq_nil_iff.mp h
      exact .object List.nodup_nil .nil (List.forall_mem_nil _)

namespace Compilation

open Outcome

theorem compileArray_isRegular {ctx : FieldContext} {element : ElementType} {field : CompiledField}
    (h : compileArray ctx element = .ok field) : field.node.IsRegular := by
  obtain ⟨stated, _, h⟩ := bind_eq_ok.mp h
  cases element with
  | string =>
      obtain rfl := pure_eq_ok.mp h
      exact .array rfl (.leaf _ _)
  | integer =>
      obtain rfl := pure_eq_ok.mp h
      exact .array rfl (.leaf _ _)
  | object =>
      obtain rfl := pure_eq_ok.mp h
      exact .array rfl (Node.isRegular_of_children rfl)

/-- The object of fields with distinct names is regular when they are. -/
theorem isRegular_object {fields : List (String × CompiledField)}
    (hnodup : (fields.map Prod.fst).Nodup) (heach : ∀ field ∈ fields, field.2.node.IsRegular)
    (notes : Annotations) : (Node.object (properties fields) notes).IsRegular := by
  have hnames := Record.enumerates_ofList (names_nodes fields ▸ hnodup)
  refine .object (hnames.perm.symm.nodup (names_nodes fields ▸ hnodup)) hnames.ordered ?_
  intro entry hentry
  obtain ⟨field, hfield, rfl⟩ := (mem_properties_iff hnodup).mp hentry
  exact heach field hfield

theorem assembleBlock_isRegular {ctx : FieldContext} (type : FieldType) (stated : Keywords)
    {fields : List (String × CompiledField)} (hnodup : (fields.map Prod.fst).Nodup)
    (heach : ∀ field ∈ fields, field.2.node.IsRegular) :
    (assembleBlock ctx type stated fields).node.IsRegular := by
  cases type with
  | scalar type => exact isRegular_object hnodup heach _
  | array element => exact .array rfl (isRegular_object hnodup heach _)

/-- An array of embedded values is no more required than the schema that is embedded. -/
theorem compileEmbed_isRegular {lookup : String → Option Schema} {kind : EmbedKind}
    {name reference path : String} {field : CompiledField}
    (hlookup : ∀ reference target, lookup reference = some target → target.IsRegular)
    (h : compileEmbed lookup kind name reference path = .ok field) : field.node.IsRegular := by
  unfold compileEmbed at h
  split at h
  next => cases h
  next target htarget =>
    obtain ⟨hrequired, hregular⟩ := hlookup reference target htarget
    cases kind with
    | one =>
        obtain rfl := Except.ok.inj h
        exact hregular
    | many =>
        obtain rfl := Except.ok.inj h
        exact .array hrequired hregular

theorem compileField_isRegular {around : Surroundings} {parent : String} {head : FieldHead}
    {field : CompiledField} (h : compileField around parent head = .ok field) :
    field.node.IsRegular := by
  obtain ⟨ctx, _, h⟩ := bind_eq_ok.mp h
  cases htype : head.type with
  | scalar type =>
      rw [htype] at h
      exact Node.isRegular_of_children (compileScalar_node h).1
  | array element =>
      rw [htype] at h
      exact compileArray_isRegular h

/-- Where every schema that may be embedded is regular, so is every compiled field. -/
theorem pervades_isRegular {around : Surroundings}
    (hlookup : ∀ reference target, around.lookup reference = some target → target.IsRegular) :
    Pervades around fun _ field => field.node.IsRegular where
  field _ _ _ hfield := compileField_isRegular hfield
  block _ head _ stated _ _ hnodup heach := assembleBlock_isRegular head.type stated hnodup heach
  embed _ _ _ _ _ hfield := compileEmbed_isRegular hlookup hfield

end Compilation

/-- A schema is regular when the schemas that it may embed are. -/
theorem Schema.compile_isRegular {name : String} {raw : Value} {around : Surroundings} {s : Schema}
    {notices : List Notice}
    (hlookup : ∀ reference target, around.lookup reference = some target → target.IsRegular)
    (h : Schema.compile name raw around = .ok (s, notices)) : s.IsRegular := by
  obtain ⟨declared, fields, hdeclared, hfields, rfl, -⟩ := Schema.compile_eq_ok.mp h
  have hwell := Declaration.readAll_isWellFormed hdeclared
  refine ⟨rfl, Compilation.isRegular_object ?_ ?_ _⟩
  · exact Compilation.map_fst_compileAll hfields ▸ hwell.nodup_names
  · exact (Compilation.pervades_isRegular hlookup).compileAll hwell hfields

theorem Schema.IsCompiled.isRegular {s : Schema} (h : s.IsCompiled) : s.IsRegular :=
  h.of_compile fun _ _ _ _ _ hlookup hcompile => Schema.compile_isRegular hlookup hcompile

namespace Value.SameData

/-! ## The same data -/

theorem get? {bare : Bool} {members others : Record Value}
    (h : SameData (.object bare members) (.object bare others)) (name : String) :
    Option.Rel SameData (members.get? name) (others.get? name) := by
  generalize hv : Value.object bare members = v at h
  generalize hw : Value.object bare others = w at h
  cases h with
  | refl =>
      obtain ⟨_, rfl⟩ := Value.object.inj (hv.trans hw.symm)
      exact rel_refl _
  | list => cases hv
  | object h =>
      obtain ⟨_, rfl⟩ := Value.object.inj hv
      obtain ⟨_, rfl⟩ := Value.object.inj hw
      exact h name

theorem eq_text {s : String} {v : Value} (h : SameData (.text s) v) : v = .text s := by
  cases h
  rfl

theorem eq_texts {names : List String} {v : Value} (h : SameData (.list (names.map .text)) v) :
    v = .list (names.map .text) := by
  generalize hlist : Value.list (names.map .text) = list at h
  cases h with
  | refl => rfl
  | @list items others heach =>
      obtain rfl := Value.list.inj hlist
      clear hlist
      rw [Value.list.injEq]
      induction names generalizing others with
      | nil =>
          cases heach
          rfl
      | cons name rest ih =>
          obtain ⟨other, later, hname, hrest, rfl⟩ := List.forall₂_cons_left_iff.mp heach
          rw [hname.eq_text, ih hrest, List.map_cons]
  | object => cases hlist

end Value.SameData

theorem rel_of_map {α β : Type} {R : β → β → Prop} {f : α → β} {x y : Option α}
    (h : Option.Rel R (x.map f) (y.map f)) : Option.Rel (fun a b => R (f a) (f b)) x y := by
  cases x <;> cases y <;> cases h
  · exact .none
  · exact .some ‹_›

theorem rel_none {α β γ : Type} {R : α → β → Prop} {S : γ → β → Prop} {y : Option β}
    (h : Option.Rel R none y) : Option.Rel S none y := by
  cases h
  exact .none

namespace Node

/-! ## Trees that are published alike -/

section Alike

variable {n m : Node}

theorem rel_publicMember? (h : n.publicForm.SameData m.publicForm) (name : String) :
    Option.Rel Value.SameData (n.publicMember? name) (m.publicMember? name) := by
  unfold publicMember?
  rw [publicForm_eq_append, publicForm_eq_append] at h
  rw [publicForm_eq_append, publicForm_eq_append]
  exact h.get? name

theorem publicMember?_required_eq_some {v : Value} (h : n.publicMember? "required" = some v) :
    ∃ names : List String, v = .list (names.map .text) := by
  rw [publicMember?_required] at h
  obtain ⟨properties, _, h⟩ := Option.bind_eq_some_iff.mp h
  unfold requiredEntry at h
  split at h
  next => simp at h
  next => exact ⟨_, (Option.some.inj h).symm⟩

/-- What is published alike lists the same names as required. -/
theorem requires_iff_of_sameData (h : n.publicForm.SameData m.publicForm) (name : String) :
    Requires n.publicForm name ↔ Requires m.publicForm name := by
  have heq : m.publicMember? "required" = n.publicMember? "required" := by
    have hrel := rel_publicMember? h "required"
    generalize hn : n.publicMember? "required" = x at hrel
    generalize m.publicMember? "required" = y at hrel
    cases hrel with
    | none => rfl
    | some hv =>
        obtain ⟨names, rfl⟩ := publicMember?_required_eq_some hn
        rw [hv.eq_texts]
  rw [Requires, Requires, member_publicForm_eq, member_publicForm_eq, heq]

/-- The contents of nodes that are published alike are published alike. -/
theorem rel_items? (h : n.publicForm.SameData m.publicForm) :
    Option.Rel (fun items others : Node => items.publicForm.SameData others.publicForm)
      n.items? m.items? := by
  have hrel := rel_publicMember? h "items"
  rw [publicMember?_items, publicMember?_items] at hrel
  exact rel_of_map hrel

theorem rel_properties? (h : n.publicForm.SameData m.publicForm) :
    Option.Rel (fun properties others : Record Node =>
        (Value.ofEntries (publicForms properties)).SameData (.ofEntries (publicForms others)))
      n.properties? m.properties? := by
  have hrel := rel_publicMember? h "properties"
  rw [publicMember?_properties, publicMember?_properties] at hrel
  exact rel_of_map hrel

/-- Properties that are published alike are published alike one by one, and are required alike. -/
theorem rel_properties {properties others : Record Node} (hn : n.properties? = some properties)
    (hm : m.properties? = some others) (hdistinct : properties.names.Nodup)
    (hothers : others.names.Nodup) (h : n.publicForm.SameData m.publicForm) (name : String) :
    Option.Rel (fun node other : Node =>
        node.required = other.required ∧ node.publicForm.SameData other.publicForm)
      (properties.get? name) (others.get? name) := by
  have hforms {properties : Record Node} (hdistinct : properties.names.Nodup) :
      Record.get? (Record.ofList (publicForms properties)) name =
        (properties.get? name).map publicForm := by
    rw [Record.get?_ofList, publicForms_eq_mapValues, Record.get?_mapValues]
    rwa [publicForms_eq_mapValues, Record.names_mapValues]
  have hpublished := rel_properties? h
  rw [hn, hm] at hpublished
  have hrel := (Option.rel_some_some.mp hpublished).get? name
  rw [hforms hdistinct, hforms hothers] at hrel
  have hrequired := requires_iff_of_sameData h name
  rw [requires_publicForm_iff hn hdistinct, requires_publicForm_iff hm hothers] at hrequired
  have hrel := rel_of_map hrel
  generalize properties.get? name = x at hrel hrequired ⊢
  generalize others.get? name = y at hrel hrequired ⊢
  cases hrel with
  | none => exact .none
  | some hpublished =>
      simp only [Option.some.injEq, exists_eq_left'] at hrequired
      exact .some ⟨Bool.eq_iff_iff.mpr hrequired, hpublished⟩

/-- Nodes that are required alike and published alike are the same data when their contents are. -/
theorem sameData_of_content (hrequired : n.required = m.required)
    (h : n.publicForm.SameData m.publicForm)
    (hitems : Option.Rel (fun items others : Node => items.toValue.SameData others.toValue)
      n.items? m.items?)
    (hproperties : Option.Rel (fun properties others : Record Node =>
        ∀ name, Option.Rel (fun node other : Node => node.toValue.SameData other.toValue)
          (properties.get? name) (others.get? name))
      n.properties? m.properties?) : n.toValue.SameData m.toValue := by
  rw [toValue_eq_object n, toValue_eq_object m]
  refine .object fun name => ?_
  change Option.Rel Value.SameData (n.published? name) (m.published? name)
  have hpublished := rel_publicMember? h name
  by_cases hkeyword : name ∉ structuralNames
  · rwa [publicMember?_keyword n hkeyword, publicMember?_keyword m hkeyword] at hpublished
  simp only [structuralNames, List.mem_cons, List.not_mem_nil, or_false, not_not] at hkeyword
  rcases hkeyword with rfl | rfl | rfl | rfl | rfl
  · rwa [publicMember?_type, publicMember?_type, ← published?_type, ← published?_type] at hpublished
  · rw [published?_required, published?_required, hrequired]
    exact Value.SameData.rel_refl _
  · rw [published?_items, published?_items]
    exact rel_option_map hitems fun _ _ h => h
  · rw [published?_properties, published?_properties]
    refine rel_option_map hproperties fun properties others heach => .object fun name => ?_
    rw [propertiesToValue_eq_mapValues, propertiesToValue_eq_mapValues, Record.get?_mapValues,
      Record.get?_mapValues]
    exact rel_option_map (heach name) fun _ _ h => h
  · rwa [publicMember?_enum, publicMember?_enum] at hpublished

end Alike

/-- Regular trees that are required alike and published alike are the same data. -/
theorem sameData_of_publicForm {n m : Node} (hn : n.IsRegular) (hm : m.IsRegular)
    (hrequired : n.required = m.required) (h : n.publicForm.SameData m.publicForm) :
    n.toValue.SameData m.toValue := by
  induction hn generalizing m with
  | leaf type notes =>
      exact sameData_of_content hrequired h (rel_none (rel_items? h)) (rel_none (rel_properties? h))
  | openObject notes =>
      exact sameData_of_content hrequired h (rel_none (rel_items? h)) (rel_none (rel_properties? h))
  | @array items notes hsame _ ih =>
      refine sameData_of_content hrequired h ?_ (rel_none (rel_properties? h))
      have hitems := rel_items? h
      cases hm with
      | @array others otherNotes hotherSame hothers =>
          have hrequired : items.required = others.required :=
            hsame.trans (Eq.trans hrequired hotherSame.symm)
          cases hitems with
          | some hitems => exact .some (ih hothers hrequired hitems)
      | _ => cases hitems
  | @object properties notes hdistinct _ _ ih =>
      refine sameData_of_content hrequired h (rel_none (rel_items? h)) ?_
      have hproperties := rel_properties? h
      cases hm with
      | @object others otherNotes hothersDistinct _ hothers =>
          refine .some fun name => ?_
          have hrel := rel_properties rfl rfl hdistinct hothersDistinct h name
          generalize hproperty : properties.get? name = x at hrel
          generalize hother : others.get? name = y at hrel
          cases hrel with
          | none => exact .none
          | some hnode =>
              exact .some (ih _ (Record.mem_of_get? hproperty)
                (hothers _ (Record.mem_of_get? hother)) hnode.1 hnode.2)
      | _ => cases hproperties

/-! ## Published lists of required names -/

theorem names_publicForms (properties : Record Node) :
    Record.names (publicForms properties) = properties.names := by
  rw [publicForms_eq_mapValues, Record.names_mapValues]

theorem requiredNames_sublist (properties : Record Node) :
    (requiredNames (.object false (propertiesToValue properties))).Sublist properties.names := by
  rw [← Record.names_mapValues toValue properties, ← propertiesToValue_eq_mapValues]
  exact List.filter_sublist.map Prod.fst

/-- The published properties of a node, where they are given in enumeration order. -/
theorem ofEntries_publicForms {properties : Record Node} (hdistinct : properties.names.Nodup)
    (hordered : properties.names.Pairwise Record.EnumeratedBefore) :
    Value.ofEntries (publicForms properties) = .object false (publicForms properties) := by
  rw [← names_publicForms] at hdistinct hordered
  rw [Value.ofEntries, Record.ofList_eq_self hdistinct hordered]

/-- A published node is tidy when its published content is. -/
theorem isTidy_of_content {n : Node}
    (hitems : ∀ items, n.items? = some items → IsTidy items.publicForm)
    (hproperties : ∀ properties : Record Node, n.properties? = some properties →
      properties.names.Nodup ∧ properties.names.Pairwise Record.EnumeratedBefore ∧
        ∀ entry ∈ properties, IsTidy entry.2.publicForm) : IsTidy n.publicForm := by
  have hform : n.publicForm = .object false n.publicForm.ownEntries := by
    rw [publicForm_eq_append]
    rfl
  rw [hform]
  have hpublished (v : Value) (h : n.publicMember? "properties" = some v) :
      ∃ properties : Record Node, n.properties? = some properties ∧
        v = .object false (publicForms properties) := by
    rw [publicMember?_properties] at h
    obtain ⟨properties, hsome, rfl⟩ := Option.map_eq_some_iff.mp h
    obtain ⟨hdistinct, hordered, _⟩ := hproperties properties hsome
    exact ⟨properties, hsome, ofEntries_publicForms hdistinct hordered⟩
  refine .object ?_ ?_ ?_ ?_
  · have hrequired := n.publicMember?_required
    cases hsome : n.properties? with
    | none =>
        rw [hsome] at hrequired
        exact .inl hrequired
    | some properties =>
        obtain ⟨hdistinct, hordered, _⟩ := hproperties properties hsome
        have hsublist := requiredNames_sublist properties
        rw [hsome, Option.bind_some, requiredEntry] at hrequired
        split at hrequired
        next => exact .inl hrequired
        next hne =>
          refine .inr ⟨publicForms properties, _, ?_, hrequired, hne, hsublist.nodup hdistinct, ?_⟩
          · change n.publicMember? "properties" = _
            rw [publicMember?_properties, hsome, Option.map_some,
              ofEntries_publicForms hdistinct hordered]
          · rwa [names_publicForms]
  · intro v h
    change n.publicMember? "items" = some v at h
    rw [publicMember?_items] at h
    obtain ⟨items, hsome, rfl⟩ := Option.map_eq_some_iff.mp h
    exact hitems items hsome
  · intro v h
    obtain ⟨properties, _, rfl⟩ := hpublished v h
    exact ⟨_, rfl⟩
  · intro published h entry hentry
    obtain ⟨properties, hsome, heq⟩ := hpublished _ h
    obtain ⟨_, rfl⟩ := Value.object.inj heq
    rw [publicForms_eq_mapValues] at hentry
    obtain ⟨property, hproperty, rfl⟩ := List.mem_map.mp hentry
    exact (hproperties properties hsome).2.2 property hproperty

/-- What is published for a regular tree is tidy throughout. -/
theorem isTidy_publicForm {n : Node} (hn : n.IsRegular) : IsTidy n.publicForm := by
  induction hn with
  | leaf type notes => exact isTidy_of_content nofun nofun
  | openObject notes => exact isTidy_of_content nofun nofun
  | array _ _ ih =>
      refine isTidy_of_content (fun items hitems => ?_) nofun
      obtain rfl := Option.some.inj hitems
      exact ih
  | object hdistinct hordered _ ih =>
      refine isTidy_of_content nofun fun properties hproperties => ?_
      obtain rfl := Option.some.inj hproperties
      exact ⟨hdistinct, hordered, ih⟩

end Node

namespace Session

/-- The documentation of every schema that a registry holds can be published, and what is published
is tidy. Where it is the same data for two schemas, out of whatever registries, their documentation
is the same data. -/
theorem run_published_determines (defaults otherDefaults : TypeDefaults)
    (calls otherCalls : List Call) {name otherName : String} {s t : Schema}
    (hs : ((start defaults).run calls).registry.get? name = some s)
    (ht : ((start otherDefaults).run otherCalls).registry.get? otherName = some t) :
    ∃ published other, schemaObject s.documentation.toValue = .ok published ∧
      schemaObject t.documentation.toValue = .ok other ∧ IsTidy published ∧
      (published.SameData other → s.documentation.toValue.SameData t.documentation.toValue) := by
  have hfirst := ((run_isSettled defaults calls).provenance name s hs).1.isRegular
  have hsecond := ((run_isSettled otherDefaults otherCalls).provenance otherName t ht).1.isRegular
  refine ⟨_, _, Node.schemaObject_toValue _, Node.schemaObject_toValue _, ?_, fun hsame => ?_⟩
  · exact Node.isTidy_publicForm hfirst.documentation
  · have hrequired := hfirst.required.trans hsecond.required.symm
    exact Node.sameData_of_publicForm hfirst.documentation hsecond.documentation hrequired hsame

/-- A letter that embeds an address. -/
def embeddedLetter : List Call :=
  [.compile "Address" addressDeclarations [],
    .compile "Letter" (.list [.list [.text "embeds_one", .text "to", .text "Address"]]) []]

/-- A letter with its address written out. -/
def writtenLetter : List Call :=
  [.compile "Letter"
    (.list [.list [.text "optional", .text "to", .text "object",
      .object false [("title", .text "Address"), ("fields", addressDeclarations)]]]) []]

/-- The two letters are documented alike, for they are published alike. -/
theorem letters_sameData :
    ∃ s t, ((start .builtIn).run embeddedLetter).registry.get? "Letter" = some s ∧
      ((start .builtIn).run writtenLetter).registry.get? "Letter" = some t ∧
      schemaObject s.documentation.toValue = schemaObject t.documentation.toValue ∧
      s.documentation.toValue.SameData t.documentation.toValue := by
  obtain ⟨s, hs⟩ : ∃ s, ((start .builtIn).run embeddedLetter).registry.get? "Letter" = some s :=
    ⟨_, rfl⟩
  obtain ⟨t, ht⟩ : ∃ t, ((start .builtIn).run writtenLetter).registry.get? "Letter" = some t :=
    ⟨_, rfl⟩
  obtain ⟨published, other, hpublished, hother, _, hsame⟩ :=
    run_published_determines .builtIn .builtIn embeddedLetter writtenLetter hs ht
  have heq : schemaObject s.documentation.toValue = schemaObject t.documentation.toValue := by
    obtain rfl := Option.some.inj (hs.symm.trans rfl)
    obtain rfl := Option.some.inj (ht.symm.trans rfl)
    rfl
  have hpublish : published = other := Except.ok.inj (hpublished.symm.trans (heq.trans hother))
  exact ⟨s, t, hs, ht, heq, hsame (hpublish ▸ .refl published)⟩

end Session

end FieldSchema
