import FieldSchema.Proofs.Enforcement
import FieldSchema.Proofs.Failures
import FieldSchema.Proofs.Positions

/-!
# The form of documentation trees

Whatever options a field has, and wherever they come from, what its node publishes has a fixed form.
Keywords have values of their own kind; an array has items, and no other node has any; members are
known of objects only; and a choice lists texts, beside which there is no format and no default but
a text. Four types of field have a format of their own, which no option replaces, and dates always
have an example. Literals make this so, so that the type defaults, which are used as they are given,
have to be JSON data.
-/

namespace FieldSchema

open Outcome

/-- Keywords whose values are numbers. -/
def numberKeywords : List String := ["minimum", "maximum", "minLength", "maxLength"]

/-- Keywords whose values are texts. -/
def textKeywords : List String := ["format", "pattern", "description", "title"]

/-- Keywords whose values are flags. -/
def flagKeywords : List String := ["nullable", "deprecated", "readOnly", "writeOnly"]

/-- A node publishes a choice among texts: there is at least one, no format stands beside them, and
a default is a text. -/
structure Node.OffersChoice (n : Node) (listed : Value) : Prop where
  type : n.published? "type" = some (.text "string")
  values : ∃ values : List String, values ≠ [] ∧ listed = .list (values.map .text)
  format : n.published? "format" = none
  default : ∀ default, n.published? "default" = some default → ∃ text, default = .text text

/-- What a node publishes is well formed, the nodes inside it aside. -/
structure Node.IsWellFormed (n : Node) : Prop where
  /-- Requiredness is a flag, and the items of an array repeat it. -/
  required : ∃ flag, n.published? "required" = some (.bool flag) ∧
    ∀ items, n.published? "items" = some items → items.member "required" = .bool flag
  items_iff : (∃ items, n.published? "items" = some items) ↔
    n.published? "type" = some (.text "array")
  array : ∀ items, n.published? "items" = some items →
    n.published? "properties" = none ∧ n.published? "enum" = none
  properties : ∀ held, n.published? "properties" = some held →
    n.published? "type" = some (.text "object")
  choice : ∀ listed, n.published? "enum" = some listed → n.OffersChoice listed
  number : ∀ name ∈ numberKeywords, ∀ v, n.published? name = some v → ∃ x, v = .number x
  text : ∀ name ∈ textKeywords, ∀ v, n.published? name = some v → ∃ text, v = .text text
  flag : ∀ name ∈ flagKeywords, ∀ v, n.published? name = some v → ∃ flag, v = .bool flag

/-- The format that a type of field imposes. -/
def ScalarType.imposedFormat? : ScalarType → Option String
  | .date => some "date"
  | .datetime => some "date-time"
  | .uuid => some "uuid"
  | .decimal => some "double"
  | _ => none

/-- What a node publishes suits a type of field: the format is the one that the type imposes, and a
date has an example, which is a text. -/
structure Node.SuitsType (n : Node) (type : ScalarType) : Prop where
  format : ∀ format, type.imposedFormat? = some format →
    n.published? "format" = some (.text format)
  sample : type = .date ∨ type = .datetime → ∃ text, n.published? "example" = some (.text text)

/-! ## What single nodes publish -/

namespace Node

/-- A keyword that nothing is imposed on is published as it is stated. -/
theorem published?_stated (n : Node) {name : String}
    (hname : name ∉ ["enum", "items", "properties", "type", "required", "format", "title",
      "example"]) :
    n.published? name = Record.get? (n.notes.stated.entries n.notes.imposed) name := by
  simp only [List.mem_cons, List.not_mem_nil, or_false, not_or] at hname
  obtain ⟨henum, hitems, hproperties, htype, hrequired, hformat, htitle, hexample⟩ := hname
  have hcontent : Record.get? n.content name = none :=
    n.get?_content (by simp [henum, hitems, hproperties])
  simp [published?, ownEntries_toValue, entriesAround, Record.get?_append, Record.get?_cons,
    get?_unplaced, hcontent, htype, hrequired, hformat, htitle, hexample]

theorem published?_number (n : Node) {name : String} (hname : name ∈ numberKeywords) :
    ∃ number : Option Float, n.published? name = number.map .number := by
  simp only [numberKeywords, List.mem_cons, List.not_mem_nil, or_false] at hname
  rcases hname with rfl | rfl | rfl | rfl
  all_goals
    rw [n.published?_stated (by decide)]
    simp [Keywords.entries, Record.get?_ofOption, Record.get?_append]

theorem published?_flag (n : Node) {name : String} (hname : name ∈ flagKeywords) :
    ∃ flag : Option Bool, n.published? name = flag.map .bool := by
  simp only [flagKeywords, List.mem_cons, List.not_mem_nil, or_false] at hname
  rcases hname with rfl | rfl | rfl | rfl
  all_goals
    rw [n.published?_stated (by decide)]
    simp [Keywords.entries, Record.get?_ofOption, Record.get?_append]

theorem published?_format (n : Node) : n.published? "format" = n.format.map .text := by
  have hcontent : Record.get? n.content "format" = none := n.get?_content (by decide)
  cases hstated : n.notes.stated.format <;> cases himposed : n.notes.imposed.format <;>
    simp [published?, ownEntries_toValue, entriesAround, Keywords.entries, Record.get?_append,
      Record.get?_cons, Record.get?_ofOption, get?_unplaced, get?_unplaced_self, hcontent, format,
      hstated, himposed]

theorem published?_example (n : Node) :
    n.published? "example" = n.notes.imposed.sample.or n.notes.stated.sample := by
  have hcontent : Record.get? n.content "example" = none := n.get?_content (by decide)
  cases hstated : n.notes.stated.sample <;> cases himposed : n.notes.imposed.sample <;>
    simp [published?, ownEntries_toValue, entriesAround, Keywords.entries, Record.get?_append,
      Record.get?_cons, Record.get?_ofOption, get?_unplaced, get?_unplaced_self, hcontent,
      hstated, himposed]

theorem published?_default (n : Node) : n.published? "default" = n.notes.stated.default := by
  rw [n.published?_stated (by decide)]
  simp [Keywords.entries, Record.get?_ofOption, Record.get?_append]

theorem published?_text (n : Node) {name : String} (hname : name ∈ textKeywords) :
    ∃ text : Option String, n.published? name = text.map .text := by
  simp only [textKeywords, List.mem_cons, List.not_mem_nil, or_false] at hname
  rcases hname with rfl | rfl | rfl | rfl
  · exact ⟨n.format, n.published?_format⟩
  · rw [n.published?_stated (by decide)]
    simp [Keywords.entries, Record.get?_ofOption, Record.get?_append]
  · rw [n.published?_stated (by decide)]
    simp [Keywords.entries, Record.get?_ofOption, Record.get?_append]
  · exact ⟨n.title, n.published?_title⟩

/-- What a node has to say for what it publishes to be well formed: an array is required as its
items are, and a choice lists texts, states and imposes no format, and has a text for a default. -/
def IsCoherent : Node → Prop
  | .array items notes => items.required = notes.required
  | .leaf (.choice values) notes =>
      values ≠ [] ∧ notes.stated.format = none ∧ notes.imposed.format = none ∧
        ∀ default, notes.stated.default = some default → ∃ text, default = .text text
  | _ => True

theorem isCoherent_leaf {type : LeafType} (htype : type.values? = none) (notes : Annotations) :
    (Node.leaf type notes).IsCoherent := by
  cases type with
  | choice values => cases htype
  | _ => trivial

/-- The items of an array publish the requiredness of the array. -/
theorem IsCoherent.member_items {n : Node} (h : n.IsCoherent) {items : Value}
    (hitems : n.published? "items" = some items) :
    items.member "required" = .bool n.required := by
  rw [published?_items] at hitems
  cases n with
  | array inner notes =>
      obtain rfl : inner.toValue = items := Option.some.inj hitems
      have hsame : inner.required = notes.required := h
      rw [member_toValue, published?_required, hsame]
      rfl
  | _ => cases hitems

theorem IsCoherent.offersChoice {n : Node} (h : n.IsCoherent) {listed : Value}
    (hlisted : n.published? "enum" = some listed) : n.OffersChoice listed := by
  rw [published?_enum] at hlisted
  cases n with
  | leaf type notes =>
      cases type with
      | choice values =>
          obtain ⟨hvalues, hstated, himposed, hdefault⟩ := h
          refine ⟨published?_type _, ⟨values, hvalues, (Option.some.inj hlisted).symm⟩, ?_, ?_⟩
          · rw [published?_format]
            simp [format, Node.notes, hstated, himposed]
          · intro default hpublished
            rw [published?_default] at hpublished
            exact hdefault default hpublished
      | _ => cases hlisted
  | _ => cases hlisted

/-- A coherent node is well formed as it is published. -/
theorem IsCoherent.isWellFormed {n : Node} (h : n.IsCoherent) : n.IsWellFormed where
  required := ⟨n.required, n.published?_required, fun _ hitems => h.member_items hitems⟩
  items_iff := by
    rw [published?_items, published?_type]
    cases n with
    | leaf type notes => cases type <;> simp [items?, typeName, LeafType.name]
    | _ => simp [items?, typeName]
  array items hitems := by
    rw [published?_items] at hitems
    rw [published?_properties, published?_enum]
    cases n with
    | array inner notes => exact ⟨rfl, rfl⟩
    | _ => cases hitems
  properties held hheld := by
    rw [published?_properties] at hheld
    rw [published?_type]
    cases n with
    | object properties notes => rfl
    | _ => cases hheld
  choice listed hlisted := h.offersChoice hlisted
  number name hname v hv := by
    obtain ⟨number, hnumber⟩ := n.published?_number hname
    rw [hnumber] at hv
    obtain ⟨x, -, rfl⟩ := Option.map_eq_some_iff.mp hv
    exact ⟨x, rfl⟩
  text name hname v hv := by
    obtain ⟨text, htext⟩ := n.published?_text hname
    rw [htext] at hv
    obtain ⟨s, -, rfl⟩ := Option.map_eq_some_iff.mp hv
    exact ⟨s, rfl⟩
  flag name hname v hv := by
    obtain ⟨flag, hflag⟩ := n.published?_flag hname
    rw [hflag] at hv
    obtain ⟨b, -, rfl⟩ := Option.map_eq_some_iff.mp hv
    exact ⟨b, rfl⟩

/-- Every node of a tree, at any depth, is coherent. -/
def IsCoherentThroughout (n : Node) : Prop :=
  ∀ inner : Node, inner.IsWithin n → inner.IsCoherent

theorem IsCoherentThroughout.of_children {n : Node} (hn : n.IsCoherent)
    (hchildren : ∀ child ∈ n.children, child.IsCoherentThroughout) : n.IsCoherentThroughout := by
  intro inner hinner
  rcases isWithin_iff.mp hinner with rfl | hinside
  · exact hn
  · obtain ⟨child, hchild, hwithin⟩ := isInside_iff.mp hinside
    exact hchildren child hchild inner hwithin

end Node

/-- The documentation of a schema is coherent at every depth, and its root is not required. -/
structure Schema.IsCoherent (s : Schema) : Prop where
  required : s.documentation.required = false
  documentation : s.documentation.IsCoherentThroughout

/-! ## Compiled nodes -/

namespace Compilation

theorem compilePlain_isCoherent {ctx : FieldContext} {leaf : LeafType} {type : RuleType}
    {imposed : Imposed} {field : CompiledField} (hleaf : leaf.values? = none)
    (h : compilePlain ctx leaf type imposed = .ok field) : field.node.IsCoherent := by
  obtain ⟨stated, _, h⟩ := bind_eq_ok.mp h
  obtain rfl := pure_eq_ok.mp h
  exact Node.isCoherent_leaf hleaf _

theorem compileTemporal_isCoherent {ctx : FieldContext} {format canonical : String}
    {type : RuleType} {field : CompiledField}
    (h : compileTemporal ctx format type canonical = .ok field) : field.node.IsCoherent := by
  obtain ⟨stated, _, h⟩ := bind_eq_ok.mp h
  obtain ⟨sample, _, h⟩ := bind_eq_ok.mp h
  obtain rfl := pure_eq_ok.mp h
  exact Node.isCoherent_leaf rfl _

/-- A choice of options that are JSON data has a default that is a text, if it has one. -/
theorem default_of_choice {ctx : FieldContext} (hjson : ctx.options.IsJson) {given : Keywords}
    (hgiven : keywords ctx.options ctx.path = .ok given) {default : Option Value}
    (hdefault : given.default.mapM Value.toSetting = .ok default) {value : Value}
    (hvalue : default = some value) : ∃ text, value = .text text := by
  subst hvalue
  cases hoption : given.default with
  | none =>
      rw [hoption] at hdefault
      cases hdefault
  | some option =>
      have hget := (statesConstraints hgiven).default.symm.trans hoption
      obtain ⟨text, htext⟩ := (hjson.get? hget).toSetting_eq_text
      have hmapped : (some option).mapM Value.toSetting = .ok (some (.text text)) := by
        rw [Option.mapM_some, htext]
        rfl
      rw [hoption, hmapped] at hdefault
      exact ⟨text, (Option.some.inj (Except.ok.inj hdefault)).symm⟩

theorem compileChoice_isCoherent {ctx : FieldContext} (hjson : ctx.options.IsJson)
    {source : OptionKey} {field : CompiledField} (h : compileChoice ctx source = .ok field) :
    field.node.IsCoherent := by
  obtain ⟨values, hvalues, h⟩ := bind_eq_ok.mp h
  obtain ⟨given, hgiven, h⟩ := bind_eq_ok.mp h
  obtain ⟨default, hdefault, h⟩ := bind_eq_ok.mp h
  obtain rfl := pure_eq_ok.mp h
  refine ⟨choiceValues_ne_nil hvalues, rfl, rfl, ?_⟩
  intro value hvalue
  exact default_of_choice hjson hgiven hdefault hvalue

/-- The node of a scalar field is coherent where the options are JSON data. -/
theorem compileScalar_isCoherent {ctx : FieldContext} (hjson : ctx.options.IsJson)
    {type : ScalarType} {field : CompiledField} (h : compileScalar ctx type = .ok field) :
    field.node.IsCoherent := by
  cases compileScalar_madeAs h with
  | choice h => exact compileChoice_isCoherent hjson h
  | plain hleaf _ _ h => exact compilePlain_isCoherent hleaf h
  | temporal _ h => exact compileTemporal_isCoherent h
  | openObject hfield =>
      subst hfield
      trivial

theorem compileArray_isCoherent {ctx : FieldContext} {element : ElementType}
    {field : CompiledField} (h : compileArray ctx element = .ok field) :
    field.node.IsCoherentThroughout := by
  obtain ⟨stated, _, h⟩ := bind_eq_ok.mp h
  cases element with
  | object =>
      obtain rfl := pure_eq_ok.mp h
      refine .of_children rfl (List.forall_mem_singleton.mpr ?_)
      exact .of_children trivial (List.forall_mem_nil _)
  | _ =>
      obtain rfl := pure_eq_ok.mp h
      refine .of_children rfl (List.forall_mem_singleton.mpr ?_)
      exact .of_children (Node.isCoherent_leaf rfl _) (List.forall_mem_nil _)

theorem isCoherentThroughout_object {fields : List (String × CompiledField)}
    (hnodup : (fields.map Prod.fst).Nodup)
    (heach : ∀ field ∈ fields, field.2.node.IsCoherentThroughout) (notes : Annotations) :
    (Node.object (properties fields) notes).IsCoherentThroughout := by
  refine .of_children trivial fun child hchild => ?_
  obtain ⟨entry, hentry, rfl⟩ := List.mem_map.mp hchild
  obtain ⟨field, hfield, rfl⟩ := (mem_properties_iff hnodup).mp hentry
  exact heach field hfield

/-- A block is coherent when its fields are, whether it is one object or the items of an array. -/
theorem assembleBlock_isCoherent {ctx : FieldContext} (type : FieldType) (stated : Keywords)
    {fields : List (String × CompiledField)} (hnodup : (fields.map Prod.fst).Nodup)
    (heach : ∀ field ∈ fields, field.2.node.IsCoherentThroughout) :
    (assembleBlock ctx type stated fields).node.IsCoherentThroughout := by
  cases type with
  | scalar type => exact isCoherentThroughout_object hnodup heach _
  | array element =>
      refine .of_children rfl (List.forall_mem_singleton.mpr ?_)
      exact isCoherentThroughout_object hnodup heach _

/-- An embedded tree is coherent as it was; where it is the items of an array, neither is
required. -/
theorem compileEmbed_isCoherent {lookup : String → Option Schema} {kind : EmbedKind}
    {name reference path : String} {field : CompiledField}
    (hlookup : ∀ reference target, lookup reference = some target → target.IsCoherent)
    (h : compileEmbed lookup kind name reference path = .ok field) :
    field.node.IsCoherentThroughout := by
  obtain ⟨target, htarget, rfl⟩ := compileEmbed_eq_ok h
  obtain ⟨hrequired, hdocumentation⟩ := hlookup reference target htarget
  cases kind with
  | one => exact hdocumentation
  | many => exact .of_children hrequired (List.forall_mem_singleton.mpr hdocumentation)

theorem compileField_isCoherent {around : Surroundings} (hdefaults : around.typeDefaults.IsJson)
    {parent : String} {head : FieldHead} {field : CompiledField}
    (h : compileField around parent head = .ok field) : field.node.IsCoherentThroughout := by
  obtain ⟨ctx, hctx, h⟩ := bind_eq_ok.mp h
  cases htype : head.type with
  | scalar type =>
      rw [htype] at h
      refine .of_children (compileScalar_isCoherent (fieldContext_isJson hdefaults hctx) h) ?_
      rw [(compileScalar_node h).1]
      exact List.forall_mem_nil _
  | array element =>
      rw [htype] at h
      exact compileArray_isCoherent h

/-- Where every schema that may be embedded is coherent, so is every compiled field. -/
theorem pervades_isCoherent {around : Surroundings} (hdefaults : around.typeDefaults.IsJson)
    (hlookup : ∀ reference target, around.lookup reference = some target → target.IsCoherent) :
    Pervades around fun _ field => field.node.IsCoherentThroughout where
  field _ _ _ hfield := compileField_isCoherent hdefaults hfield
  block _ head _ stated _ _ hnodup heach := assembleBlock_isCoherent head.type stated hnodup heach
  embed _ _ _ _ _ hfield := compileEmbed_isCoherent hlookup hfield

end Compilation

/-- A schema that is compiled over type defaults that are JSON data is coherent where the schemas
that it may embed are. -/
theorem Schema.compile_isCoherent {name : String} {raw : Value} {around : Surroundings} {s : Schema}
    {notices : List Notice} (hdefaults : around.typeDefaults.IsJson)
    (hlookup : ∀ reference target, around.lookup reference = some target → target.IsCoherent)
    (h : Schema.compile name raw around = .ok (s, notices)) : s.IsCoherent := by
  obtain ⟨declared, fields, hdeclared, hfields, rfl, -⟩ := Schema.compile_eq_ok.mp h
  have hwell := Declaration.readAll_isWellFormed hdeclared
  refine ⟨rfl, Compilation.isCoherentThroughout_object ?_ ?_ _⟩
  · exact Compilation.map_fst_compileAll hfields ▸ hwell.nodup_names
  · exact (Compilation.pervades_isCoherent hdefaults hlookup).compileAll hwell hfields

/-! ## Fields of a type -/

namespace Compilation

theorem compilePlain_suitsType {ctx : FieldContext} {leaf : LeafType} {rule : RuleType}
    {imposed : Imposed} {type : ScalarType} {field : CompiledField}
    (hformat : imposed.format = type.imposedFormat?) (hdate : type ≠ .date ∧ type ≠ .datetime)
    (h : compilePlain ctx leaf rule imposed = .ok field) : field.node.SuitsType type := by
  obtain ⟨stated, _, h⟩ := bind_eq_ok.mp h
  obtain rfl := pure_eq_ok.mp h
  constructor
  · intro format himposed
    rw [Node.published?_format]
    simp [Node.format, Node.notes, hformat, himposed]
  · rintro (rfl | rfl)
    · exact absurd rfl hdate.1
    · exact absurd rfl hdate.2

/-- The example of a date is a text, whether it is given as JSON data or not given. -/
theorem compileTemporal_suitsType {ctx : FieldContext} (hjson : ctx.options.IsJson)
    {format canonical : String} {rule : RuleType} {type : ScalarType} {field : CompiledField}
    (hformat : type.imposedFormat? = some format)
    (h : compileTemporal ctx format rule canonical = .ok field) : field.node.SuitsType type := by
  obtain ⟨stated, _, h⟩ := bind_eq_ok.mp h
  obtain ⟨sample, hsample, h⟩ := bind_eq_ok.mp h
  obtain rfl := pure_eq_ok.mp h
  constructor
  · intro other hother
    obtain rfl := Option.some.inj (hformat.symm.trans hother)
    rw [Node.published?_format]
    rfl
  · intro _
    have hgiven : Value.IsJson
        (((ctx.options.get? .example).getD .absent).orElse (.text canonical)) := by
      cases hget : ctx.options.get? .example with
      | none => exact .text canonical
      | some given =>
          unfold Value.orElse
          split
          next => exact .text canonical
          next => exact hjson.get? hget
    obtain ⟨text, htext⟩ := hgiven.toSetting_eq_text
    obtain rfl := Except.ok.inj (htext.symm.trans hsample)
    exact ⟨text, Node.published?_example _⟩

theorem compileScalar_suitsType {ctx : FieldContext} (hjson : ctx.options.IsJson)
    {type : ScalarType} {field : CompiledField} (h : compileScalar ctx type = .ok field) :
    field.node.SuitsType type := by
  cases type with
  | date => exact compileTemporal_suitsType hjson rfl h
  | datetime => exact compileTemporal_suitsType hjson rfl h
  | uuid => exact compilePlain_suitsType rfl (by simp) h
  | decimal => exact compilePlain_suitsType rfl (by simp) h
  | _ => exact ⟨nofun, by simp⟩

end Compilation

/-- A compiled schema has, at the position of every field of a scalar type, a node that suits it. -/
theorem Schema.compile_suitsType {name : String} {raw : Value} {around : Surroundings} {s : Schema}
    {notices : List Notice} {declared : List Declaration}
    (hdefaults : around.typeDefaults.IsJson) (hread : Declaration.readAll raw = .ok declared)
    (h : Schema.compile name raw around = .ok (s, notices)) {way : List String} {head : FieldHead}
    {type : ScalarType} (hstands : Declaration.StandsAt declared way (.field head))
    (htype : head.type = .scalar type) :
    ∃ n, s.documentation.field? way = some n ∧ n.SuitsType type := by
  obtain ⟨other, fields, hother, hfields, rfl, -⟩ := Schema.compile_eq_ok.mp h
  obtain rfl := Except.ok.inj (hread.symm.trans hother)
  have hwell := Declaration.readAll_isWellFormed hread
  obtain ⟨field, hfield, hnode, _⟩ := Compilation.compileAll_standsAt hstands hwell hfields
  refine ⟨field.node, hnode _ rfl, ?_⟩
  obtain ⟨ctx, hctx, hfield⟩ := bind_eq_ok.mp hfield
  rw [htype] at hfield
  exact Compilation.compileScalar_suitsType (Compilation.fieldContext_isJson hdefaults hctx) hfield

/-! ## Positions through embedded schemas -/

namespace Node

theorem field?_append (n : Node) (outer place : List String) :
    n.field? (outer ++ place) = (n.field? outer).bind fun inner => inner.field? place := by
  induction outer generalizing n with
  | nil => rfl
  | cons name outer ih =>
      simp only [List.cons_append, field?, Option.bind_eq_bind, Option.bind_assoc, ih]

/-- A position inside an embedded schema leads on from the embed as it does from the schema. -/
theorem field?_embed {t : Schema} (ht : t.Agrees) (kind : EmbedKind) {place : List String}
    (hplace : place ≠ []) : (kind.node t).field? place = t.documentation.field? place := by
  obtain ⟨_, _, properties, hproperties, _⟩ := ht
  cases place with
  | nil => exact absurd rfl hplace
  | cons name place =>
      have hinner : (kind.node t).innerProperties? = t.documentation.innerProperties? := by
        cases kind with
        | one => rfl
        | many =>
            cases hdocumentation : t.documentation with
            | object members notes => simp [EmbedKind.node, hdocumentation, innerProperties?,
                properties?]
            | _ => simp [hdocumentation, properties?] at hproperties
      simp only [field?, hinner]

end Node

namespace Session

/-- In what a run holds under a name stands, at a position, a field that was declared to be of a
scalar type: the declarations that were registered last under the name have it there, or they embed
a schema that had it when they were registered. -/
inductive DeclaresField (s : Session) :
    List Call → String → List String → ScalarType → Prop
  | here {earlier later : List Call} {call : Call} {g : Registration} {declared : List Declaration}
      {way : List String} {head : FieldHead} {type : ScalarType}
      (hlast : s.RegistersLast earlier call later g)
      (hread : Declaration.readAll g.declarations = .ok declared)
      (hfield : Declaration.StandsAt declared way (.field head))
      (htype : head.type = .scalar type) :
      DeclaresField s (earlier ++ call :: later) g.name way type
  | embedded {earlier later : List Call} {call : Call} {g : Registration}
      {declared : List Declaration} {outer inner : List String} {field reference : String}
      {kind : EmbedKind} {type : ScalarType} (hlast : s.RegistersLast earlier call later g)
      (hread : Declaration.readAll g.declarations = .ok declared)
      (hembed : Declaration.EmbedsAt declared outer field kind reference)
      (h : DeclaresField s earlier reference inner type) :
      DeclaresField s (earlier ++ call :: later) g.name (outer ++ field :: inner) type

theorem DeclaresField.ne_nil {s : Session} {calls : List Call} {name : String} {way : List String}
    {type : ScalarType} (h : s.DeclaresField calls name way type) : way ≠ [] := by
  cases h with
  | here _ _ hfield _ => exact hfield.ne_nil
  | embedded => simp

/-- The node at the position of a declared field suits its type. -/
theorem DeclaresField.suitsType {defaults : TypeDefaults} (hdefaults : defaults.IsJson)
    {calls : List Call} {name : String} {way : List String} {type : ScalarType}
    (h : (start defaults).DeclaresField calls name way type) :
    ∃ s n, ((start defaults).run calls).registry.get? name = some s ∧
      s.documentation.field? way = some n ∧ n.SuitsType type := by
  induction h with
  | @here earlier later call g declared way head type hlast hread hfield htype =>
      obtain ⟨houtcome, _⟩ := registration_compile hlast.registered
      obtain ⟨_, notices, hcompile⟩ := Registry.compile_ok_state houtcome
      have hjson : ((start defaults).run earlier).registry.typeDefaults.IsJson := by
        rw [run_typeDefaults]
        exact hdefaults
      obtain ⟨n, hn, hsuits⟩ := Schema.compile_suitsType hjson hread hcompile hfield htype
      exact ⟨g.schema, n, hlast.get?_run, hn, hsuits⟩
  | @embedded earlier later call g declared outer inner field reference kind type hlast hread hembed
      h ih =>
      obtain ⟨t, n, ht, hn, hsuits⟩ := ih
      have hsettled := run_isSettled defaults earlier
      obtain ⟨other, hother, hembedded⟩ := registration_holdsAt hsettled hlast.registered
      obtain rfl := Except.ok.inj (hread.symm.trans hother)
      -- what the run held under the reference then is what is embedded
      obtain ⟨u, hu, hholds⟩ := hembedded outer field kind reference hembed
      obtain rfl := Option.some.inj (ht.symm.trans hu)
      have hagrees := (hsettled.provenance reference t ht).1.agrees
      refine ⟨g.schema, n, hlast.get?_run, ?_, hsuits⟩
      rw [List.append_cons, Node.field?_append, hholds.node]
      exact (Node.field?_embed hagrees kind h.ne_nil).trans hn

/-- The form of documentation trees. After any run over type defaults that are JSON data, every node
at every depth of the documentation of every schema that is held publishes what is well formed; and
the node of every field that was declared to be of a scalar type, in embedded schemas too, has the
format that the type imposes, and an example where the type is one of dates. -/
theorem run_documentation_form {defaults : TypeDefaults} (hdefaults : defaults.IsJson)
    (calls : List Call) :
    (∀ name s, ((start defaults).run calls).registry.get? name = some s →
      ∀ n : Node, n.IsWithin s.documentation → n.IsWellFormed) ∧
    ∀ name way type, (start defaults).DeclaresField calls name way type →
      ∃ s n, ((start defaults).run calls).registry.get? name = some s ∧
        s.documentation.field? way = some n ∧ n.SuitsType type := by
  constructor
  · intro name s hs n hn
    have hcoherent : s.IsCoherent := by
      refine held_of_compile ?_ calls hs
      rintro name raw around s notices rfl hlookup hcompile
      exact Schema.compile_isCoherent hdefaults hlookup hcompile
    exact (hcoherent.documentation n hn).isWellFormed
  · intro name way type hdeclares
    exact hdeclares.suitsType hdefaults

/-- Type defaults that state a format and an example for dates, and for choices a format and a
default that is no text. -/
def statedDefaults : TypeDefaults :=
  [(.date, [(.format, .text "time"), (.example, .number 5)]),
    (.enumeration, [(.format, .text "email"), (.default, .list [.bool true])])]

theorem statedDefaults_isJson : statedDefaults.IsJson := by
  intro type
  cases type with
  | date => exact List.forall_mem_cons.mpr ⟨.text _, List.forall_mem_singleton.mpr (.number _)⟩
  | enumeration =>
      refine List.forall_mem_cons.mpr ⟨.text _, List.forall_mem_singleton.mpr (.list ?_)⟩
      exact List.forall_mem_singleton.mpr (.bool _)
  | _ => exact List.forall_mem_nil _

/-- Persons have a birthday, which states a format of its own, and a role. -/
def person : Value :=
  .list [
    .list [.text "required", .text "born", .text "date",
      .object false [("format", .text "year")]],
    .list [.text "optional", .text "role", .text "enum",
      .object false [("values", .list [.text "guest", .number 1])]]]

/-- Persons are compiled, and their birthday is overridden too. -/
def personCall : Call :=
  .compile "Person" person [("born", .object false [("format", .text "month")])]

/-- Teams are lists of persons. -/
def team : Value :=
  .list [.list [.text "embeds_many", .text "members", .text "Person"]]

def teamCall : Call := .compile "Team" team []

theorem person_declaresField :
    (start statedDefaults).DeclaresField [personCall] "Person" ["born"] .date := by
  obtain ⟨declared, head, hread, hmem, hname, htype⟩ : ∃ declared head,
      Declaration.readAll person = .ok declared ∧ .field head ∈ declared ∧ head.name = "born" ∧
        head.type = .scalar .date := ⟨_, _, rfl, List.mem_cons_self, rfl, rfl⟩
  obtain ⟨g, hlast, hg, hdeclarations⟩ : ∃ g, (start statedDefaults).RegistersLast [] personCall [] g ∧
      g.name = "Person" ∧ g.declarations = person := ⟨_, ⟨rfl, List.not_mem_nil⟩, rfl, rfl⟩
  have hborn := DeclaresField.here hlast (hdeclarations ▸ hread) (.here hmem) htype
  rwa [hg, Declaration.name, hname] at hborn

theorem team_declaresField :
    (start statedDefaults).DeclaresField [personCall, teamCall] "Team" ["members", "born"]
      .date := by
  obtain ⟨declared, hread, hembed⟩ : ∃ declared, Declaration.readAll team = .ok declared ∧
      .embed .many "members" "Person" ∈ declared := ⟨_, rfl, List.mem_cons_self⟩
  obtain ⟨g, hlast, hg, hdeclarations⟩ : ∃ g,
      (start statedDefaults).RegistersLast [personCall] teamCall [] g ∧
        g.name = "Team" ∧ g.declarations = team := ⟨_, ⟨rfl, List.not_mem_nil⟩, rfl, rfl⟩
  have hborn := DeclaresField.embedded hlast (hdeclarations ▸ hread) (.here hembed)
    person_declaresField
  rwa [hg] at hborn

/-- Neither the type defaults nor the options nor the overrides replace the format of a birthday or
take its example away, in a team just as little as in a person; and the whole tree is well formed. -/
theorem team_documentation_form :
    statedDefaults.IsJson ∧
    ∃ s n, ((start statedDefaults).run [personCall, teamCall]).registry.get? "Team" = some s ∧
      s.documentation.field? ["members", "born"] = some n ∧ n.SuitsType .date ∧
      ∀ m : Node, m.IsWithin s.documentation → m.IsWellFormed := by
  obtain ⟨hform, htypes⟩ := run_documentation_form statedDefaults_isJson [personCall, teamCall]
  obtain ⟨s, n, hs, hn, hsuits⟩ := htypes _ _ _ team_declaresField
  exact ⟨statedDefaults_isJson, s, n, hs, hn, hsuits, hform "Team" s hs⟩

end Session

end FieldSchema
