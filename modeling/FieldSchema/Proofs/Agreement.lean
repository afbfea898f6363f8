import FieldSchema.Proofs.History
import FieldSchema.Proofs.WellFormed

/-!
# Agreement of documentation and validation

A documentation node agrees with a validation rule when both describe the same field: the same
requiredness, types that belong together, the same keywords, and at every depth the same inner
fields. Compiling a field makes a node and a rule that agree, whatever the options, and a schema
that is embedded brings its agreement along.
-/

namespace FieldSchema

/-- The name under which a node publishes the type of a rule. -/
def RuleType.publishedName : RuleType → String
  | .string => "string"
  | .date => "string"
  | .datetime => "string"
  | .number => "number"
  | .decimal => "number"
  | .integer => "integer"
  | .boolean => "boolean"
  | .array => "array"
  | .map => "object"

/-- The name under which a node publishes the type of an array's elements. -/
def ItemType.publishedName : ItemType → String
  | .string => "string"
  | .integer => "integer"
  | .map => "object"

/-- The keywords that a node and a rule state under the same name. -/
def sharedKeywords : List String :=
  ["minimum", "maximum", "minLength", "maxLength", "pattern", "nullable", "default"]

namespace Node

/-- What a node publishes under a name. -/
def published? (n : Node) (name : String) : Option Value :=
  Record.get? n.toValue.ownEntries name

/-- The known members of an object node. -/
def properties? : Node → Option (Record Node)
  | .object properties _ => some properties
  | _ => none

/-- The node of an array's elements. -/
def items? : Node → Option Node
  | .array items _ => some items
  | _ => none

/-- The values that a choice lists. -/
def values? : Node → Option (List String)
  | .leaf type _ => type.values?
  | _ => none

/-- The entries of a node that depend on its content. -/
def content : Node → Record Value
  | .leaf type _ => type.entries
  | .array items _ => [("items", items.toValue)]
  | .openObject _ => []
  | .object properties _ => [("properties", .object false (propertiesToValue properties))]

end Node

/-- A node and the head of a rule say the same about a field, its inner fields aside. -/
structure Node.SaysSameAs (n : Node) (head : RuleHead) : Prop where
  required : n.published? "required" = some (.bool head.required)
  type : n.published? "type" = some (.text head.type.publishedName)
  keyword : ∀ name ∈ sharedKeywords,
    n.published? name = Record.get? head.constraints.entries name
  values : n.published? "enum" = Record.get? head.constraints.entries "included"

mutual

/-- A node and a rule describe the same field at every depth. -/
def Node.Agrees (n : Node) : Rule → Prop
  | .plain head => n.SaysSameAs head ∧ n.properties? = none ∧ n.items? = none
  | .fields head inner =>
      n.SaysSameAs head ∧ n.items? = none ∧
        ∃ properties, n.properties? = some properties ∧ properties.names.Nodup ∧
          properties.names.Perm (Descriptor.names inner) ∧ Node.EachAgrees properties inner
  | .items head item =>
      n.SaysSameAs head ∧ n.properties? = none ∧
        ∃ items, n.items? = some items ∧
          items.published? "type" = some (.text item.publishedName) ∧
          items.properties? = none ∧ items.items? = none
  | .itemFields head inner =>
      n.SaysSameAs head ∧ n.properties? = none ∧
        ∃ items, n.items? = some items ∧
          items.published? "type" = some (.text ItemType.map.publishedName) ∧
          ∃ properties, items.properties? = some properties ∧ properties.names.Nodup ∧
            properties.names.Perm (Descriptor.names inner) ∧ Node.EachAgrees properties inner

/-- Every rule of a list agrees with the property of its name. -/
def Node.EachAgrees (properties : Record Node) : List Rule → Prop
  | [] => True
  | rule :: rest =>
      (∃ n, properties.get? rule.name = some n ∧ n.Agrees rule) ∧ Node.EachAgrees properties rest

end

/-- The properties of an object node and a descriptor describe the same fields at every depth: each
name stands once among the properties and is the name of a rule, and the two agree. -/
def Node.BlockAgrees (properties : Record Node) (d : Descriptor) : Prop :=
  properties.names.Nodup ∧ properties.names.Perm d.names ∧ Node.EachAgrees properties d

/-- The two artifacts of a schema agree: its documentation is an optional object without constraints
whose properties are described by its descriptor. -/
def Schema.Agrees (s : Schema) : Prop :=
  s.documentation.Agrees (.fields ⟨s.name, .map, false, {}⟩ s.descriptor)

/-! ## What a node publishes -/

namespace Node

theorem ownEntries_toValue (n : Node) :
    n.toValue.ownEntries = entriesAround n.notes n.typeName n.content := by
  cases n <;> rfl

theorem get?_unplaced {α β : Type} (name other : String) (encode : α → Value) (imposed : Option α)
    (stated : Option β) (hne : other ≠ name) :
    Record.get? (unplaced name encode imposed stated) other = none := by
  cases stated with
  | none => simp [unplaced, Record.get?_ofOption, hne]
  | some x => rfl

/-- The content of a node stands under names of its own. -/
theorem get?_content (n : Node) {name : String}
    (hname : name ∉ ["enum", "items", "properties"]) : Record.get? n.content name = none := by
  simp only [List.mem_cons, List.not_mem_nil, or_false, not_or] at hname
  obtain ⟨henum, hitems, hproperties⟩ := hname
  cases n with
  | leaf type notes => simp [content, LeafType.entries, Record.get?_ofOption, henum]
  | array items notes => simp [content, Record.get?_cons, hitems]
  | openObject notes => rfl
  | object properties notes => simp [content, Record.get?_cons, hproperties]

theorem get?_content_enum (n : Node) :
    Record.get? n.content "enum" = n.values?.map fun values => .list (values.map .text) := by
  cases n with
  | leaf type notes => simp [content, LeafType.entries, Record.get?_ofOption, values?]
  | array items notes => simp [content, Record.get?_cons, values?]
  | openObject notes => rfl
  | object properties notes => simp [content, Record.get?_cons, values?]

theorem published?_required (n : Node) : n.published? "required" = some (.bool n.required) := by
  have hcontent : Record.get? n.content "required" = none := n.get?_content (by decide)
  simp [published?, ownEntries_toValue, entriesAround, Keywords.entries, Record.get?_append,
    Record.get?_cons, Record.get?_ofOption, get?_unplaced, hcontent, required]

theorem published?_type (n : Node) : n.published? "type" = some (.text n.typeName) := by
  simp [published?, ownEntries_toValue, entriesAround, Keywords.entries, Record.get?_append,
    Record.get?_cons, Record.get?_ofOption]

theorem published?_enum (n : Node) :
    n.published? "enum" = n.values?.map fun values => .list (values.map .text) := by
  rw [← get?_content_enum]
  simp [published?, ownEntries_toValue, entriesAround, Keywords.entries, Record.get?_append,
    Record.get?_cons, Record.get?_ofOption, get?_unplaced]

/-- A shared keyword is published as the constraint of its name. -/
theorem published?_keyword (n : Node) {name : String} (hname : name ∈ sharedKeywords) :
    n.published? name = Record.get? (Compilation.constraints n.notes.stated).entries name := by
  have hcontent : Record.get? n.content name = none :=
    n.get?_content fun h => by
      simp only [sharedKeywords, List.mem_cons, List.not_mem_nil, or_false] at hname h
      rcases h with rfl | rfl | rfl <;> simp at hname
  simp only [sharedKeywords, List.mem_cons, List.not_mem_nil, or_false] at hname
  rw [published?, ownEntries_toValue]
  rcases hname with rfl | rfl | rfl | rfl | rfl | rfl | rfl <;>
    simp [entriesAround, Keywords.entries, Constraints.entries, Compilation.constraints,
      Record.get?_append, Record.get?_cons, Record.get?_ofOption, get?_unplaced,
      hcontent]

end Node

namespace Constraints

/-- Listing values leaves the other constraints as they are. -/
theorem get?_entries_listing (c : Constraints) (values : Option (List String)) {name : String}
    (hname : name ≠ "included") :
    Record.get? { c with included := values }.entries name = Record.get? c.entries name := by
  simp [entries, Record.get?_append, Record.get?_ofOption, hname]

theorem get?_entries_included (c : Constraints) :
    Record.get? c.entries "included" =
      c.included.map fun values => .list (values.map .text) := by
  simp [entries, Record.get?_append, Record.get?_ofOption]

end Constraints

/-- A node says the same as the head of a rule when the rule's constraints are the node's stated
keywords and its listed values. -/
theorem Node.saysSameAs_of_constraints {n : Node} {head : RuleHead}
    (hrequired : n.required = head.required) (htype : n.typeName = head.type.publishedName)
    (hconstraints : head.constraints =
      { Compilation.constraints n.notes.stated with included := n.values? }) :
    n.SaysSameAs head where
  required := by rw [published?_required, hrequired]
  type := by rw [published?_type, htype]
  keyword name hname := by
    have hne : name ≠ "included" := by
      rintro rfl
      simp [sharedKeywords] at hname
    rw [published?_keyword n hname, hconstraints]
    exact (Constraints.get?_entries_listing _ _ hne).symm
  values := by rw [published?_enum, Constraints.get?_entries_included, hconstraints]

/-! ## Fields of a block -/

namespace Compilation

theorem map_fst_compileAll {around : Surroundings} {parent : String} {block : List Declaration}
    {fields : List (String × CompiledField)} (h : compileAll around parent block = .ok fields) :
    fields.map Prod.fst = block.map Declaration.name := by
  induction block generalizing fields with
  | nil =>
      obtain rfl := Except.ok.inj h
      rfl
  | cons d rest ih =>
      obtain ⟨first, others, _, hothers, rfl⟩ := compileAll_cons_eq_ok.mp h
      simp [ih hothers]

/-- A property of named fields that plain fields and embeds have, and that passes from the fields of
a block to the field around them. -/
structure Pervades (around : Surroundings) (P : String → CompiledField → Prop) : Prop where
  field : ∀ parent head field, compileField around parent head = .ok field → P head.name field
  block : ∀ parent head ctx stated fields, fieldContext around parent head = .ok ctx →
    (fields.map Prod.fst).Nodup → (∀ field ∈ fields, P field.1 field.2) →
      P head.name (assembleBlock ctx head.type stated fields)
  embed : ∀ kind name reference path field,
    compileEmbed around.lookup kind name reference path = .ok field → P name field

namespace Pervades

variable {around : Surroundings} {P : String → CompiledField → Prop}

mutual

theorem compileOne (hP : Pervades around P) {parent : String} {d : Declaration}
    (hd : d.IsWellFormed) {field : CompiledField}
    (h : Compilation.compileOne around parent d = .ok field) : P d.name field := by
  cases d with
  | field head => exact hP.field parent head field h
  | block head inner =>
      obtain ⟨ctx, stated, fields, hctx, _, hfields, rfl⟩ := compileBlock_eq_ok.mp h
      apply hP.block parent head ctx stated fields hctx
      · exact map_fst_compileAll hfields ▸ hd.2.2.nodup_names
      · exact hP.compileAll hd.2.2 hfields
  | embed kind name reference => exact hP.embed kind name reference _ field h
termination_by sizeOf d

/-- Compiled declarations have each property that pervades their fields. -/
theorem compileAll (hP : Pervades around P) {parent : String} {block : List Declaration}
    (hblock : Declaration.BlockIsWellFormed block) {fields : List (String × CompiledField)}
    (h : Compilation.compileAll around parent block = .ok fields) :
    ∀ field ∈ fields, P field.1 field.2 := by
  cases block with
  | nil =>
      obtain rfl := Except.ok.inj h
      exact List.forall_mem_nil _
  | cons d rest =>
      obtain ⟨first, others, hfirst, hothers, rfl⟩ := compileAll_cons_eq_ok.mp h
      refine List.forall_mem_cons.mpr ⟨?_, ?_⟩
      · exact hP.compileOne hblock.1 hfirst
      · exact hP.compileAll hblock.2.2 hothers
termination_by sizeOf block

end

end Pervades

/-- How a scalar field comes about: as a choice, as a field whose options carry over, as a date, or
as an object of which no members are known. -/
inductive MadeAsScalar (ctx : FieldContext) (field : CompiledField) : Prop
  | choice {source : OptionKey} (h : compileChoice ctx source = .ok field)
  | plain {leaf : LeafType} {rule : RuleType} {imposed : Imposed} (hleaf : leaf.values? = none)
      (htype : leaf.name = rule.publishedName) (htitle : imposed.title = none)
      (h : compilePlain ctx leaf rule imposed = .ok field)
  | temporal {format canonical : String} {rule : RuleType} (htype : rule.publishedName = "string")
      (h : compileTemporal ctx format rule canonical = .ok field)
  | openObject {stated : Keywords}
      (hfield : field = ⟨.openObject ⟨ctx.required, stated, {}⟩, .plain (ruleHead ctx .map stated)⟩)

theorem compileScalar_madeAs {ctx : FieldContext} {type : ScalarType} {field : CompiledField}
    (h : compileScalar ctx type = .ok field) : MadeAsScalar ctx field := by
  cases type with
  | enumeration => exact .choice h
  | string =>
      rw [compileScalar] at h
      split at h
      next => exact .choice h
      next => exact .plain rfl rfl rfl h
  | integer => exact .plain rfl rfl rfl h
  | number => exact .plain rfl rfl rfl h
  | boolean => exact .plain rfl rfl rfl h
  | uuid => exact .plain rfl rfl rfl h
  | date => exact .temporal rfl h
  | datetime => exact .temporal rfl h
  | decimal => exact .plain rfl rfl rfl h
  | object =>
      obtain ⟨stated, _, h⟩ := Outcome.bind_eq_ok.mp h
      exact .openObject (Outcome.pure_eq_ok.mp h).symm

end Compilation

/-! ## Compiled fields agree -/

/-- The node and the rule of a compiled field agree, and the rule is about a name. -/
def CompiledField.Agrees (field : CompiledField) (name : String) : Prop :=
  field.node.Agrees field.rule ∧ field.rule.name = name

namespace Node

theorem EachAgrees.of_forall {properties : Record Node} {d : Descriptor}
    (h : ∀ rule ∈ d, ∃ n, properties.get? rule.name = some n ∧ n.Agrees rule) :
    EachAgrees properties d := by
  induction d with
  | nil => trivial
  | cons rule rest ih =>
      exact ⟨h rule List.mem_cons_self, ih fun r hr => h r (List.mem_cons_of_mem _ hr)⟩

end Node

namespace Compilation

theorem names_rules {fields : List (String × CompiledField)}
    (hagrees : ∀ field ∈ fields, field.2.Agrees field.1) :
    Descriptor.names (rules fields) = fields.map Prod.fst := by
  simp only [Descriptor.names, rules, List.map_map]
  exact List.map_congr_left fun field hfield => (hagrees field hfield).2

/-- Fields that agree, each under a name of its own, make an object that agrees with their
descriptor. -/
theorem blockAgrees_of_fields {fields : List (String × CompiledField)}
    (hnodup : (fields.map Prod.fst).Nodup)
    (hagrees : ∀ field ∈ fields, field.2.Agrees field.1) :
    Node.BlockAgrees (properties fields) (rules fields) := by
  have hnames : Record.names (fields.map fun field => (field.1, field.2.node)) =
      fields.map Prod.fst := by simp [Record.names]
  have hperm := Record.ofList_perm (hnames ▸ hnodup)
  have hperm' : (properties fields).names.Perm (fields.map Prod.fst) :=
    hnames ▸ hperm.map Prod.fst
  have hnodup' := hperm'.symm.nodup hnodup
  refine ⟨hnodup', names_rules hagrees ▸ hperm', Node.EachAgrees.of_forall fun rule hrule => ?_⟩
  obtain ⟨field, hfield, rfl⟩ := List.mem_map.mp hrule
  obtain ⟨hnode, hname⟩ := hagrees field hfield
  have hmem : (field.1, field.2.node) ∈ properties fields :=
    hperm.symm.mem_iff.mp (List.mem_map.mpr ⟨field, hfield, rfl⟩)
  exact ⟨field.2.node, hname ▸ Record.get?_of_mem hnodup' hmem, hnode⟩

theorem compilePlain_agrees {ctx : FieldContext} {leaf : LeafType} {type : RuleType}
    {imposed : Imposed} {field : CompiledField} (hvalues : leaf.values? = none)
    (htype : leaf.name = type.publishedName)
    (h : compilePlain ctx leaf type imposed = .ok field) : field.Agrees ctx.name := by
  obtain ⟨stated, _, h⟩ := Outcome.bind_eq_ok.mp h
  obtain rfl := Outcome.pure_eq_ok.mp h
  refine ⟨⟨Node.saysSameAs_of_constraints rfl htype ?_, rfl, rfl⟩, rfl⟩
  simp [ruleHead, constraints, Node.values?, Node.notes, hvalues]

theorem compileTemporal_agrees {ctx : FieldContext} {format canonical : String} {type : RuleType}
    {field : CompiledField} (htype : type.publishedName = "string")
    (h : compileTemporal ctx format type canonical = .ok field) : field.Agrees ctx.name := by
  obtain ⟨stated, _, h⟩ := Outcome.bind_eq_ok.mp h
  obtain ⟨sample, _, h⟩ := Outcome.bind_eq_ok.mp h
  obtain rfl := Outcome.pure_eq_ok.mp h
  exact ⟨⟨Node.saysSameAs_of_constraints rfl htype.symm rfl, rfl, rfl⟩, rfl⟩

/-- A choice lists the same values in both, and its default is a text in both. -/
theorem compileChoice_agrees {ctx : FieldContext} {source : OptionKey} {field : CompiledField}
    (h : compileChoice ctx source = .ok field) : field.Agrees ctx.name := by
  obtain ⟨values, _, h⟩ := Outcome.bind_eq_ok.mp h
  obtain ⟨given, _, h⟩ := Outcome.bind_eq_ok.mp h
  obtain ⟨default, _, h⟩ := Outcome.bind_eq_ok.mp h
  obtain rfl := Outcome.pure_eq_ok.mp h
  exact ⟨⟨Node.saysSameAs_of_constraints rfl rfl rfl, rfl, rfl⟩, rfl⟩

theorem compileScalar_agrees {ctx : FieldContext} {type : ScalarType} {field : CompiledField}
    (h : compileScalar ctx type = .ok field) : field.Agrees ctx.name := by
  cases compileScalar_madeAs h with
  | choice h => exact compileChoice_agrees h
  | plain hleaf htype _ h => exact compilePlain_agrees hleaf htype h
  | temporal htype h => exact compileTemporal_agrees htype h
  | openObject hfield =>
      subst hfield
      exact ⟨⟨Node.saysSameAs_of_constraints rfl rfl rfl, rfl, rfl⟩, rfl⟩

theorem compileArray_agrees {ctx : FieldContext} {element : ElementType} {field : CompiledField}
    (h : compileArray ctx element = .ok field) : field.Agrees ctx.name := by
  obtain ⟨stated, _, h⟩ := Outcome.bind_eq_ok.mp h
  cases element with
  | string =>
      obtain rfl := Outcome.pure_eq_ok.mp h
      exact ⟨⟨Node.saysSameAs_of_constraints rfl rfl rfl, rfl, _, rfl,
        Node.published?_type _, rfl, rfl⟩, rfl⟩
  | integer =>
      obtain rfl := Outcome.pure_eq_ok.mp h
      exact ⟨⟨Node.saysSameAs_of_constraints rfl rfl rfl, rfl, _, rfl,
        Node.published?_type _, rfl, rfl⟩, rfl⟩
  | object =>
      obtain rfl := Outcome.pure_eq_ok.mp h
      exact ⟨⟨Node.saysSameAs_of_constraints rfl rfl rfl, rfl, _, rfl,
        Node.published?_type _, _, rfl, List.nodup_nil, List.Perm.nil, trivial⟩, rfl⟩

/-- A block agrees when its inner fields do, whether it is one object or the elements of an
array. -/
theorem assembleBlock_agrees {ctx : FieldContext} {type : FieldType} {stated : Keywords}
    {inner : List (String × CompiledField)}
    (hinner : Node.BlockAgrees (properties inner) (rules inner)) :
    (assembleBlock ctx type stated inner).Agrees ctx.name := by
  cases type with
  | scalar scalar =>
      exact ⟨⟨Node.saysSameAs_of_constraints rfl rfl rfl, rfl, _, rfl, hinner⟩, rfl⟩
  | array element =>
      exact ⟨⟨Node.saysSameAs_of_constraints rfl rfl rfl, rfl, _, rfl,
        Node.published?_type _, _, rfl, hinner⟩, rfl⟩

/-- An embedded schema agrees as it did when it was compiled. Only the name of the rule is new, and
the node does not repeat it. -/
theorem compileEmbed_agrees {lookup : String → Option Schema} {kind : EmbedKind}
    {name reference path : String} {field : CompiledField}
    (hlookup : ∀ reference s, lookup reference = some s → s.Agrees)
    (h : compileEmbed lookup kind name reference path = .ok field) : field.Agrees name := by
  unfold compileEmbed at h
  split at h
  next => cases h
  next target htarget =>
    obtain ⟨hsame, hitems, properties, hproperties, hblock⟩ := hlookup reference target htarget
    cases kind with
    | one =>
        obtain rfl := Except.ok.inj h
        exact ⟨⟨⟨hsame.required, hsame.type, hsame.keyword, hsame.values⟩, hitems,
          properties, hproperties, hblock⟩, rfl⟩
    | many =>
        obtain rfl := Except.ok.inj h
        exact ⟨⟨Node.saysSameAs_of_constraints rfl rfl rfl, rfl, _, rfl, hsame.type,
          properties, hproperties, hblock⟩, rfl⟩

theorem compileField_agrees {around : Surroundings} {parent : String} {head : FieldHead}
    {field : CompiledField} (h : compileField around parent head = .ok field) :
    field.Agrees head.name := by
  obtain ⟨ctx, hctx, h⟩ := Outcome.bind_eq_ok.mp h
  rw [← fieldContext_name hctx]
  cases htype : head.type with
  | scalar type => exact compileScalar_agrees (by simpa only [htype] using h)
  | array element => exact compileArray_agrees (by simpa only [htype] using h)

/-- Where every schema that may be embedded agrees, so does every compiled field. -/
theorem pervades_agrees {around : Surroundings}
    (hlookup : ∀ reference s, around.lookup reference = some s → s.Agrees) :
    Pervades around fun name field => field.Agrees name where
  field _ _ _ hfield := compileField_agrees hfield
  block parent head ctx stated fields hctx hnodup hagrees := by
    rw [← fieldContext_name hctx]
    exact assembleBlock_agrees (blockAgrees_of_fields hnodup hagrees)
  embed _ _ _ _ _ hfield := compileEmbed_agrees hlookup hfield

end Compilation

/-- A schema whose embedded schemas agree agrees itself. -/
theorem Schema.compile_agrees {name : String} {raw : Value} {around : Surroundings} {s : Schema}
    {notices : List Notice}
    (hlookup : ∀ reference s, around.lookup reference = some s → s.Agrees)
    (h : Schema.compile name raw around = .ok (s, notices)) : s.Agrees := by
  obtain ⟨declared, fields, hdeclared, hfields, rfl, -⟩ := Schema.compile_eq_ok.mp h
  have hwell := Declaration.readAll_isWellFormed hdeclared
  have hagrees := (Compilation.pervades_agrees hlookup).compileAll hwell hfields
  have hnodup := Compilation.map_fst_compileAll hfields ▸ hwell.nodup_names
  exact ⟨Node.saysSameAs_of_constraints rfl rfl rfl, rfl, _, rfl,
    Compilation.blockAgrees_of_fields hnodup hagrees⟩

theorem Schema.IsCompiled.agrees {s : Schema} (h : s.IsCompiled) : s.Agrees :=
  h.of_compile fun _ _ _ _ _ hlookup hcompile => Schema.compile_agrees hlookup hcompile

namespace Session

/-- Whatever the type defaults and whatever was called before, the documentation and the descriptor
of every schema that a registry holds agree. -/
theorem run_schema_agrees (defaults : TypeDefaults) (calls : List Call) (name : String) {s : Schema}
    (h : ((start defaults).run calls).registry.get? name = some s) : s.Agrees :=
  ((run_isSettled defaults calls).provenance name s h).1.agrees

/-- A short history: a user has a choice, a date and a list of objects, and embeds addresses. -/
def addressBook : List Call :=
  [.declare "User",
    .compile "Address"
      (.list [.list [.text "required", .text "city", .text "string",
        .object false [("minLength", .number 2), ("nullable", .bool true)]]]) [],
    .compile "User"
      (.list [
        .list [.text "optional", .text "role", .text "enum",
          .object false [("values", .list [.text "admin", .bool true]), ("default", .null)]],
        .list [.text "required", .text "born", .text "date"],
        .list [.text "required", .text "notes", .list [.text "array", .text "map"],
          .object false [("fields",
            .list [.list [.text "field", .text "7", .text "decimal"]])]],
        .list [.text "embeds_many", .text "homes", .text "Address"]])
      [("role", .object false [("nullable", .bool true)])]]

/-- The user of the short history is held, and its artifacts agree. -/
theorem addressBook_schema_agrees :
    ∃ s, ((start .builtIn).run addressBook).registry.get? "User" = some s ∧ s.Agrees :=
  ⟨_, rfl, run_schema_agrees .builtIn addressBook "User" rfl⟩

end Session

end FieldSchema
