import FieldSchema.Proofs.Relaxing

/-!
# Schemas with a relaxed field

Compiling declarations and relaxing the field at a position commute: the schema of the relaxed
declarations is the schema of the declarations with the node and the rule at the position of the
field relaxed. There are no other notices.
-/

namespace FieldSchema

open Outcome

/-! ## Relaxed nodes and rules -/

/-- The head of a rule for a field that need not be there. -/
def RuleHead.relaxed (head : RuleHead) : RuleHead := { head with required := false }

/-- Change the rules of a name. -/
def Descriptor.modify (d : Descriptor) (name : String) (f : Rule → Rule) : Descriptor :=
  d.map fun rule => if rule.name = name then f rule else rule

namespace Rule

/-- A rule for a field that need not be there. -/
def relaxed : Rule → Rule
  | .plain head => .plain head.relaxed
  | .fields head inner => .fields head.relaxed inner
  | .items head item => .items head.relaxed item
  | .itemFields head inner => .itemFields head.relaxed inner

/-- Change the rules of a name inside. -/
def modifyInner (name : String) (f : Rule → Rule) : Rule → Rule
  | .fields head inner => .fields head (Descriptor.modify inner name f)
  | .itemFields head inner => .itemFields head (Descriptor.modify inner name f)
  | rule => rule

/-- A rule with the rule for a field inside it relaxed; at the empty position it is itself relaxed.
-/
def relaxedAt (way : List String) : Rule → Rule :=
  way.foldr modifyInner relaxed

end Rule

/-- A descriptor with the rule at a position relaxed. -/
def Descriptor.withRelaxed : List String → Descriptor → Descriptor
  | [], d => d
  | name :: way, d => d.modify name (Rule.relaxedAt way)

namespace Node

/-- A node that does not say that its field is required. The elements of an array say what the array
says. -/
def relaxed : Node → Node
  | .leaf type notes => .leaf type { notes with required := false }
  | .array items notes => .array items.relaxed { notes with required := false }
  | .openObject notes => .openObject { notes with required := false }
  | .object properties notes => .object properties { notes with required := false }

/-- Change the nodes of a name among the known members of a value or of an array's elements. -/
def modifyInner (name : String) (f : Node → Node) : Node → Node
  | .object properties notes => .object (Record.modify properties name f) notes
  | .array (.object properties inner) notes =>
      .array (.object (Record.modify properties name f) inner) notes
  | n => n

/-- A node with the node of a field inside it relaxed; at the empty position it is itself relaxed.
-/
def relaxedAt (way : List String) : Node → Node :=
  way.foldr modifyInner relaxed

end Node

/-- A compiled field with a field inside it relaxed. -/
def CompiledField.relaxedAt (way : List String) (field : CompiledField) : CompiledField :=
  ⟨field.node.relaxedAt way, field.rule.relaxedAt way⟩

/-- A schema with the field at a position relaxed. -/
def Schema.withRelaxed (way : List String) (s : Schema) : Schema :=
  ⟨s.name, s.descriptor.withRelaxed way, s.documentation.relaxedAt way⟩

/-! ## Compiling relaxed declarations -/

namespace Compilation

variable {around : Surroundings} {parent : String}

/-- The context of a field that need not be there. -/
def relaxedContext (ctx : FieldContext) : FieldContext := { ctx with required := false }

theorem fieldContext_relaxed {head : FieldHead} {ctx : FieldContext}
    (h : fieldContext around parent head = .ok ctx) :
    fieldContext around parent { head with kind := .optional } = .ok (relaxedContext ctx) := by
  obtain ⟨options, hoptions, h⟩ := bind_eq_ok.mp h
  obtain rfl := pure_eq_ok.mp h
  exact bind_eq_ok.mpr ⟨options, hoptions, rfl⟩

variable {ctx : FieldContext} {field : CompiledField}

theorem compilePlain_relaxed {leaf : LeafType} {type : RuleType} {imposed : Imposed}
    (h : compilePlain ctx leaf type imposed = .ok field) :
    compilePlain (relaxedContext ctx) leaf type imposed = .ok (field.relaxedAt []) := by
  obtain ⟨stated, hstated, h⟩ := bind_eq_ok.mp h
  obtain rfl := pure_eq_ok.mp h
  exact bind_eq_ok.mpr ⟨stated, hstated, rfl⟩

theorem compileTemporal_relaxed {format canonical : String} {type : RuleType}
    (h : compileTemporal ctx format type canonical = .ok field) :
    compileTemporal (relaxedContext ctx) format type canonical = .ok (field.relaxedAt []) := by
  obtain ⟨stated, hstated, h⟩ := bind_eq_ok.mp h
  obtain ⟨sample, hsample, h⟩ := bind_eq_ok.mp h
  obtain rfl := pure_eq_ok.mp h
  exact bind_eq_ok.mpr ⟨stated, hstated, bind_eq_ok.mpr ⟨sample, hsample, rfl⟩⟩

theorem compileChoice_relaxed {source : OptionKey} (h : compileChoice ctx source = .ok field) :
    compileChoice (relaxedContext ctx) source = .ok (field.relaxedAt []) := by
  obtain ⟨values, hvalues, h⟩ := bind_eq_ok.mp h
  obtain ⟨given, hgiven, h⟩ := bind_eq_ok.mp h
  obtain ⟨default, hdefault, h⟩ := bind_eq_ok.mp h
  obtain rfl := pure_eq_ok.mp h
  exact bind_eq_ok.mpr ⟨values, hvalues,
    bind_eq_ok.mpr ⟨given, hgiven, bind_eq_ok.mpr ⟨default, hdefault, rfl⟩⟩⟩

theorem compileScalar_relaxed {type : ScalarType} (h : compileScalar ctx type = .ok field) :
    compileScalar (relaxedContext ctx) type = .ok (field.relaxedAt []) := by
  cases type with
  | enumeration => exact compileChoice_relaxed h
  | string =>
      rw [compileScalar] at h ⊢
      split at h
      next hlisted =>
        rw [if_pos (by exact hlisted)]
        exact compileChoice_relaxed h
      next hfree =>
        rw [if_neg (by exact hfree)]
        exact compilePlain_relaxed h
  | date => exact compileTemporal_relaxed h
  | datetime => exact compileTemporal_relaxed h
  | object =>
      obtain ⟨stated, hstated, h⟩ := bind_eq_ok.mp h
      obtain rfl := pure_eq_ok.mp h
      exact bind_eq_ok.mpr ⟨stated, hstated, rfl⟩
  | _ => exact compilePlain_relaxed h

theorem compileArray_relaxed {element : ElementType} (h : compileArray ctx element = .ok field) :
    compileArray (relaxedContext ctx) element = .ok (field.relaxedAt []) := by
  obtain ⟨stated, hstated, h⟩ := bind_eq_ok.mp h
  refine bind_eq_ok.mpr ⟨stated, hstated, ?_⟩
  cases element <;> (obtain rfl := pure_eq_ok.mp h; rfl)

theorem assembleBlock_relaxed (ctx : FieldContext) (type : FieldType) (stated : Keywords)
    (inner : List (String × CompiledField)) :
    assembleBlock (relaxedContext ctx) type stated inner =
      (assembleBlock ctx type stated inner).relaxedAt [] := by
  cases type <;> rfl

/-- The optional field compiles to what the required one compiles to, relaxed. -/
theorem compileOne_relaxed {d : Declaration} (hkind : d.kind? = some .required)
    (h : compileOne around parent d = .ok field) :
    compileOne around parent d.relaxed = .ok (field.relaxedAt []) := by
  cases d with
  | field head =>
      obtain ⟨ctx, hctx, h⟩ := bind_eq_ok.mp h
      refine bind_eq_ok.mpr ⟨_, fieldContext_relaxed hctx, ?_⟩
      dsimp only at h ⊢
      split at h
      next type htype => exact compileScalar_relaxed h
      next element htype => exact compileArray_relaxed h
  | block head inner =>
      obtain ⟨ctx, stated, fields, hctx, hstated, hfields, rfl⟩ := compileBlock_eq_ok.mp h
      exact compileBlock_eq_ok.mpr ⟨_, stated, fields, fieldContext_relaxed hctx, hstated, hfields,
        assembleBlock_relaxed ctx head.type stated fields⟩
  | embed kind name reference => cases hkind

/-- Declarations compile to changed fields when those of the name do. -/
theorem compileAll_modify {name : String} {change : Declaration → Declaration}
    {adapt : CompiledField → CompiledField} (hname : ∀ d, (change d).name = d.name)
    {declared : List Declaration} {fields : List (String × CompiledField)}
    (hone : ∀ d ∈ declared, d.name = name → ∀ field, compileOne around parent d = .ok field →
      compileOne around parent (change d) = .ok (adapt field))
    (h : compileAll around parent declared = .ok fields) :
    compileAll around parent (Declaration.modify declared name change) =
      .ok (Record.modify fields name adapt) := by
  induction declared generalizing fields with
  | nil =>
      cases h
      rfl
  | cons d rest ih =>
      obtain ⟨field, others, hfield, hothers, rfl⟩ := compileAll_cons_eq_ok.mp h
      have hrest := ih (fun e he => hone e (List.mem_cons_of_mem _ he)) hothers
      rw [Declaration.modify_cons]
      by_cases hnamed : d.name = name
      · have hchanged := hone d List.mem_cons_self hnamed field hfield
        refine compileAll_cons_eq_ok.mpr ⟨adapt field, _, ?_, hrest, ?_⟩
        · rw [if_pos hnamed]
          exact hchanged
        · rw [if_pos hnamed, Record.modify_cons, hname, if_pos hnamed]
      · refine compileAll_cons_eq_ok.mpr ⟨field, _, ?_, hrest, ?_⟩
        · rw [if_neg hnamed]
          exact hfield
        · rw [if_neg hnamed, Record.modify_cons, if_neg hnamed]

theorem properties_modify (fields : List (String × CompiledField)) (name : String)
    (f : Node → Node) (g : Rule → Rule) :
    properties (Record.modify fields name fun field => ⟨f field.node, g field.rule⟩) =
      (properties fields).modify name f := by
  rw [properties, properties, ← Record.ofList_modify, Record.modify, Record.modify, List.map_map,
    List.map_map]
  congr 1
  refine List.map_congr_left fun field _ => ?_
  by_cases hname : field.1 = name <;> simp [hname]

theorem rules_modify {fields : List (String × CompiledField)}
    (hnamed : ∀ field ∈ fields, field.2.rule.name = field.1) (name : String) (f : Node → Node)
    (g : Rule → Rule) :
    rules (Record.modify fields name fun field => ⟨f field.node, g field.rule⟩) =
      Descriptor.modify (rules fields) name g := by
  rw [rules, rules, Descriptor.modify, Record.modify, List.map_map, List.map_map]
  refine List.map_congr_left fun field hfield => ?_
  have hrule := hnamed field hfield
  by_cases hname : field.1 = name
  · simp [hname, hrule]
  · simp [hname, hrule]

/-- A block is assembled of changed fields as the field of the block, changed inside. -/
theorem assembleBlock_modify {fields : List (String × CompiledField)}
    (hnamed : ∀ field ∈ fields, field.2.rule.name = field.1) (ctx : FieldContext) (type : FieldType)
    (stated : Keywords) (name : String) (way : List String) :
    assembleBlock ctx type stated (Record.modify fields name (CompiledField.relaxedAt way)) =
      (assembleBlock ctx type stated fields).relaxedAt (name :: way) := by
  have hproperties := properties_modify fields name (Node.relaxedAt way) (Rule.relaxedAt way)
  have hrules := rules_modify hnamed name (Node.relaxedAt way) (Rule.relaxedAt way)
  cases type with
  | scalar type =>
      exact congrArg₂ CompiledField.mk (congrArg (Node.object · _) hproperties)
        (congrArg (Rule.fields _) hrules)
  | array element =>
      exact congrArg₂ CompiledField.mk
        (congrArg (fun inner => Node.array (.object inner _) _) hproperties)
        (congrArg (Rule.itemFields _) hrules)

/-- Compiling and relaxing the field at a position commute. -/
theorem compileAll_withRelaxed {declared : List Declaration} {name : String} {way : List String}
    {d : Declaration} (hd : Declaration.StandsAt declared (name :: way) d)
    (hkind : d.kind? = some .required) (hdeclared : Declaration.BlockIsWellFormed declared)
    {fields : List (String × CompiledField)} (h : compileAll around parent declared = .ok fields) :
    compileAll around parent (Declaration.withRelaxed (name :: way) declared) =
      .ok (Record.modify fields name (CompiledField.relaxedAt way)) := by
  generalize hplace : name :: way = place at hd
  induction hd generalizing name way parent fields with
  | @here declared d hmem =>
      obtain ⟨rfl, rfl⟩ := List.cons.inj hplace
      refine compileAll_modify (Declaration.name_relaxedAt []) (fun e he hname field hfield => ?_) h
      obtain rfl := List.inj_on_of_nodup_map hdeclared.nodup_names he hmem hname
      exact compileOne_relaxed hkind hfield
  | @inside declared inner head next d hmem hstands ih =>
      obtain ⟨rfl, rfl⟩ := List.cons.inj hplace
      refine compileAll_modify (Declaration.name_relaxedAt way)
        (fun e he hname field hfield => ?_) h
      obtain rfl := List.inj_on_of_nodup_map hdeclared.nodup_names he hmem hname
      rw [Declaration.relaxedAt_block hstands.ne_nil]
      obtain ⟨ctx, stated, fields, hctx, hstated, hfields, rfl⟩ := compileBlock_eq_ok.mp hfield
      cases way with
      | nil => exact absurd rfl hstands.ne_nil
      | cons name way =>
          refine compileBlock_eq_ok.mpr ⟨ctx, stated, _, hctx, hstated,
            ih hkind (hdeclared.of_mem hmem).2.2 hfields rfl, ?_⟩
          exact assembleBlock_modify (rule_name_compileAll hfields) ctx head.type stated name way

end Compilation

/-! ## Schemas of relaxed declarations -/

namespace Declaration

theorem blockPaths_modify {f : Declaration → Declaration}
    (hpaths : ∀ (d : Declaration) (parent : String), (f d).fieldPaths parent = d.fieldPaths parent)
    (declared : List Declaration) (name parent : String) :
    blockPaths parent (modify declared name f) = blockPaths parent declared := by
  induction declared with
  | nil => rfl
  | cons d rest ih =>
      rw [modify_cons, blockPaths, blockPaths, ih]
      split
      next => rw [hpaths]
      next => rfl

theorem fieldPaths_relaxedAt (way : List String) (d : Declaration) (parent : String) :
    (d.relaxedAt way).fieldPaths parent = d.fieldPaths parent := by
  induction way generalizing d parent with
  | nil => cases d <;> rfl
  | cons name way ih =>
      cases d with
      | block head inner => exact congrArg (_ :: ·) (blockPaths_modify ih inner name _)
      | _ => rfl

/-- A relaxed field has the path that it had. -/
theorem blockPaths_withRelaxed (way : List String) (declared : List Declaration)
    (parent : String) :
    blockPaths parent (withRelaxed way declared) = blockPaths parent declared := by
  cases way with
  | nil => rfl
  | cons name way => exact blockPaths_modify (fieldPaths_relaxedAt way) declared name parent

end Declaration

namespace Schema

/-- Compiling raw declarations and relaxing the field at a position commute. -/
theorem compile_withRelaxed {name : String} {raw : Value} {around : Surroundings} {s : Schema}
    {notices : List Notice} (h : compile name raw around = .ok (s, notices))
    {declared : List Declaration} (hread : Declaration.readAll raw = .ok declared)
    {way : List String} {d : Declaration} (hd : Declaration.StandsAt declared way d)
    (hkind : d.kind? = some .required) :
    compile name (raw.withRelaxed way) around = .ok (s.withRelaxed way, notices) := by
  obtain ⟨_, fields, hdeclared, hfields, rfl, rfl⟩ := compile_eq_ok.mp h
  obtain rfl := Except.ok.inj (hread.symm.trans hdeclared)
  cases way with
  | nil => exact absurd rfl hd.ne_nil
  | cons first way =>
      have hwell := Declaration.readAll_isWellFormed hread
      refine compile_eq_ok.mpr ⟨_, _, Declaration.readBlock_withRelaxed hd hkind hread,
        Compilation.compileAll_withRelaxed hd hkind hwell hfields, ?_, ?_⟩
      · have hnamed := Compilation.rule_name_compileAll hfields
        rw [ofFields, rootNode]
        exact congrArg₂ (Schema.mk name) (Compilation.rules_modify hnamed first _ _)
          (congrArg (Node.object · _) (Compilation.properties_modify fields first _ _))
      · rw [unusedOverrides, Declaration.blockPaths_withRelaxed]
        rfl

end Schema

end FieldSchema
