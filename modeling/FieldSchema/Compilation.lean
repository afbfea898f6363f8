import FieldSchema.Documentation
import FieldSchema.Rule
import FieldSchema.TypeDefaults

/-!
# Compiling fields

A field is compiled to its documentation node and its validation rule, both from one merged option
set. Type defaults are overruled by declared options, and these by overrides; what a field's type
imposes comes last. Embedded schemas are taken as they were compiled.
-/

namespace FieldSchema

/-- A compiled schema: its validation descriptor and its documentation tree. -/
structure Schema where
  name : String
  descriptor : Descriptor
  documentation : Node

/-- A compiled field: its documentation node and its validation rule. -/
structure CompiledField where
  node : Node
  rule : Rule

/-- What the compilation of a field depends on besides its declaration. -/
structure Surroundings where
  /-- The schemas that may be embedded. -/
  lookup : String → Option Schema
  typeDefaults : TypeDefaults
  /-- Option patches by dotted path. -/
  overrides : Record Value

/-- What the mapping of one field's type depends on. -/
structure FieldContext where
  name : String
  path : String
  required : Bool
  options : OptionSet

namespace Compilation

/-- The number that an option gives. -/
def numberOption (options : OptionSet) (key : OptionKey) (path : String) :
    Outcome (Option Float) :=
  match options.get? key with
  | none => .ok none
  | some (.number x) => .ok (some x)
  | some _ => .malformed (.optionNotNumber key.name) (some path)

/-- The text that an option gives. -/
def textOption (options : OptionSet) (key : OptionKey) (path : String) :
    Outcome (Option String) :=
  match options.get? key with
  | none => .ok none
  | some (.text s) => .ok (some s)
  | some _ => .malformed (.optionNotText key.name) (some path)

/-- The flag that an option gives. -/
def flagOption (options : OptionSet) (key : OptionKey) (path : String) : Outcome (Option Bool) :=
  match options.get? key with
  | none => .ok none
  | some (.bool flag) => .ok (some flag)
  | some _ => .malformed (.optionNotFlag key.name) (some path)

/-- The keywords that the options state, each checked for its type. -/
def keywords (options : OptionSet) (path : String) : Outcome Keywords := do
  let minimum ← numberOption options .minimum path
  let maximum ← numberOption options .maximum path
  let minLength ← numberOption options .minLength path
  let maxLength ← numberOption options .maxLength path
  let format ← textOption options .format path
  let pattern ← textOption options .pattern path
  let description ← textOption options .description path
  let title ← textOption options .title path
  let nullable ← flagOption options .nullable path
  let deprecated ← flagOption options .deprecated path
  let readOnly ← flagOption options .readOnly path
  let writeOnly ← flagOption options .writeOnly path
  return {
    minimum, maximum, minLength, maxLength, format, pattern, description, title, nullable,
    deprecated, readOnly, writeOnly,
    sample := options.get? .example,
    default := options.get? .default }

/-- The constraints among the stated keywords; the others are for readers only. -/
def constraints (stated : Keywords) : Constraints where
  minimum := stated.minimum
  maximum := stated.maximum
  minLength := stated.minLength
  maxLength := stated.maxLength
  pattern := stated.pattern
  nullable := stated.nullable
  default := stated.default

/-- The head of the rule of a field. -/
def ruleHead (ctx : FieldContext) (type : RuleType) (stated : Keywords) : RuleHead :=
  ⟨ctx.name, type, ctx.required, constraints stated⟩

/-- A field whose options carry over as they are. -/
def compilePlain (ctx : FieldContext) (leaf : LeafType) (type : RuleType) (imposed : Imposed) :
    Outcome CompiledField := do
  let stated ← keywords ctx.options ctx.path
  return ⟨.leaf leaf ⟨ctx.required, stated, imposed⟩, .plain (ruleHead ctx type stated)⟩

/-- A date or datetime field: its node always has an example, which is a text. -/
def compileTemporal (ctx : FieldContext) (format : String) (type : RuleType)
    (canonical : String) : Outcome CompiledField := do
  let stated ← keywords ctx.options ctx.path
  let given := ((ctx.options.get? .example).getD .absent).orElse (.text canonical)
  let sample ← given.toSetting
  return ⟨
    .leaf .string ⟨ctx.required, stated, ⟨some format, some sample, none⟩⟩,
    .plain (ruleHead ctx type stated)⟩

/-- The text of one listed value. -/
def choiceText (key : OptionKey) (path : String) (v : Value) : Outcome String :=
  match v with
  | .text s => .ok s
  | .number x => .ok (Number.text x)
  | .bool flag => .ok (if flag then "true" else "false")
  | _ => .malformed (.valuesNotScalar key.name) (some path)

/-- The texts that an option lists. -/
def choiceValues (options : OptionSet) (key : OptionKey) (path : String) :
    Outcome (List String) :=
  match options.get? key with
  | some (.list (first :: rest)) => (first :: rest).mapM (choiceText key path)
  | _ => .malformed (.valuesNotAList key.name) (some path)

/-- A field restricted to listed values. It publishes no format, and its default is a text, or is
stated as absent when it has no text. -/
def compileChoice (ctx : FieldContext) (source : OptionKey) : Outcome CompiledField := do
  let values ← choiceValues ctx.options source ctx.path
  let given ← keywords ctx.options ctx.path
  let default ← given.default.mapM Value.toSetting
  let stated := { given with format := none, default := default }
  let head := ruleHead ctx .string stated
  return ⟨
    .leaf (.choice values) ⟨ctx.required, stated, {}⟩,
    .plain { head with constraints := { head.constraints with included := some values } }⟩

/-- A field of a scalar type other than a nested object. -/
def compileScalar (ctx : FieldContext) (type : ScalarType) : Outcome CompiledField :=
  match type with
  | .enumeration => compileChoice ctx .values
  | .string =>
      if (ctx.options.get? .included).isSome then compileChoice ctx .included
      else compilePlain ctx .string .string {}
  | .integer => compilePlain ctx .integer .integer {}
  | .number => compilePlain ctx .number .number {}
  | .boolean => compilePlain ctx .boolean .boolean {}
  | .uuid => compilePlain ctx .string .string { format := some "uuid" }
  | .date => compileTemporal ctx "date" .date TypeDefaults.dateExample
  | .datetime => compileTemporal ctx "date-time" .datetime TypeDefaults.datetimeExample
  | .decimal => compilePlain ctx .number .decimal { format := some "double" }
  | .object => do
      let stated ← keywords ctx.options ctx.path
      return ⟨.openObject ⟨ctx.required, stated, {}⟩, .plain (ruleHead ctx .map stated)⟩

/-- An array field whose elements have one type. -/
def compileArray (ctx : FieldContext) (element : ElementType) : Outcome CompiledField := do
  let stated ← keywords ctx.options ctx.path
  let head := ruleHead ctx .array stated
  let notes : Annotations := ⟨ctx.required, stated, {}⟩
  match element with
  | .string => return ⟨.array (.leaf .string ⟨ctx.required, {}, {}⟩) notes, .items head .string⟩
  | .integer => return ⟨.array (.leaf .integer ⟨ctx.required, {}, {}⟩) notes, .items head .integer⟩
  | .object => return ⟨.array (.object [] ⟨ctx.required, {}, {}⟩) notes, .itemFields head []⟩

/-- The merged options of a field: type defaults, then declared options, then overrides. -/
def mergeOptions (type : FieldType) (declared override defaults : OptionSet) (path : String) :
    Outcome OptionSet := do
  if type = .scalar .decimal then
    declared.requirePlainDecimals (some path)
    override.requirePlainDecimals (some path)
  let isDate := type = .scalar .date
  let declaredDays := if isDate then declared.toCalendarDays else declared
  let overrideDays := if isDate then override.toCalendarDays else override
  let declaredLiterals ← declaredDays.resolve (some path)
  let overrideLiterals ← overrideDays.resolve (some path)
  return overrideLiterals.onTopOf (declaredLiterals.onTopOf defaults)

/-- The type defaults that apply to a type; arrays have none. -/
def defaultsFor (defaults : TypeDefaults) : FieldType → OptionSet
  | .scalar type => defaults.optionsFor type
  | .array _ => []

/-- The context in which a field's type is mapped. -/
def fieldContext (around : Surroundings) (parent : String) (head : FieldHead) :
    Outcome FieldContext := do
  let path := joinPath parent head.name
  let override := OptionSet.ofValue ((around.overrides.get? path).getD .absent)
  let options ← mergeOptions head.type (OptionSet.ofEntries head.options) override
    (defaultsFor around.typeDefaults head.type) path
  return ⟨head.name, path, head.kind = .required, options⟩

/-- A field without an inline block. -/
def compileField (around : Surroundings) (parent : String) (head : FieldHead) :
    Outcome CompiledField := do
  let ctx ← fieldContext around parent head
  match head.type with
  | .scalar type => compileScalar ctx type
  | .array element => compileArray ctx element

/-- The properties that compiled fields contribute to their object, in enumeration order. -/
def properties (fields : List (String × CompiledField)) : Record Node :=
  Record.ofList (fields.map fun field => (field.1, field.2.node))

/-- The rules of compiled fields, in declared order. -/
def rules (fields : List (String × CompiledField)) : Descriptor :=
  fields.map fun field => field.2.rule

/-- A field whose inner fields are compiled. -/
def assembleBlock (ctx : FieldContext) (type : FieldType) (stated : Keywords)
    (inner : List (String × CompiledField)) : CompiledField :=
  let notes : Annotations := ⟨ctx.required, stated, {}⟩
  match type with
  | .array _ =>
      ⟨.array (.object (properties inner) ⟨ctx.required, {}, {}⟩) notes,
        .itemFields (ruleHead ctx .array stated) (rules inner)⟩
  | .scalar _ =>
      ⟨.object (properties inner) notes, .fields (ruleHead ctx .map stated) (rules inner)⟩

/-- A field that holds an embedded schema, or a list of its values. -/
def compileEmbed (lookup : String → Option Schema) (kind : EmbedKind) (name reference : String)
    (path : String) : Outcome CompiledField :=
  match lookup reference with
  | none => .error (.defect (.unknownReference reference (some path)))
  | some target =>
      match kind with
      | .one => .ok ⟨target.documentation, .fields ⟨name, .map, false, {}⟩ target.descriptor⟩
      | .many =>
          .ok ⟨.array target.documentation ⟨false, {}, {}⟩,
            .itemFields ⟨name, .array, false, {}⟩ target.descriptor⟩

mutual

/-- Compile one declaration below a parent. -/
def compileOne (around : Surroundings) (parent : String) : Declaration → Outcome CompiledField
  | .field head => compileField around parent head
  | .block head inner => do
      let ctx ← fieldContext around parent head
      let stated ← keywords ctx.options ctx.path
      let fields ← compileAll around ctx.path inner
      return assembleBlock ctx head.type stated fields
  | .embed kind name reference =>
      compileEmbed around.lookup kind name reference (joinPath parent name)

/-- Compile declarations in order, each under its name. -/
def compileAll (around : Surroundings) (parent : String) :
    List Declaration → Outcome (List (String × CompiledField))
  | [] => .ok []
  | d :: rest => do
      let field ← compileOne around parent d
      return (d.name, field) :: (← compileAll around parent rest)

end

variable {around : Surroundings} {parent : String}

theorem fieldContext_name {head : FieldHead} {ctx : FieldContext}
    (h : fieldContext around parent head = .ok ctx) : ctx.name = head.name := by
  obtain ⟨options, _, h⟩ := Outcome.bind_eq_ok.mp h
  obtain rfl := Outcome.pure_eq_ok.mp h
  rfl

theorem fieldContext_path {head : FieldHead} {ctx : FieldContext}
    (h : fieldContext around parent head = .ok ctx) : ctx.path = joinPath parent head.name := by
  obtain ⟨options, _, h⟩ := Outcome.bind_eq_ok.mp h
  obtain rfl := Outcome.pure_eq_ok.mp h
  rfl

/-- A field with an inline block is assembled of its own context and of the compiled block. -/
theorem compileBlock_eq_ok {head : FieldHead} {inner : List Declaration} {field : CompiledField} :
    compileOne around parent (.block head inner) = .ok field ↔
      ∃ ctx stated fields, fieldContext around parent head = .ok ctx ∧
        keywords ctx.options ctx.path = .ok stated ∧
        compileAll around ctx.path inner = .ok fields ∧
        assembleBlock ctx head.type stated fields = field := by
  simp only [compileOne, Outcome.bind_eq_ok, Outcome.pure_eq_ok, exists_and_left]

/-- A list of declarations is compiled one after another. -/
theorem compileAll_cons_eq_ok {d : Declaration} {rest : List Declaration}
    {fields : List (String × CompiledField)} :
    compileAll around parent (d :: rest) = .ok fields ↔
      ∃ field others, compileOne around parent d = .ok field ∧
        compileAll around parent rest = .ok others ∧ (d.name, field) :: others = fields := by
  simp only [compileAll, Outcome.bind_eq_ok, Outcome.pure_eq_ok, exists_and_left]

end Compilation

end FieldSchema
