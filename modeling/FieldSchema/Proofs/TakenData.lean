import FieldSchema.Proofs.DocumentationForm
import FieldSchema.Proofs.Idempotence
import FieldSchema.Proofs.JsonData

/-!
# Data that is taken over

A check takes over parts of the input, members that every object answers to, and defaults. What is
accepted of the members that are inherited is data too, and over type defaults that are JSON data so
is every default of a compiled schema. What a schema accepts of JSON data is therefore JSON data,
and so are the errors of what it rejects.
-/

namespace FieldSchema

/-! ## Defaults of compiled rules -/

/-- The default that a rule states is JSON data. -/
def RuleHead.HasJsonDefault (head : RuleHead) : Prop :=
  ∀ default, head.constraints.default = some default → default.IsJson

/-- The rule and the rules inside it state defaults that are JSON data. -/
def Rule.HasJsonDefaults (rule : Rule) : Prop :=
  ∀ head ∈ rule.heads, head.HasJsonDefault

/-- Every rule at every depth of a descriptor states a default that is JSON data, if any. -/
def Descriptor.HasJsonDefaults (d : Descriptor) : Prop :=
  ∀ head ∈ Rule.headsOfAll d, head.HasJsonDefault

namespace Compilation

open Outcome

theorem ruleHead_hasJsonDefault {ctx : FieldContext} (hjson : ctx.options.IsJson)
    {stated : Keywords} (hstated : keywords ctx.options ctx.path = .ok stated) (type : RuleType) :
    (ruleHead ctx type stated).HasJsonDefault := by
  intro default hdefault
  exact hjson.get? ((statesConstraints hstated).default.symm.trans hdefault)

section Scalar

variable {ctx : FieldContext} (hjson : ctx.options.IsJson) {field : CompiledField}

include hjson

theorem compilePlain_hasJsonDefaults {leaf : LeafType} {type : RuleType} {imposed : Imposed}
    (h : compilePlain ctx leaf type imposed = .ok field) : field.rule.HasJsonDefaults := by
  obtain ⟨stated, hstated, h⟩ := bind_eq_ok.mp h
  obtain rfl := pure_eq_ok.mp h
  exact Rule.forall_heads_plain (ruleHead_hasJsonDefault hjson hstated type)

theorem compileTemporal_hasJsonDefaults {format canonical : String} {type : RuleType}
    (h : compileTemporal ctx format type canonical = .ok field) : field.rule.HasJsonDefaults := by
  obtain ⟨stated, hstated, h⟩ := bind_eq_ok.mp h
  obtain ⟨sample, _, h⟩ := bind_eq_ok.mp h
  obtain rfl := pure_eq_ok.mp h
  exact Rule.forall_heads_plain (ruleHead_hasJsonDefault hjson hstated type)

/-- The default of a choice is the text of the stated one. -/
theorem compileChoice_hasJsonDefaults {source : OptionKey}
    (h : compileChoice ctx source = .ok field) : field.rule.HasJsonDefaults := by
  obtain ⟨values, _, h⟩ := bind_eq_ok.mp h
  obtain ⟨given, hgiven, h⟩ := bind_eq_ok.mp h
  obtain ⟨default, hdefault, h⟩ := bind_eq_ok.mp h
  obtain rfl := pure_eq_ok.mp h
  refine Rule.forall_heads_plain fun value hvalue => ?_
  obtain ⟨text, rfl⟩ := default_of_choice hjson hgiven hdefault hvalue
  exact .text text

theorem compileScalar_hasJsonDefaults {type : ScalarType}
    (h : compileScalar ctx type = .ok field) : field.rule.HasJsonDefaults := by
  cases type with
  | enumeration => exact compileChoice_hasJsonDefaults hjson h
  | string =>
      rw [compileScalar] at h
      split at h
      next => exact compileChoice_hasJsonDefaults hjson h
      next => exact compilePlain_hasJsonDefaults hjson h
  | date => exact compileTemporal_hasJsonDefaults hjson h
  | datetime => exact compileTemporal_hasJsonDefaults hjson h
  | object =>
      obtain ⟨stated, hstated, h⟩ := bind_eq_ok.mp h
      obtain rfl := pure_eq_ok.mp h
      exact Rule.forall_heads_plain (ruleHead_hasJsonDefault hjson hstated .map)
  | _ => exact compilePlain_hasJsonDefaults hjson h

theorem compileArray_hasJsonDefaults {element : ElementType}
    (h : compileArray ctx element = .ok field) : field.rule.HasJsonDefaults := by
  obtain ⟨stated, hstated, h⟩ := bind_eq_ok.mp h
  have hhead := ruleHead_hasJsonDefault hjson hstated .array
  cases element with
  | object =>
      obtain rfl := pure_eq_ok.mp h
      exact Rule.forall_heads_itemFields hhead (List.forall_mem_nil _)
  | _ =>
      obtain rfl := pure_eq_ok.mp h
      exact Rule.forall_heads_items hhead

end Scalar

/-- Embedding states no default of its own. -/
theorem compileEmbed_hasJsonDefaults {lookup : String → Option Schema} {kind : EmbedKind}
    {name reference path : String} {field : CompiledField}
    (hlookup : ∀ reference s, lookup reference = some s → s.descriptor.HasJsonDefaults)
    (h : compileEmbed lookup kind name reference path = .ok field) :
    field.rule.HasJsonDefaults := by
  obtain ⟨target, htarget, rfl⟩ := compileEmbed_eq_ok h
  have hinner := hlookup reference target htarget
  have hnone : ∀ type, RuleHead.HasJsonDefault ⟨name, type, false, {}⟩ :=
    fun _ _ hdefault => nomatch hdefault
  cases kind with
  | one => exact Rule.forall_heads_fields (hnone .map) hinner
  | many => exact Rule.forall_heads_itemFields (hnone .array) hinner

section Around

variable {around : Surroundings}

theorem compileField_hasJsonDefaults (hdefaults : around.typeDefaults.IsJson) {parent : String}
    {head : FieldHead} {field : CompiledField} (h : compileField around parent head = .ok field) :
    field.rule.HasJsonDefaults := by
  obtain ⟨ctx, hctx, h⟩ := bind_eq_ok.mp h
  have hjson := fieldContext_isJson hdefaults hctx
  cases htype : head.type with
  | scalar type => exact compileScalar_hasJsonDefaults hjson (by simpa only [htype] using h)
  | array element => exact compileArray_hasJsonDefaults hjson (by simpa only [htype] using h)

mutual

theorem compileOne_hasJsonDefaults (hdefaults : around.typeDefaults.IsJson)
    (hlookup : ∀ reference s, around.lookup reference = some s → s.descriptor.HasJsonDefaults)
    {parent : String} {d : Declaration} {field : CompiledField}
    (h : compileOne around parent d = .ok field) : field.rule.HasJsonDefaults := by
  cases d with
  | field head => exact compileField_hasJsonDefaults hdefaults h
  | block head inner =>
      obtain ⟨ctx, stated, fields, hctx, hstated, hfields, rfl⟩ := compileBlock_eq_ok.mp h
      have hhead := ruleHead_hasJsonDefault (fieldContext_isJson hdefaults hctx) hstated
      have hinner := compileAll_hasJsonDefaults hdefaults hlookup hfields
      unfold assembleBlock
      split
      next => exact Rule.forall_heads_itemFields (hhead .array) hinner
      next => exact Rule.forall_heads_fields (hhead .map) hinner
  | embed kind name reference => exact compileEmbed_hasJsonDefaults hlookup h
termination_by sizeOf d

theorem compileAll_hasJsonDefaults (hdefaults : around.typeDefaults.IsJson)
    (hlookup : ∀ reference s, around.lookup reference = some s → s.descriptor.HasJsonDefaults)
    {parent : String} {block : List Declaration} {fields : List (String × CompiledField)}
    (h : compileAll around parent block = .ok fields) :
    Descriptor.HasJsonDefaults (rules fields) := by
  cases block with
  | nil =>
      obtain rfl := Except.ok.inj h
      exact List.forall_mem_nil _
  | cons d rest =>
      obtain ⟨first, others, hfirst, hothers, rfl⟩ := compileAll_cons_eq_ok.mp h
      exact List.forall_mem_append.mpr ⟨compileOne_hasJsonDefaults hdefaults hlookup hfirst,
        compileAll_hasJsonDefaults hdefaults hlookup hothers⟩
termination_by sizeOf block

end

end Around

end Compilation

/-- A schema that is compiled over type defaults that are JSON data states such defaults only, where
the schemas that it may embed do. -/
theorem Schema.compile_hasJsonDefaults {around : Surroundings}
    (hdefaults : around.typeDefaults.IsJson)
    (hlookup : ∀ reference s, around.lookup reference = some s → s.descriptor.HasJsonDefaults)
    {name : String} {raw : Value} {s : Schema} {notices : List Notice}
    (h : Schema.compile name raw around = .ok (s, notices)) : s.descriptor.HasJsonDefaults := by
  obtain ⟨declared, fields, _, hfields, rfl, -⟩ := Schema.compile_eq_ok.mp h
  exact Compilation.compileAll_hasJsonDefaults hdefaults hlookup hfields

/-- What a run over type defaults that are JSON data holds states such defaults only. -/
theorem Session.run_hasJsonDefaults {defaults : TypeDefaults} (hdefaults : defaults.IsJson)
    (calls : List Call) {name : String} {s : Schema}
    (h : ((start defaults).run calls).registry.get? name = some s) :
    s.descriptor.HasJsonDefaults := by
  refine held_of_compile (P := fun s => s.descriptor.HasJsonDefaults) ?_ calls h
  rintro name raw around s notices rfl hlookup hcompile
  exact Schema.compile_hasJsonDefaults hdefaults hlookup hcompile

/-! ## Validators -/

/-- The validator looks at a value before it takes it over, and the defaults that it takes over are
JSON data. Elements of a list may be anything. -/
inductive Validator.TakesData : Validator → Prop
  | text (checks : TextChecks) : TakesData (.text checks)
  | choice (values : List String) : TakesData (.choice values)
  | number (checks : NumberChecks) : TakesData (.number checks)
  | boolean : TakesData .boolean
  | date : TakesData .date
  | dateTime : TakesData .dateTime
  | openMap : TakesData .openMap
  | object {fields : List (String × Presence × Validator)}
      (hdefaults : ∀ field ∈ fields, ∀ default, field.2.1.default = some default → default.IsJson)
      (hfields : ∀ field ∈ fields, field.2.2.TakesData) : TakesData (.object fields)
  | list {item : Validator} (hitem : item.TakesData) : TakesData (.list item)
  | listOfAnything : TakesData (.list .anything)

namespace Value

/-- JSON data, or what a member that is read may be besides: something with nothing in it. -/
def IsReadable (v : Value) : Prop :=
  v.IsJson ∨ v.isLeaf = true

theorem IsReadable.ownEntries {v : Value} (h : v.IsReadable) {name : String} {value : Value}
    (hvalue : Record.get? v.ownEntries name = some value) (hkeyed : v.isKeyed = true) :
    value.IsJson := by
  have hmem := Record.mem_of_get? hvalue
  rcases h with hjson | hleaf
  · cases hjson with
    | object hmembers => exact hmembers _ hmem
    | _ => cases hkeyed
  · cases v with
    | decimal digits =>
        obtain ⟨-, rfl⟩ := Prod.mk.inj (List.mem_singleton.mp hmem)
        exact .text digits
    | host kind =>
        cases kind with
        | fixedField =>
            obtain ⟨-, rfl⟩ := Prod.mk.inj (List.mem_singleton.mp hmem)
            exact .number 2
        | _ => cases hmem
    | object bare members => cases hleaf
    | date ms => cases hmem
    | ancestor common => cases hmem
    | _ => cases hkeyed

theorem IsReadable.read {v : Value} (h : v.IsReadable) (hkeyed : v.isKeyed = true) (name : String) :
    (v.read name).IsReadable := by
  unfold Value.read
  split
  next own hown => exact .inl (h.ownEntries hown hkeyed)
  next =>
    right
    split
    next => exact v.isLeaf_lineage
    next =>
      cases hshared : v.shared? name with
      | none => rfl
      | some value => exact isLeaf_shared? hshared

theorem IsReadable.items {items : List Value} (h : IsReadable (.list items)) :
    ∀ item ∈ items, item.IsJson := by
  rcases h with hjson | hleaf
  · cases hjson with
    | list hitems => exact hitems
  · cases hleaf

/-- What is read as missing is no member of the value itself. -/
theorem IsReadable.has_of_read_absent {v : Value} (h : v.IsReadable) (hkeyed : v.isKeyed = true)
    {name : String} (habsent : v.read name = .absent) : Record.has v.ownEntries name = false := by
  unfold Value.read at habsent
  split at habsent
  next own hown =>
    have hjson := h.ownEntries hown hkeyed
    rw [habsent] at hjson
    cases hjson
  next hnone =>
    rw [Record.has, hnone]
    rfl

end Value

/-! ## Checks -/

theorem Checked.wrongType_ne_clean {expected : Expected} {v taken : Value} :
    wrongType expected v ≠ .ok ⟨[], taken⟩ :=
  fun h => Validator.not_isClean_wrongType ⟨taken, h⟩

theorem checkForm_takesData {isForm : String → Bool} {otherwise : Cause} {v taken : Value}
    (h : checkForm isForm otherwise v = .ok ⟨[], taken⟩) : taken.IsJson := by
  unfold checkForm at h
  split at h
  next s =>
    split at h
    next =>
      obtain rfl := congrArg Checked.value (Except.ok.inj h)
      exact .text s
    next =>
      have hissues := congrArg Checked.issues (Except.ok.inj h)
      exact absurd hissues (List.cons_ne_nil _ _)
  next => exact absurd h Checked.wrongType_ne_clean

theorem TextChecks.check_takesData {checks : TextChecks} {v taken : Value}
    (h : checks.check v = .ok ⟨[], taken⟩) : taken.IsJson := by
  obtain rfl : taken = v := checks.keepsValue v _ h
  obtain ⟨lengths, _, h⟩ := Outcome.bind_eq_ok.mp h
  split at h
  next => exact .text _
  next =>
    obtain ⟨received, _, h⟩ := Outcome.bind_eq_ok.mp h
    have hissues := congrArg Checked.issues (Outcome.pure_eq_ok.mp h)
    exact absurd hissues (List.cons_ne_nil _ _)

theorem NumberChecks.check_takesData {checks : NumberChecks} {v taken : Value}
    (h : checks.check v = .ok ⟨[], taken⟩) : taken.IsJson := by
  unfold check at h
  split at h
  next x =>
    split at h
    next =>
      obtain rfl := congrArg Checked.value (Except.ok.inj h)
      exact .number x
    next => exact absurd h Checked.wrongType_ne_clean
  next => exact absurd h Checked.wrongType_ne_clean

theorem checkChoice_takesData {values : List String} {v taken : Value}
    (h : checkChoice values v = ⟨[], taken⟩) : taken.IsJson := by
  unfold checkChoice at h
  split at h
  next s =>
    split at h
    next =>
      obtain rfl := congrArg Checked.value h
      exact .text s
    next => exact absurd (congrArg Checked.issues h) (List.cons_ne_nil _ _)
  next => exact absurd (congrArg Checked.issues h) (List.cons_ne_nil _ _)

theorem openMembers_isJson {v : Value} (hv : v.IsReadable) {members : Record Value}
    (h : openMembers v = .ok (some members)) : ∀ entry ∈ members, entry.2.IsJson := by
  cases v with
  | object bare own =>
      rw [openMembers_object] at h
      obtain ⟨plain, _, h⟩ := Outcome.bind_eq_ok.mp h
      obtain ⟨-, rfl⟩ : plain = true ∧ own = members := by simpa using Outcome.pure_eq_ok.mp h
      rcases hv with hjson | hleaf
      · cases hjson with
        | object hown => exact hown
      · cases hleaf
  | ancestor common =>
      cases common with
      | ofObjects =>
          obtain rfl := Option.some.inj (Except.ok.inj h)
          exact List.forall_mem_nil _
      | _ => cases h
  | _ => cases h

theorem checkOpenMap_takesData {v taken : Value} (hv : v.IsReadable)
    (h : checkOpenMap v = .ok ⟨[], taken⟩) : taken.IsJson := by
  obtain ⟨members?, hmembers, h⟩ := Outcome.bind_eq_ok.mp h
  split at h
  next members =>
    obtain rfl := congrArg Checked.value (Outcome.pure_eq_ok.mp h)
    exact .object fun entry hentry => openMembers_isJson hv hmembers entry
      (List.mem_of_mem_filter hentry)
  next => exact absurd h Checked.wrongType_ne_clean

/-- What a field takes over is JSON data, unless a missing value is left missing. -/
theorem Presence.check_takesData {p : Presence} {inner : Value → Outcome Checked} {v taken : Value}
    (hdefault : ∀ default, p.default = some default → default.IsJson)
    (hinner : inner v = .ok ⟨[], taken⟩ → taken.IsJson) (h : p.check inner v = .ok ⟨[], taken⟩) :
    taken.IsJson ∨ v = .absent ∧ p.leavesOut false taken = true := by
  unfold check at h
  split at h
  next default hstated =>
    obtain rfl := congrArg Checked.value (Except.ok.inj h)
    exact .inl (hdefault _ hstated)
  next hnone =>
    split at h
    next => exact .inl (hinner h)
    next hoptional =>
      obtain rfl := congrArg Checked.value (Except.ok.inj h)
      exact .inr ⟨rfl, by simp [leavesOut, isOptional, hoptional, hnone, Checked.clean,
        Value.isAbsent]⟩
  next =>
    split at h
    next =>
      obtain rfl := congrArg Checked.value (Except.ok.inj h)
      exact .inl .null
    next => exact .inl (hinner h)
  next => exact .inl (hinner h)

namespace Validator

theorem checkItems_takesData {check : Value → Outcome Checked} {items : List Value}
    (hcheck : ∀ item ∈ items, ∀ taken, check item = .ok ⟨[], taken⟩ → taken.IsJson)
    {position : Nat} {taken : List Value}
    (h : checkItems check position items = .ok ⟨[], taken⟩) : ∀ item ∈ taken, item.IsJson := by
  induction items generalizing position taken with
  | nil =>
      obtain rfl := congrArg CheckedItems.items (Except.ok.inj h)
      exact List.forall_mem_nil _
  | cons item rest ih =>
      rw [List.forall_mem_cons] at hcheck
      obtain ⟨first, others, hfirst, hothers, rfl⟩ := checkItems_cons_clean h
      exact List.forall_mem_cons.mpr ⟨hcheck.1 first hfirst, ih hcheck.2 hothers⟩

/-- The fields of an object take over JSON data where each of them does. -/
theorem checkFields_takesData {fields : List (String × Presence × Validator)} {v : Value}
    (hv : v.IsReadable) (hkeyed : v.isKeyed = true)
    (hdefaults : ∀ field ∈ fields, ∀ default, field.2.1.default = some default → default.IsJson)
    (hfields : ∀ field ∈ fields, ∀ taken,
      field.2.2.check (v.read field.1) = .ok ⟨[], taken⟩ → taken.IsJson)
    {members : Record Value} (h : checkFields fields v = .ok ⟨[], members⟩) :
    ∀ entry ∈ members, entry.2.IsJson := by
  induction fields generalizing members with
  | nil =>
      rw [checkFields] at h
      obtain rfl := congrArg CheckedFields.members (Except.ok.inj h)
      exact List.forall_mem_nil _
  | cons field rest ih =>
      obtain ⟨name, presence, validator⟩ := field
      rw [List.forall_mem_cons] at hdefaults hfields
      obtain ⟨taken, others, hfirst, hothers, rfl⟩ := checkFields_cons_clean h
      have hmembers := ih hdefaults.2 hfields.2 hothers
      split
      next => exact hmembers
      next hkept =>
        refine List.forall_mem_cons.mpr ⟨?_, hmembers⟩
        rcases Presence.check_takesData hdefaults.1 (hfields.1 _) hfirst with
          hjson | ⟨habsent, hout⟩
        · exact hjson
        -- what is read as missing is no own member, so the field would have been left out
        · rw [hv.has_of_read_absent hkeyed habsent, hout, Bool.or_true] at hkept
          exact absurd rfl hkept

end Validator

theorem Validator.check_list_clean {item : Validator} {v taken : Value}
    (h : (list item).check v = .ok ⟨[], taken⟩) :
    ∃ items others, v = .list items ∧ taken = .list others ∧
      checkItems item.check 0 items = .ok ⟨[], others⟩ := by
  cases v with
  | list items =>
      rw [check] at h
      obtain ⟨⟨issues, others⟩, hchecked, h⟩ := Outcome.bind_eq_ok.mp h
      obtain ⟨rfl, rfl⟩ := Checked.mk.inj (Outcome.pure_eq_ok.mp h)
      exact ⟨items, others, rfl, rfl, hchecked⟩
  | _ =>
      rw [check] at h
      · exact absurd h Checked.wrongType_ne_clean
      · simp

/-- A check that accepts a value takes over JSON data. -/
theorem Validator.TakesData.check {validator : Validator} (h : validator.TakesData)
    {v taken : Value} (hv : v.IsReadable) (hcheck : validator.check v = .ok ⟨[], taken⟩) : taken.IsJson := by
  induction h generalizing v taken with
  | text checks =>
      rw [Validator.check] at hcheck
      exact TextChecks.check_takesData hcheck
  | choice values =>
      rw [Validator.check] at hcheck
      exact checkChoice_takesData (Except.ok.inj hcheck)
  | number checks =>
      rw [Validator.check] at hcheck
      exact NumberChecks.check_takesData hcheck
  | boolean =>
      obtain rfl : taken = v := Validator.keepsValue_check rfl v _ hcheck
      cases taken with
      | bool flag => exact .bool flag
      | _ =>
          rw [Validator.check] at hcheck
          · exact absurd hcheck Checked.wrongType_ne_clean
          · simp
  | date =>
      rw [Validator.check] at hcheck
      exact checkForm_takesData hcheck
  | dateTime =>
      rw [Validator.check] at hcheck
      exact checkForm_takesData hcheck
  | openMap =>
      rw [Validator.check] at hcheck
      exact checkOpenMap_takesData hv hcheck
  | object hdefaults hfields ih =>
      rw [Validator.check] at hcheck
      split at hcheck
      next hkeyed =>
        obtain ⟨⟨issues, members⟩, hchecked, hcheck⟩ := Outcome.bind_eq_ok.mp hcheck
        obtain ⟨rfl, rfl⟩ := Checked.mk.inj (Outcome.pure_eq_ok.mp hcheck)
        refine .object (Validator.checkFields_takesData hv hkeyed hdefaults ?_ hchecked)
        exact fun field hfield taken => ih field hfield (hv.read hkeyed field.1)
      next => exact absurd hcheck Checked.wrongType_ne_clean
  | list hitem ih =>
      obtain ⟨items, others, rfl, rfl, hchecked⟩ := Validator.check_list_clean hcheck
      refine .list (Validator.checkItems_takesData ?_ hchecked)
      exact fun item hmem taken => ih (.inl (hv.items item hmem))
  | listOfAnything =>
      obtain ⟨items, others, rfl, rfl, hchecked⟩ := Validator.check_list_clean hcheck
      refine .list (Validator.checkItems_takesData ?_ hchecked)
      intro item hmem taken htaken
      obtain rfl : taken = item := Validator.keepsValue_check rfl item _ htaken
      exact hv.items taken hmem

/-! ## Validators of compiled rules -/

/-- Data is its own default: it is no function, and it is there. -/
theorem Value.IsJson.defaultOf_eq_self {v : Value} (h : v.IsJson) :
    Presence.defaultOf v = some v := by
  cases h <;> rfl

theorem RuleHead.HasJsonDefault.presence {head : RuleHead} (h : head.HasJsonDefault)
    {default : Value} (hdefault : (Presence.ofHead head).default = some default) :
    default.IsJson := by
  obtain ⟨stated, hstated, hdefault⟩ := Option.bind_eq_some_iff.mp hdefault
  have hjson := h stated hstated
  rw [hjson.defaultOf_eq_self] at hdefault
  obtain rfl := Option.some.inj hdefault
  exact hjson

namespace Validator

theorem takesData_ofItem (item : ItemType) : (ofItem item).TakesData := by
  cases item with
  | string => exact .text {}
  | integer => exact .number _
  | map => exact .openMap

theorem takesData_ofType {type : RuleType} {c : Constraints} {map item : Outcome Validator}
    {validator : Validator} (hmap : ∀ inner, map = .ok inner → inner.TakesData)
    (hitem : ∀ inner, item = .ok inner → inner = .anything ∨ inner.TakesData)
    (h : ofType type c map item = .ok validator) : validator.TakesData := by
  cases type with
  | string =>
      unfold ofType at h
      dsimp only at h
      split at h
      next =>
        obtain rfl := Except.ok.inj h
        exact .choice _
      next =>
        obtain ⟨checks, _, h⟩ := Outcome.bind_eq_ok.mp h
        obtain rfl := Outcome.pure_eq_ok.mp h
        exact .text checks
  | array =>
      obtain ⟨inner, hinner, h⟩ := Outcome.bind_eq_ok.mp h
      obtain rfl := Outcome.pure_eq_ok.mp h
      rcases hitem inner hinner with rfl | hinner
      · exact .listOfAnything
      · exact .list hinner
  | map => exact hmap validator h
  | boolean =>
      obtain rfl := Except.ok.inj h
      exact .boolean
  | date =>
      obtain rfl := Except.ok.inj h
      exact .date
  | datetime =>
      obtain rfl := Except.ok.inj h
      exact .dateTime
  | _ =>
      obtain rfl := Except.ok.inj h
      exact .number _

mutual

theorem takesData_ofRule {rule : Rule} (hdefaults : rule.HasJsonDefaults) {validator : Validator}
    (h : ofRule rule = .ok validator) : validator.TakesData := by
  -- without rules of its own a map may have any members, and a list any items
  have hopen : ∀ inner, Except.ok Validator.openMap = (.ok inner : Outcome Validator) →
      inner.TakesData := by
    rintro _ ⟨⟩
    exact .openMap
  have hanything : ∀ inner, Except.ok Validator.anything = (.ok inner : Outcome Validator) →
      inner = .anything ∨ inner.TakesData := by
    rintro _ ⟨⟩
    exact .inl rfl
  cases rule with
  | plain head =>
      rw [ofRule] at h
      exact takesData_ofType hopen hanything h
  | items head item =>
      rw [ofRule] at h
      refine takesData_ofType hopen ?_ h
      rintro _ ⟨⟩
      exact .inr (takesData_ofItem item)
  | fields head inner =>
      rw [Rule.HasJsonDefaults, Rule.heads] at hdefaults
      rw [ofRule] at h
      refine takesData_ofType (fun validator hinner => ?_) hanything h
      exact takesData_ofRules (List.forall_mem_cons.mp hdefaults).2 hinner
  | itemFields head inner =>
      rw [Rule.HasJsonDefaults, Rule.heads] at hdefaults
      rw [ofRule] at h
      refine takesData_ofType hopen (fun validator hinner => .inr ?_) h
      exact takesData_ofRules (List.forall_mem_cons.mp hdefaults).2 hinner
termination_by (sizeOf rule, 0)

theorem takesData_ofRules {rules : List Rule} (hdefaults : Descriptor.HasJsonDefaults rules)
    {validator : Validator} (h : ofRules rules = .ok validator) : validator.TakesData := by
  rw [ofRules] at h
  obtain ⟨fields, hfields, h⟩ := Outcome.bind_eq_ok.mp h
  obtain rfl := Outcome.pure_eq_ok.mp h
  have hall := takesData_ofFields hdefaults hfields
  refine .object (fun field hfield => ?_) (fun field hfield => ?_)
  · exact (hall field (Record.mem_of_mem_ofList hfield)).1
  · exact (hall field (Record.mem_of_mem_ofList hfield)).2
termination_by (sizeOf rules, 1)

theorem takesData_ofFields {rules : List Rule} (hdefaults : Descriptor.HasJsonDefaults rules)
    {fields : List (String × Presence × Validator)} (h : ofFields rules = .ok fields) :
    ∀ field ∈ fields, (∀ default, field.2.1.default = some default → default.IsJson) ∧
      field.2.2.TakesData := by
  cases rules with
  | nil =>
      rw [ofFields] at h
      obtain rfl := Except.ok.inj h
      exact List.forall_mem_nil _
  | cons rule rest =>
      rw [ofFields] at h
      obtain ⟨first, hfirst, h⟩ := Outcome.bind_eq_ok.mp h
      obtain ⟨others, hothers, h⟩ := Outcome.bind_eq_ok.mp h
      obtain rfl := Outcome.pure_eq_ok.mp h
      rw [Descriptor.HasJsonDefaults, Rule.headsOfAll, List.forall_mem_append] at hdefaults
      refine List.forall_mem_cons.mpr ⟨⟨fun default => ?_, ?_⟩, ?_⟩
      · exact RuleHead.HasJsonDefault.presence (hdefaults.1 _ rule.head_mem_heads)
      · exact takesData_ofRule hdefaults.1 hfirst
      · exact takesData_ofFields hdefaults.2 hothers
termination_by (sizeOf rules, 0)

end

end Validator

/-- What a descriptor accepts of JSON data is JSON data. -/
theorem Descriptor.HasJsonDefaults.judge {d : Descriptor} (h : d.HasJsonDefaults) {input : Value}
    (hinput : input.IsJson) {value : Value} (hjudge : d.judge input = .ok (.accepted value)) :
    value.IsJson := by
  obtain ⟨validator, hvalidator, hjudge⟩ := Outcome.bind_eq_ok.mp hjudge
  have hcheck := (validator.judge_accepted_iff input value).mp hjudge
  exact (Validator.takesData_ofRules h hvalidator).check (.inl hinput) hcheck

/-- The messages of what was rejected are JSON data. -/
theorem FieldErrors.toValue_isJson (errors : FieldErrors) : errors.toValue.IsJson := by
  refine .object fun entry hentry => ?_
  obtain ⟨⟨name, messages⟩, -, rfl⟩ := List.mem_map.mp hentry
  refine .list fun item hitem => ?_
  obtain ⟨message, -, rfl⟩ := List.mem_map.mp hitem
  exact .text message

end FieldSchema
