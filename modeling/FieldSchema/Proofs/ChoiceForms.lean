import FieldSchema.Proofs.DocumentationForm
import FieldSchema.Proofs.MergedOptions
import FieldSchema.Proofs.Overriding

/-!
# Two forms of a choice

A text that is restricted to listed values is declared either as a string with the values included
or as an enum of the values. Which form raw declarations use makes no difference, at any depth: they
compile to equal schemas with equal notices, or none of them compiles.
-/

namespace FieldSchema

open Outcome

/-- A form in which a text restricted to listed values is declared. -/
inductive ChoiceForm where
  /-- A string with values included. -/
  | text
  /-- An enum of values. -/
  | enumeration

/-- The options list no values in either form. -/
def Record.ListsNone (options : Record Value) : Prop :=
  options.get? "values" = none ∧ options.get? "included" = none

namespace ChoiceForm

/-- The type of the declared field. -/
def type : ChoiceForm → ScalarType
  | .text => .string
  | .enumeration => .enumeration

/-- The option that lists the values. -/
def key : ChoiceForm → OptionKey
  | .text => .included
  | .enumeration => .values

/-- A raw declaration in this form, with listed values besides other options. -/
def declaration (form : ChoiceForm) (kind name : Value) (options : Record Value)
    (listed : Value) : Value :=
  .list [kind, name, .text form.type.name, .object false (options.set form.key.name listed)]

/-- The field that a declaration in this form declares. -/
def head (form : ChoiceForm) (kind : FieldKind) (name : String) (options : Record Value)
    (listed : Value) : FieldHead :=
  ⟨kind, name, .scalar form.type, Record.erase (options.set form.key.name listed) "fields"⟩

end ChoiceForm

/-- The type defaults have nothing for strings and enums. -/
def TypeDefaults.SpareChoices (defaults : TypeDefaults) : Prop :=
  ∀ form : ChoiceForm, defaults.optionsFor form.type = []

mutual

/-- Two raw lists of declarations below a parent differ at most in the forms of their choices. No
override lists values for a choice whose form differs. -/
inductive Value.SameButForms (overrides : Record Value) : String → Value → Value → Prop
  | refl (parent : String) (raw : Value) : SameButForms overrides parent raw raw
  | list {parent : String} {entries others : List Value}
      (each : Value.EachSameButForms overrides parent entries others) :
      SameButForms overrides parent (.list entries) (.list others)

inductive Value.EachSameButForms (overrides : Record Value) :
    String → List Value → List Value → Prop
  | nil (parent : String) : EachSameButForms overrides parent [] []
  | cons {parent : String} {entry other : Value} {rest others : List Value}
      (first : Value.EntrySameButForms overrides parent entry other)
      (each : Value.EachSameButForms overrides parent rest others) :
      EachSameButForms overrides parent (entry :: rest) (other :: others)

/-- Two raw declarations differ at most in the form of the choice that they declare, or in the forms
of choices within their inline blocks. -/
inductive Value.EntrySameButForms (overrides : Record Value) : String → Value → Value → Prop
  | refl (parent : String) (entry : Value) : EntrySameButForms overrides parent entry entry
  | choice {parent : String} (form other : ChoiceForm) (kind name : Value)
      {options : Record Value} (listed : Value) (unlisted : options.ListsNone)
      (overridden : ∀ word, name = .text word →
        (Compilation.entriesAt overrides (joinPath parent word)).ListsNone) :
      EntrySameButForms overrides parent (form.declaration kind name options listed)
        (other.declaration kind name options listed)
  | inside {parent name : String} {kind tag : Value} {bare otherBare : Bool}
      {options others : Record Value} {raw other : Value}
      (rest : others.erase "fields" = options.erase "fields")
      (block : Declaration.givenBlock? options = some raw)
      (otherBlock : Declaration.givenBlock? others = some other)
      (same : Value.SameButForms overrides (joinPath parent name) raw other) :
      EntrySameButForms overrides parent (.list [kind, .text name, tag, .object bare options])
        (.list [kind, .text name, tag, .object otherBare others])

end

namespace Value

variable {overrides : Record Value}

mutual

theorem SameButForms.symm {parent : String} {raw other : Value}
    (h : raw.SameButForms overrides parent other) : other.SameButForms overrides parent raw :=
  match h with
  | .refl _ _ => .refl _ _
  | .list each => .list each.symm

theorem EachSameButForms.symm {parent : String} {entries others : List Value}
    (h : Value.EachSameButForms overrides parent entries others) :
    Value.EachSameButForms overrides parent others entries :=
  match h with
  | .nil _ => .nil _
  | .cons first each => .cons first.symm each.symm

theorem EntrySameButForms.symm {parent : String} {entry other : Value}
    (h : entry.EntrySameButForms overrides parent other) :
    other.EntrySameButForms overrides parent entry :=
  match h with
  | .refl _ _ => .refl _ _
  | .choice form other kind name listed unlisted overridden =>
      .choice other form kind name listed unlisted overridden
  | .inside rest block otherBlock same => .inside rest.symm otherBlock block same.symm

end

end Value

/-! ## Options of a choice -/

theorem OptionKey.name_injective {key other : OptionKey} (h : key.name = other.name) :
    key = other := by
  revert h
  cases key <;> cases other <;> decide

namespace ChoiceForm

theorem isPlain (form : ChoiceForm) :
    FieldType.scalar form.type ≠ .scalar .decimal ∧ FieldType.scalar form.type ≠ .scalar .date := by
  cases form <;> exact ⟨by decide, by decide⟩

theorem get?_of_listsNone {options : Record Value} (h : options.ListsNone) (form : ChoiceForm) :
    options.get? form.key.name = none := by
  cases form with
  | text => exact h.2
  | enumeration => exact h.1

variable {kind : FieldKind} {name : String} {options : Record Value} {listed : Value}

theorem get?_head (form : ChoiceForm) (key : OptionKey) :
    Record.get? (form.head kind name options listed).options key.name =
      if key = form.key then some listed else options.get? key.name := by
  rw [head, Record.get?_erase, if_neg key.name_ne_fields, Record.get?_set]
  by_cases hkey : key = form.key
  · rw [if_pos hkey, if_pos (congrArg _ hkey)]
  · rw [if_neg hkey, if_neg fun heq => hkey (OptionKey.name_injective heq)]

/-- An option of a choice once its options are merged. -/
def merged? (form : ChoiceForm) (options override : Record Value) (listed : Value)
    (key : OptionKey) : Option Value :=
  ((override.get? key.name).or
    (if key = form.key then some listed else options.get? key.name)).map Value.resolved

theorem merged?_key (form : ChoiceForm) {override : Record Value} (h : override.ListsNone) :
    form.merged? options override listed form.key = some listed.resolved := by
  rw [merged?, get?_of_listsNone h, if_pos rfl]
  rfl

theorem merged?_other (form other : ChoiceForm) {override : Record Value} {key : OptionKey}
    (hkey : ∀ any : ChoiceForm, key ≠ any.key) :
    other.merged? options override listed key = form.merged? options override listed key := by
  rw [merged?, merged?, if_neg (hkey form), if_neg (hkey other)]

end ChoiceForm

namespace Compilation

/-- The options of a field that is no date and no decimal merge where all that are given are
literal. -/
theorem mergeOptions_eq_ok_of_plain {type : FieldType} (hdecimal : type ≠ .scalar .decimal)
    (hdate : type ≠ .scalar .date) {declared override : Record Value} {defaults options : OptionSet}
    {path : String} :
    mergeOptions type (OptionSet.ofEntries declared) (OptionSet.ofEntries override) defaults path =
        .ok options ↔
      (∀ key v, declared.get? (OptionKey.name key) = some v ∨ override.get? key.name = some v →
        v.IsLiteral) ∧
      options = (literals type (OptionSet.ofEntries override)).onTopOf
        ((literals type (OptionSet.ofEntries declared)).onTopOf defaults) := by
  have hprepared (key : OptionKey) (v : Value) : preparedValue type key v = v := if_neg hdate
  rw [mergeOptions_eq_ok_iff]
  constructor
  · rintro ⟨-, hliteral, heq⟩
    refine ⟨fun key v hgiven => ?_, heq⟩
    have hmem : (key, v) ∈ OptionSet.examined OptionKey.all declared override := by
      rw [OptionSet.examined, List.mem_append, OptionSet.mem_givenAmong, OptionSet.mem_givenAmong]
      exact hgiven.imp (⟨key.mem_all, ·⟩) (⟨key.mem_all, ·⟩)
    have hv := not_not.mp (hliteral (key, v) hmem)
    rwa [hprepared] at hv
  · rintro ⟨hliteral, heq⟩
    refine ⟨fun h => absurd h hdecimal, ?_, heq⟩
    rintro ⟨key, v⟩ hmem
    rw [OptionSet.examined, List.mem_append, OptionSet.mem_givenAmong,
      OptionSet.mem_givenAmong] at hmem
    refine not_not.mpr ?_
    rw [hprepared]
    exact hliteral key v (hmem.imp And.right And.right)

theorem isAbsent_resolved {v : Value} (h : v.IsLiteral) : v.resolved.isAbsent = false := by
  cases h <;> rfl

section Choice

variable {kind : FieldKind} {name path : String} {options override : Record Value} {listed : Value}

theorem isLiteral_of_mergeOptions {defaults merged : OptionSet} (form : ChoiceForm)
    (h : mergeOptions (.scalar form.type)
      (OptionSet.ofEntries (form.head kind name options listed).options)
      (OptionSet.ofEntries override) defaults path = .ok merged) : listed.IsLiteral := by
  obtain ⟨hliteral, -⟩ := (mergeOptions_eq_ok_of_plain form.isPlain.1 form.isPlain.2).mp h
  refine hliteral form.key listed (.inl ?_)
  rw [ChoiceForm.get?_head, if_pos rfl]

/-- Whether by the declaration or by an override, a choice has listed values. -/
theorem isSome_of_mergeOptions {defaults merged : OptionSet} (form : ChoiceForm)
    (h : mergeOptions (.scalar form.type)
      (OptionSet.ofEntries (form.head kind name options listed).options)
      (OptionSet.ofEntries override) defaults path = .ok merged) :
    (merged.get? form.key).isSome = true := by
  obtain ⟨hliteral, rfl⟩ := (mergeOptions_eq_ok_of_plain form.isPlain.1 form.isPlain.2).mp h
  have hdeclared : Record.get? (form.head kind name options listed).options form.key.name =
      some listed := by
    rw [ChoiceForm.get?_head, if_pos rfl]
  have hgiven : ∃ v, (override.get? form.key.name).or (some listed) = some v ∧ v.IsLiteral := by
    cases hoverride : override.get? form.key.name with
    | none => exact ⟨listed, rfl, hliteral form.key listed (.inl hdeclared)⟩
    | some v => exact ⟨v, rfl, hliteral form.key v (.inr hoverride)⟩
  obtain ⟨v, hv, hv_literal⟩ := hgiven
  rw [OptionSet.get?, lookup_merged, givenLiteral?, hdeclared, hv]
  simp [preparedValue, form.isPlain.2, Value.toOption, isAbsent_resolved hv_literal]

/-- The options of a choice merge in one form where they merge in the other. -/
theorem mergeOptions_otherForm (hunlisted : options.ListsNone) (form other : ChoiceForm)
    {merged : OptionSet}
    (h : mergeOptions (.scalar form.type)
      (OptionSet.ofEntries (form.head kind name options listed).options)
      (OptionSet.ofEntries override) [] path = .ok merged) :
    ∃ others, mergeOptions (.scalar other.type)
        (OptionSet.ofEntries (other.head kind name options listed).options)
        (OptionSet.ofEntries override) [] path = .ok others ∧
      listed.IsLiteral ∧
      (∀ key, List.lookup key merged = form.merged? options override listed key) ∧
      ∀ key, List.lookup key others = other.merged? options override listed key := by
  have hlisted := isLiteral_of_mergeOptions form h
  have hlookup (any : ChoiceForm) (key : OptionKey) :
      (givenLiteral? (.scalar any.type) (any.head kind name options listed).options override key).or
          (List.lookup key []) = any.merged? options override listed key := by
    rw [List.lookup_nil, Option.or_none, givenLiteral?, ChoiceForm.get?_head, ChoiceForm.merged?]
    congr 1
    funext v
    rw [preparedValue, if_neg any.isPlain.2]
  obtain ⟨hliteral, rfl⟩ := (mergeOptions_eq_ok_of_plain form.isPlain.1 form.isPlain.2).mp h
  have hothers : ∀ key v, Record.get? (other.head kind name options listed).options
      (OptionKey.name key) = some v ∨ override.get? key.name = some v → v.IsLiteral := by
    rintro key v (hdeclared | hoverride)
    · rw [ChoiceForm.get?_head] at hdeclared
      split at hdeclared
      next => exact Option.some.inj hdeclared ▸ hlisted
      next =>
        refine hliteral key v (.inl ?_)
        rw [ChoiceForm.get?_head, if_neg, hdeclared]
        rintro rfl
        rw [ChoiceForm.get?_of_listsNone hunlisted] at hdeclared
        cases hdeclared
    · exact hliteral key v (.inr hoverride)
  refine ⟨_, (mergeOptions_eq_ok_of_plain other.isPlain.1 other.isPlain.2).mpr ⟨hothers, rfl⟩,
    hlisted, fun key => ?_, fun key => ?_⟩
  · rw [lookup_merged, hlookup form]
  · rw [lookup_merged, hlookup other]

/-! ## Compiling a choice -/

/-- The contexts of one choice in two forms give the listed values under the keys of their forms,
and agree on all other options. -/
structure SameButForm (form other : ChoiceForm) (ctx otherCtx : FieldContext) : Prop where
  name : otherCtx.name = ctx.name
  path : otherCtx.path = ctx.path
  required : otherCtx.required = ctx.required
  listed : otherCtx.options.get? other.key = ctx.options.get? form.key
  options : ∀ key, (∀ any : ChoiceForm, key ≠ any.key) →
    otherCtx.options.get? key = ctx.options.get? key

variable {around : Surroundings} {parent : String}

theorem isSome_of_fieldContext (form : ChoiceForm) {ctx : FieldContext}
    (h : fieldContext around parent (form.head kind name options listed) = .ok ctx) :
    (ctx.options.get? form.key).isSome = true := by
  obtain ⟨merged, hmerged, rfl⟩ := fieldContext_eq_ok_iff.mp h
  exact isSome_of_mergeOptions form hmerged

theorem fieldContext_otherForm
    (hdefaults : around.typeDefaults.SpareChoices)
    (hunlisted : options.ListsNone)
    (hoverride : (entriesAt around.overrides (joinPath parent name)).ListsNone)
    (form other : ChoiceForm) {ctx : FieldContext}
    (h : fieldContext around parent (form.head kind name options listed) = .ok ctx) :
    ∃ otherCtx, fieldContext around parent (other.head kind name options listed) = .ok otherCtx ∧
      SameButForm form other ctx otherCtx := by
  obtain ⟨merged, hmerged, rfl⟩ := fieldContext_eq_ok_iff.mp h
  have hnone (any : ChoiceForm) :
      defaultsFor around.typeDefaults (any.head kind name options listed).type = [] :=
    hdefaults any
  rw [hnone] at hmerged
  obtain ⟨others, hothers, hliteral, hlookup, hotherLookup⟩ :=
    mergeOptions_otherForm hunlisted form other hmerged
  have hlisted (any : ChoiceForm) (merged : OptionSet)
      (hlookup : ∀ key, List.lookup key merged =
        any.merged? options (entriesAt around.overrides (joinPath parent name)) listed key) :
      merged.get? any.key = some listed.resolved := by
    rw [OptionSet.get?, hlookup, ChoiceForm.merged?_key any hoverride]
    simp [Value.toOption, isAbsent_resolved hliteral]
  refine ⟨⟨name, joinPath parent name, kind = .required, others⟩, ?_, ⟨rfl, rfl, rfl, ?_, ?_⟩⟩
  · refine fieldContext_eq_ok_iff.mpr ⟨others, ?_, rfl⟩
    rw [hnone]
    exact hothers
  · exact (hlisted other others hotherLookup).trans (hlisted form merged hlookup).symm
  · intro key hkey
    rw [OptionSet.get?, OptionSet.get?, hotherLookup, hlookup,
      ChoiceForm.merged?_other form other hkey]

/-- No keyword is stated by an option that lists values. -/
theorem keywords_otherForm {form other : ChoiceForm} {ctx otherCtx : FieldContext}
    (h : SameButForm form other ctx otherCtx) :
    keywords otherCtx.options otherCtx.path = keywords ctx.options ctx.path := by
  have hother (key : OptionKey) (hvalues : key ≠ .values) (hincluded : key ≠ .included) :
      otherCtx.options.get? key = ctx.options.get? key := by
    refine h.options key fun any => ?_
    cases any with
    | text => exact hincluded
    | enumeration => exact hvalues
  simp (disch := decide) only [keywords, numberOption, textOption, flagOption, hother, h.path]

theorem compileChoice_otherForm {form other : ChoiceForm} {ctx otherCtx : FieldContext}
    (h : SameButForm form other ctx otherCtx) :
    Implies (compileChoice ctx form.key) (compileChoice otherCtx other.key) := by
  have hvalues : Implies (choiceValues ctx.options form.key ctx.path)
      (choiceValues otherCtx.options other.key otherCtx.path) := by
    unfold choiceValues
    rw [h.listed]
    split
    next =>
      refine .mapM _ fun v => ?_
      unfold choiceText
      split <;> simp
    next => simp
  unfold compileChoice
  refine hvalues.bind fun values => ?_
  rw [keywords_otherForm h]
  refine (Implies.refl _).bind fun given => (Implies.refl _).bind fun default => ?_
  dsimp only [ruleHead]
  rw [h.name, h.required]
  exact .refl _

theorem compileScalar_choice (form : ChoiceForm) {ctx : FieldContext}
    (h : (ctx.options.get? form.key).isSome = true) :
    compileScalar ctx form.type = compileChoice ctx form.key := by
  cases form with
  | text => exact if_pos h
  | enumeration => rfl

/-- A choice compiles in one form to what it compiles to in the other. -/
theorem compileField_otherForm
    (hdefaults : around.typeDefaults.SpareChoices)
    (hunlisted : options.ListsNone)
    (hoverride : (entriesAt around.overrides (joinPath parent name)).ListsNone)
    (form other : ChoiceForm) :
    Implies (compileField around parent (form.head kind name options listed))
      (compileField around parent (other.head kind name options listed)) := by
  intro field h
  obtain ⟨ctx, hctx, h⟩ := bind_eq_ok.mp h
  obtain ⟨otherCtx, hother, hsame⟩ :=
    fieldContext_otherForm hdefaults hunlisted hoverride form other hctx
  refine bind_eq_ok.mpr ⟨otherCtx, hother, ?_⟩
  have hlisted := isSome_of_fieldContext form hctx
  have hotherListed := isSome_of_fieldContext other hother
  change compileScalar ctx form.type = .ok field at h
  change compileScalar otherCtx other.type = .ok field
  rw [compileScalar_choice form hlisted] at h
  rw [compileScalar_choice other hotherListed]
  exact compileChoice_otherForm hsame field h

/-- A choice in either form is published with its texts, without a format, and with a default that
is a text, if it has one. -/
theorem offersChoice_of_compileField (hdefaults : around.typeDefaults.SpareChoices)
    (form : ChoiceForm) {field : CompiledField}
    (h : compileField around parent (form.head kind name options listed) = .ok field) :
    ∃ texts, field.node.published? "enum" = some texts ∧ field.node.OffersChoice texts := by
  obtain ⟨ctx, hctx, h⟩ := bind_eq_ok.mp h
  have hlisted := isSome_of_fieldContext form hctx
  have hjson : ctx.options.IsJson := by
    obtain ⟨merged, hmerged, rfl⟩ := fieldContext_eq_ok_iff.mp hctx
    obtain ⟨lower, upper, hlower, hupper, rfl⟩ := mergeOptions_eq_ok hmerged
    have hnone : defaultsFor around.typeDefaults (form.head kind name options listed).type = [] :=
      hdefaults form
    rw [hnone, OptionSet.onTopOf, OptionSet.onTopOf, List.append_nil]
    exact List.forall_mem_append.mpr
      ⟨OptionSet.resolve_isJson hupper, OptionSet.resolve_isJson hlower⟩
  change compileScalar ctx form.type = .ok field at h
  rw [compileScalar_choice form hlisted] at h
  have hcoherent := compileChoice_isCoherent hjson h
  obtain ⟨values, _, h⟩ := bind_eq_ok.mp h
  obtain ⟨given, _, h⟩ := bind_eq_ok.mp h
  obtain ⟨default, _, h⟩ := bind_eq_ok.mp h
  obtain rfl := pure_eq_ok.mp h
  have henum := Node.published?_enum
    (.leaf (.choice values) ⟨ctx.required, { given with format := none, default }, {}⟩)
  exact ⟨_, henum, hcoherent.offersChoice henum⟩

end Choice

/-! ## What raw declarations make -/

section Making

open Declaration

variable {around : Surroundings} {parent : String}

/-- A raw declaration makes a field: it is read as a declaration of the name and of the paths, which
compiles to the field. -/
def EntryMakes (around : Surroundings) (ordinal parent : String) (entry : Value) (name : String)
    (paths : List String) (field : CompiledField) : Prop :=
  ∃ d, readOne ordinal parent entry = .ok d ∧ d.name = name ∧ d.fieldPaths parent = paths ∧
    compileOne around parent d = .ok field

/-- Raw declarations that follow others make fields. -/
def EntriesMake (around : Surroundings) (parent : String) (count : Nat) (seen : List String)
    (entries : List Value) (paths : List String) (fields : List (String × CompiledField)) : Prop :=
  ∃ block, readEntries parent count seen entries = .ok block ∧ blockPaths parent block = paths ∧
    compileAll around parent block = .ok fields

/-- A raw list of declarations makes fields. -/
def BlockMakes (around : Surroundings) (parent : String) (raw : Value) (paths : List String)
    (fields : List (String × CompiledField)) : Prop :=
  ∃ block, readBlock parent raw = .ok block ∧ blockPaths parent block = paths ∧
    compileAll around parent block = .ok fields

theorem entriesMake_cons_iff {count : Nat} {seen : List String} {entry : Value} {rest : List Value}
    {paths : List String} {fields : List (String × CompiledField)} :
    EntriesMake around parent count seen (entry :: rest) paths fields ↔
      ∃ name own field later others,
        EntryMakes around (toString (count + 1)) parent entry name own field ∧ name ∉ seen ∧
        EntriesMake around parent (count + 1) (name :: seen) rest later others ∧
        paths = own ++ later ∧ fields = (name, field) :: others := by
  constructor
  · rintro ⟨block, hread, rfl, hfields⟩
    rw [readEntries] at hread
    obtain ⟨d, hd, hread⟩ := bind_eq_ok.mp hread
    split at hread
    next => exact absurd hread malformed_ne_ok
    next hfresh =>
      obtain ⟨block, hblock, hread⟩ := bind_eq_ok.mp hread
      obtain rfl := pure_eq_ok.mp hread
      obtain ⟨field, others, hfield, hothers, rfl⟩ := compileAll_cons_eq_ok.mp hfields
      exact ⟨_, _, field, _, others, ⟨d, hd, rfl, rfl, hfield⟩, hfresh,
        ⟨block, hblock, rfl, hothers⟩, rfl, rfl⟩
  · rintro ⟨_, _, field, _, others, ⟨d, hd, rfl, rfl, hfield⟩, hfresh,
      ⟨block, hblock, rfl, hothers⟩, rfl, rfl⟩
    refine ⟨d :: block, ?_, rfl, compileAll_cons_eq_ok.mpr ⟨field, others, hfield, hothers, rfl⟩⟩
    rw [readEntries, hd]
    change (if d.name ∈ seen then _ else _) = _
    rw [if_neg hfresh, hblock]
    rfl

/-- A choice makes what the field that it declares compiles to. -/
theorem entryMakes_choice_iff (form : ChoiceForm) {ordinal : String} {kind name listed : Value}
    {options : Record Value} {word : String} {paths : List String} {field : CompiledField} :
    EntryMakes around ordinal parent (form.declaration kind name options listed) word paths field ↔
      name = .text word ∧ paths = [joinPath parent word] ∧ Text.isBlankText word = false ∧
        givenBlock? options = none ∧ ∃ fieldKind : FieldKind, kind = .text fieldKind.name ∧
          compileField around parent (form.head fieldKind word options listed) = .ok field := by
  have htag : FieldType.IsMeantBy (.scalar form.type) (.text form.type.name) := .scalar (.inl rfl)
  have hblock : givenBlock? (options.set form.key.name listed) = givenBlock? options := by
    rw [givenBlock?, givenBlock?, Record.get?_set, if_neg form.key.name_ne_fields.symm]
  constructor
  · rintro ⟨d, hread, rfl, rfl, hfield⟩
    rcases readTuple_cases hread with
      ⟨fieldKind, word, tag, type, given, members, block, hparts, hnamed, htyped, hgiven, hinner,
        hclose⟩ | ⟨embedKind, word, reference, target, hparts, -⟩
    · simp only [List.cons.injEq] at hparts
      obtain ⟨rfl, rfl, rfl, rfl⟩ := hparts
      obtain rfl : options.set form.key.name listed = members := Option.some.inj hgiven
      have hread : readType (.text form.type.name) none = .ok (.scalar form.type) :=
        readType_eq_ok_iff.mpr htag
      obtain rfl := Except.ok.inj (hread.symm.trans (readType_eq_ok_iff.mpr htyped))
      obtain ⟨hallowed, -, -, rfl⟩ := closeField_eq_ok_iff.mp hclose
      have hnone : block = none := by
        cases block with
        | none => rfl
        | some inner => rcases hallowed rfl with h | h <;> cases form <;> cases h
      subst hnone
      refine ⟨rfl, rfl, hnamed, ?_, fieldKind, rfl, hfield⟩
      rw [readInner_eq_of_givenBlock, hblock] at hinner
      cases hraw : givenBlock? options with
      | none => rfl
      | some raw =>
          rw [hraw] at hinner
          obtain ⟨_, _, hinner⟩ := bind_eq_ok.mp hinner
          cases hinner
    · simp at hparts
  · rintro ⟨rfl, rfl, hnamed, hplain, fieldKind, rfl, hfield⟩
    refine ⟨.field (form.head fieldKind word options listed), ?_, rfl, rfl, hfield⟩
    rw [ChoiceForm.declaration, readOne, readTuple_of_plain hnamed htag rfl (hblock.trans hplain)]
    refine closeField_eq_ok_iff.mpr ⟨by simp, by simp, fun htype => ?_, rfl⟩
    obtain ⟨ctx, hctx, -⟩ := bind_eq_ok.mp hfield
    obtain ⟨merged, hmerged, -⟩ := bind_eq_ok.mp hctx
    have hlisted := isLiteral_of_mergeOptions form hmerged
    cases form with
    | text => cases htype
    | enumeration =>
        change ((Record.get? (options.set "values" listed) "values").bind Value.toOption).isSome =
          true
        rw [Record.get?_set, if_pos rfl]
        cases hlisted <;> rfl

/-- A field makes the same whatever its inline block is, as long as the block makes the same. -/
theorem EntryMakes.of_block {ordinal name word : String} {kind tag raw other : Value}
    {bare otherBare : Bool} {options others : Record Value} {paths : List String}
    {field : CompiledField} (hrest : others.erase "fields" = options.erase "fields")
    (hblock : givenBlock? options = some raw) (hother : givenBlock? others = some other)
    (hmake : ∀ paths fields, BlockMakes around (joinPath parent name) raw paths fields →
      BlockMakes around (joinPath parent name) other paths fields)
    (h : EntryMakes around ordinal parent (.list [kind, .text name, tag, .object bare options]) word
      paths field) :
    EntryMakes around ordinal parent (.list [kind, .text name, tag, .object otherBare others]) word
      paths field := by
  obtain ⟨d, hread, rfl, rfl, hfield⟩ := h
  rcases readTuple_cases hread with
    ⟨fieldKind, _, tag, type, given, members, block, hparts, hnamed, htyped, hgiven, hinner,
      hclose⟩ | ⟨embedKind, word, reference, target, hparts, -⟩
  · simp only [List.cons.injEq, Value.text.injEq] at hparts
    obtain ⟨rfl, rfl, rfl, rfl⟩ := hparts
    obtain rfl : options = members := Option.some.inj hgiven
    rw [readInner_eq_of_givenBlock, hblock] at hinner
    obtain ⟨inner, hraw, hsome⟩ := bind_eq_ok.mp hinner
    obtain rfl := pure_eq_ok.mp hsome
    obtain ⟨hallowed, -, -, rfl⟩ := closeField_eq_ok_iff.mp hclose
    obtain ⟨ctx, stated, fields, hctx, hstated, hfields, rfl⟩ := compileBlock_eq_ok.mp hfield
    obtain ⟨otherInner, hotherInner, hpaths, hotherFields⟩ := hmake _ fields
      ⟨inner, hraw, rfl, fieldContext_path hctx ▸ hfields⟩
    refine ⟨.block ⟨fieldKind, name, type, options.erase "fields"⟩ otherInner, ?_, rfl, ?_, ?_⟩
    · rw [readOne, readTuple_of_block hnamed htyped rfl hother]
      refine bind_eq_ok.mpr ⟨otherInner, hotherInner, ?_⟩
      refine closeField_eq_ok_iff.mpr ⟨hallowed, fun _ => rfl, ?_, by rw [hrest]; rfl⟩
      rintro rfl
      rcases hallowed rfl with h | h <;> cases h
    · exact congrArg (joinPath parent name :: ·) hpaths
    · refine compileBlock_eq_ok.mpr ⟨ctx, stated, fields, hctx, hstated, ?_, rfl⟩
      rw [fieldContext_path hctx]
      exact hotherFields
  · simp at hparts

mutual

/-- Raw declarations that differ in the forms of choices make the same fields. -/
theorem blockMakes_of_same (hdefaults : around.typeDefaults.SpareChoices) {parent : String}
    {raw other : Value}
    (h : raw.SameButForms around.overrides parent other) (paths : List String)
    (fields : List (String × CompiledField)) (hmakes : BlockMakes around parent raw paths fields) :
    BlockMakes around parent other paths fields :=
  match h with
  | .refl _ _ => hmakes
  | .list each => entriesMake_of_same hdefaults each 0 [] paths fields hmakes

theorem entriesMake_of_same (hdefaults : around.typeDefaults.SpareChoices) {parent : String}
    {entries others : List Value}
    (h : Value.EachSameButForms around.overrides parent entries others) (count : Nat)
    (seen paths : List String) (fields : List (String × CompiledField))
    (hmake : EntriesMake around parent count seen entries paths fields) :
    EntriesMake around parent count seen others paths fields :=
  match h with
  | .nil _ => hmake
  | .cons first each => by
      obtain ⟨name, own, field, later, rest, hentry, hfresh, hrest, rfl, rfl⟩ :=
        entriesMake_cons_iff.mp hmake
      exact entriesMake_cons_iff.mpr ⟨name, own, field, later, rest,
        entryMakes_of_same hdefaults first _ name own field hentry, hfresh,
        entriesMake_of_same hdefaults each _ _ later rest hrest, rfl, rfl⟩

theorem entryMakes_of_same (hdefaults : around.typeDefaults.SpareChoices) {parent : String}
    {entry other : Value}
    (h : entry.EntrySameButForms around.overrides parent other) (ordinal name : String)
    (paths : List String) (field : CompiledField)
    (hmakes : EntryMakes around ordinal parent entry name paths field) :
    EntryMakes around ordinal parent other name paths field :=
  match h with
  | .refl _ _ => hmakes
  | .choice form other kind given listed unlisted overridden => by
      obtain ⟨rfl, hpaths, hnamed, hplain, fieldKind, hkind, hfield⟩ :=
        (entryMakes_choice_iff form).mp hmakes
      refine (entryMakes_choice_iff other).mpr
        ⟨rfl, hpaths, hnamed, hplain, fieldKind, hkind, ?_⟩
      exact compileField_otherForm hdefaults unlisted (overridden name rfl) form other field hfield
  | .inside hrest hblock hother same =>
      hmakes.of_block hrest hblock hother (blockMakes_of_same hdefaults same)

end

end Making

end Compilation

namespace Schema

open Compilation

theorem compile_eq_ok_iff_blockMakes {name : String} {raw : Value} {around : Surroundings}
    {s : Schema} {notices : List Notice} :
    compile name raw around = .ok (s, notices) ↔
      ∃ paths fields, BlockMakes around "" raw paths fields ∧ ofFields name fields = s ∧
        (around.overrides.names.filter fun path => !paths.contains path).map
          (.unknownOverride name) = notices := by
  rw [compile_eq_ok]
  constructor
  · rintro ⟨declared, fields, hdeclared, hfields, hschema, hnotices⟩
    exact ⟨_, fields, ⟨declared, hdeclared, rfl, hfields⟩, hschema, hnotices⟩
  · rintro ⟨_, fields, ⟨declared, hdeclared, rfl, hfields⟩, hschema, hnotices⟩
    exact ⟨declared, fields, hdeclared, hfields, hschema, hnotices⟩

/-- Whether choices are declared as strings with included values or as enums makes no difference:
both raw lists of declarations compile to the same schema with the same notices, or none does. In
either form a choice has a node without a format, and a default that is a text. -/
theorem compile_otherForms {name : String} {raw other : Value} {around : Surroundings}
    (hdefaults : around.typeDefaults.SpareChoices)
    (hsame : raw.SameButForms around.overrides "" other) :
    (∀ result, compile name raw around = .ok result ↔ compile name other around = .ok result) ∧
      ∀ (form : ChoiceForm) parent kind word options listed field,
        compileField around parent (form.head kind word options listed) = .ok field →
        ∃ texts, field.node.published? "enum" = some texts ∧ field.node.OffersChoice texts := by
  refine ⟨?_, fun form _ _ _ _ _ _ => offersChoice_of_compileField hdefaults form⟩
  rintro ⟨s, notices⟩
  rw [compile_eq_ok_iff_blockMakes, compile_eq_ok_iff_blockMakes]
  refine exists_congr fun paths => exists_congr fun fields => and_congr_left fun _ => ?_
  exact ⟨blockMakes_of_same hdefaults hsame paths fields,
    blockMakes_of_same hdefaults hsame.symm paths fields⟩

/-- A delivery whose lines have a unit, declared in one of the two forms. -/
def deliveryIn (form : ChoiceForm) : Value :=
  .list [
    .list [.text "required", .text "code", .text "string"],
    .list [.text "optional", .text "lines", .list [.text "array", .text "object"],
      .object false [
        ("title", .text "Lines"),
        ("fields", .list [form.declaration (.text "required") (.text "unit")
          [("default", .text "kg"), ("format", .text "unit")]
          (.list [.text "kg", .number 1, .bool true])])]]]

def deliverySurroundings : Surroundings where
  lookup _ := none
  typeDefaults := .builtIn
  overrides := [("lines.unit", .object false [("nullable", .bool true)])]

theorem delivery_otherForms :
    deliverySurroundings.typeDefaults.SpareChoices ∧
      (deliveryIn .text).SameButForms deliverySurroundings.overrides "" (deliveryIn .enumeration) ∧
      (∀ result, compile "Delivery" (deliveryIn .text) deliverySurroundings = .ok result ↔
        compile "Delivery" (deliveryIn .enumeration) deliverySurroundings = .ok result) ∧
      ∃ result, compile "Delivery" (deliveryIn .text) deliverySurroundings = .ok result ∧
        compile "Delivery" (deliveryIn .enumeration) deliverySurroundings = .ok result :=
  have hdefaults : deliverySurroundings.typeDefaults.SpareChoices := fun form => by
    cases form <;> rfl
  have hunit : Value.EntrySameButForms deliverySurroundings.overrides "lines" _ _ :=
    .choice .text .enumeration (.text "required") (.text "unit")
      (.list [.text "kg", .number 1, .bool true]) ⟨rfl, rfl⟩ fun word hword => by
        obtain rfl := Value.text.inj hword
        exact ⟨rfl, rfl⟩
  have hsame : (deliveryIn .text).SameButForms deliverySurroundings.overrides ""
      (deliveryIn .enumeration) :=
    .list (.cons (.refl _ _)
      (.cons (.inside rfl rfl rfl (.list (.cons hunit (.nil _)))) (.nil _)))
  have htext : compile "Delivery" (deliveryIn .text) deliverySurroundings = .ok _ := rfl
  ⟨hdefaults, hsame, (compile_otherForms hdefaults hsame).1, _, htext,
    ((compile_otherForms hdefaults hsame).1 _).mp htext⟩

end Schema

end FieldSchema
