import Mathlib
import FieldSchema.Proofs.Relocation

/-!
# Options that rules depend on

Seven of the options that a field understands are published for readers and constrain no value. The
rule of a field depends on its other options only: declarations, overrides and type defaults that
differ in options for readers, at any depth, compile to the same rules, as long as the schemas that
are embedded have the same descriptors.
-/

namespace FieldSchema

/-- Whether an option is published for readers and constrains no value. -/
def OptionKey.isForReaders : OptionKey → Bool
  | .example | .format | .description | .title | .deprecated | .readOnly | .writeOnly => true
  | _ => false

/-- Two option sets differ at most in options for readers. -/
def OptionSet.SameForChecks (options others : OptionSet) : Prop :=
  ∀ key : OptionKey, key.isForReaders = false → List.lookup key others = List.lookup key options

/-- Two sets of type defaults differ at most in options for readers. -/
def TypeDefaults.SameForChecks (defaults others : TypeDefaults) : Prop :=
  ∀ type, (defaults.optionsFor type).SameForChecks (others.optionsFor type)

/-- Overrides give every field the same options, those for readers aside. -/
def Record.SameOverrides (overrides others : Record Value) : Prop :=
  ∀ path, (OptionSet.ofValue ((overrides.get? path).getD .absent)).SameForChecks
    (OptionSet.ofValue ((others.get? path).getD .absent))

/-- Surroundings that differ at most in options for readers and in what the schemas that may be
embedded publish. -/
structure Surroundings.SameForChecks (around other : Surroundings) : Prop where
  lookup : ∀ reference s t, around.lookup reference = some s → other.lookup reference = some t →
    t.descriptor = s.descriptor
  typeDefaults : around.typeDefaults.SameForChecks other.typeDefaults
  overrides : around.overrides.SameOverrides other.overrides

/-- Two fields differ at most in options for readers. -/
structure FieldHead.SameForChecks (head other : FieldHead) : Prop where
  kind : other.kind = head.kind
  name : other.name = head.name
  type : other.type = head.type
  options : (OptionSet.ofEntries head.options).SameForChecks (OptionSet.ofEntries other.options)

mutual

/-- Two declarations differ at most in options for readers, at any depth. -/
def Declaration.SameForChecks : Declaration → Declaration → Prop
  | .field head, .field other => head.SameForChecks other
  | .block head inner, .block other others =>
      head.SameForChecks other ∧ Declaration.BlockSameForChecks inner others
  | .embed kind name reference, other => other = .embed kind name reference
  | _, _ => False

def Declaration.BlockSameForChecks : List Declaration → List Declaration → Prop
  | [], others => others = []
  | d :: rest, other :: others => d.SameForChecks other ∧ Declaration.BlockSameForChecks rest others
  | _ :: _, [] => False

end

/-! ## Merging options -/

namespace OptionSet

theorem SameForChecks.refl (options : OptionSet) : options.SameForChecks options :=
  fun _ _ => rfl

theorem SameForChecks.get?_eq {options others : OptionSet} (h : options.SameForChecks others)
    {key : OptionKey} (hkey : key.isForReaders = false) : others.get? key = options.get? key := by
  rw [get?, get?, h key hkey]

theorem lookup_map (f : OptionKey → Value → Value) (options : OptionSet) (key : OptionKey) :
    List.lookup key (options.map fun entry => (entry.1, f entry.1 entry.2)) =
      (List.lookup key options).map (f key) := by
  induction options with
  | nil => rfl
  | cons entry rest ih =>
      obtain ⟨other, value⟩ := entry
      by_cases hkey : key = other
      · subst hkey
        simp
      · have hne : (key == other) = false := by simp [hkey]
        simpa [List.lookup_cons, hne] using ih

/-- The value of an option of a date field: its calendar day, if it is a valid date. -/
def calendarDay : OptionKey → Value → Value
  | .example, .date (some ms) => toCalendarDays.dayText ms
  | .default, .date (some ms) => toCalendarDays.dayText ms
  | _, value => value

theorem toCalendarDays_eq_map (options : OptionSet) :
    options.toCalendarDays = options.map fun entry => (entry.1, calendarDay entry.1 entry.2) := by
  apply List.map_congr_left
  rintro ⟨key, value⟩ _
  dsimp only
  split
  next => rfl
  next => rfl
  next hexample hdefault =>
    rw [calendarDay]
    · exact hexample
    · exact hdefault

theorem SameForChecks.toCalendarDays {options others : OptionSet} (h : options.SameForChecks others) :
    options.toCalendarDays.SameForChecks others.toCalendarDays := by
  intro key hkey
  rw [toCalendarDays_eq_map, toCalendarDays_eq_map, lookup_map, lookup_map, h key hkey]

/-- Each option resolves to the literal of its own value. -/
theorem lookup_resolve {options literals : OptionSet} {path : Option String}
    (h : options.resolve path = .ok literals) (key : OptionKey) :
    Option.Rel (fun value resolved => value.literal key.name path = .ok resolved)
      (List.lookup key options) (List.lookup key literals) := by
  induction options generalizing literals with
  | nil =>
      obtain rfl : [] = literals := Except.ok.inj h
      exact .none
  | cons entry rest ih =>
      obtain ⟨other, value⟩ := entry
      rw [resolve, List.mapM_cons] at h
      obtain ⟨first, hfirst, h⟩ := Outcome.bind_eq_ok.mp h
      obtain ⟨later, hlater, h⟩ := Outcome.bind_eq_ok.mp h
      obtain rfl := Outcome.pure_eq_ok.mp h
      obtain ⟨resolved, hresolved, hfirst⟩ := Outcome.bind_eq_ok.mp hfirst
      obtain rfl := Outcome.pure_eq_ok.mp hfirst
      by_cases hkey : key = other
      · subst hkey
        simpa using Option.Rel.some hresolved
      · have hne : (key == other) = false := by simp [hkey]
        simpa [List.lookup_cons, hne] using ih hlater

/-- What is related to one thing by a function is one thing. -/
theorem eq_of_rel {α β : Type} {R : α → β → Prop} (hR : ∀ a b c, R a b → R a c → b = c)
    {x : Option α} {y z : Option β} (hy : Option.Rel R x y) (hz : Option.Rel R x z) : y = z := by
  cases hy with
  | none =>
      cases hz
      rfl
  | some hab =>
      cases hz with
      | some hac => rw [hR _ _ _ hab hac]

theorem SameForChecks.resolve {options others literals otherLiterals : OptionSet}
    {path : Option String} (h : options.SameForChecks others)
    (hliterals : options.resolve path = .ok literals)
    (hothers : others.resolve path = .ok otherLiterals) : literals.SameForChecks otherLiterals := by
  intro key hkey
  have hfirst := lookup_resolve hliterals key
  have hsecond := lookup_resolve hothers key
  rw [h key hkey] at hsecond
  refine eq_of_rel ?_ hsecond hfirst
  intro value resolved other hresolved hother
  exact Except.ok.inj (hresolved.symm.trans hother)

theorem SameForChecks.onTopOf {upper lower otherUpper otherLower : OptionSet}
    (hupper : upper.SameForChecks otherUpper) (hlower : lower.SameForChecks otherLower) :
    (upper.onTopOf lower).SameForChecks (otherUpper.onTopOf otherLower) := by
  intro key hkey
  rw [OptionSet.onTopOf, OptionSet.onTopOf, List.lookup_append, List.lookup_append,
    hupper key hkey, hlower key hkey]

end OptionSet

/-! ## Compiling -/

/-- Two contexts of one field differ at most in options for readers. -/
structure FieldContext.SameForChecks (ctx other : FieldContext) : Prop where
  name : other.name = ctx.name
  path : other.path = ctx.path
  required : other.required = ctx.required
  options : ctx.options.SameForChecks other.options

namespace Compilation

open Outcome

theorem mergeOptions_eq_ok {type : FieldType} {declared override defaults options : OptionSet}
    {path : String} (h : mergeOptions type declared override defaults path = .ok options) :
    ∃ lower upper, (prepared type declared).resolve (some path) = .ok lower ∧
      (prepared type override).resolve (some path) = .ok upper ∧
      options = upper.onTopOf (lower.onTopOf defaults) := by
  rw [mergeOptions_eq] at h
  -- the check that comes first only decides whether there is a result
  obtain ⟨_, _, h⟩ := bind_eq_ok.mp h
  obtain ⟨lower, hlower, h⟩ := bind_eq_ok.mp h
  obtain ⟨upper, hupper, h⟩ := bind_eq_ok.mp h
  exact ⟨lower, upper, hlower, hupper, (pure_eq_ok.mp h).symm⟩

theorem mergeOptions_sameForChecks {type : FieldType} {declared override defaults options : OptionSet}
    {otherDeclared otherOverride otherDefaults others : OptionSet} {path : String}
    (hdeclared : declared.SameForChecks otherDeclared)
    (hoverride : override.SameForChecks otherOverride)
    (hdefaults : defaults.SameForChecks otherDefaults)
    (h : mergeOptions type declared override defaults path = .ok options)
    (hother : mergeOptions type otherDeclared otherOverride otherDefaults path = .ok others) :
    options.SameForChecks others := by
  have hprepared {set otherSet : OptionSet} (hset : set.SameForChecks otherSet) :
      (prepared type set).SameForChecks (prepared type otherSet) := by
    unfold prepared
    split
    next => exact hset.toCalendarDays
    next => exact hset
  obtain ⟨lower, upper, hlower, hupper, rfl⟩ := mergeOptions_eq_ok h
  obtain ⟨otherLower, otherUpper, hotherLower, hotherUpper, rfl⟩ := mergeOptions_eq_ok hother
  have hsameLower := (hprepared hdeclared).resolve hlower hotherLower
  have hsameUpper := (hprepared hoverride).resolve hupper hotherUpper
  exact hsameUpper.onTopOf (hsameLower.onTopOf hdefaults)

/-- A field whose declaration and surroundings differ in options for readers is mapped in contexts
that differ in them too. -/
theorem fieldContext_sameForChecks {around other : Surroundings} (haround : around.SameForChecks other)
    {head otherHead : FieldHead} (hhead : head.SameForChecks otherHead) {parent : String}
    {ctx otherCtx : FieldContext} (h : fieldContext around parent head = .ok ctx)
    (hother : fieldContext other parent otherHead = .ok otherCtx) :
    ctx.SameForChecks otherCtx := by
  obtain ⟨options, hoptions, h⟩ := bind_eq_ok.mp h
  obtain rfl := pure_eq_ok.mp h
  obtain ⟨others, hothers, hother⟩ := bind_eq_ok.mp hother
  obtain rfl := pure_eq_ok.mp hother
  rw [hhead.type, hhead.name] at hothers
  have hdefaults : (defaultsFor around.typeDefaults head.type).SameForChecks
      (defaultsFor other.typeDefaults head.type) := by
    cases head.type with
    | scalar type => exact haround.typeDefaults type
    | array element => exact .refl _
  refine ⟨hhead.name, by rw [hhead.name], by rw [hhead.kind], ?_⟩
  exact mergeOptions_sameForChecks hhead.options (haround.overrides _) hdefaults hoptions hothers

section Context

variable {ctx other : FieldContext} {field otherField : CompiledField}

theorem numberOption_congr (h : ctx.SameForChecks other) {key : OptionKey}
    (hkey : key.isForReaders = false) :
    numberOption other.options key other.path = numberOption ctx.options key ctx.path := by
  rw [numberOption, numberOption, h.options.get?_eq hkey, h.path]

theorem textOption_congr (h : ctx.SameForChecks other) {key : OptionKey}
    (hkey : key.isForReaders = false) :
    textOption other.options key other.path = textOption ctx.options key ctx.path := by
  rw [textOption, textOption, h.options.get?_eq hkey, h.path]

theorem flagOption_congr (h : ctx.SameForChecks other) {key : OptionKey}
    (hkey : key.isForReaders = false) :
    flagOption other.options key other.path = flagOption ctx.options key ctx.path := by
  rw [flagOption, flagOption, h.options.get?_eq hkey, h.path]

theorem choiceValues_congr (h : ctx.SameForChecks other) {key : OptionKey}
    (hkey : key.isForReaders = false) :
    choiceValues other.options key other.path = choiceValues ctx.options key ctx.path := by
  rw [choiceValues, choiceValues, h.options.get?_eq hkey, h.path]

/-- The constraints among the keywords that options state are those that the options give. -/
structure StatesConstraints (options : OptionSet) (path : String) (stated : Keywords) : Prop where
  minimum : numberOption options .minimum path = .ok stated.minimum
  maximum : numberOption options .maximum path = .ok stated.maximum
  minLength : numberOption options .minLength path = .ok stated.minLength
  maxLength : numberOption options .maxLength path = .ok stated.maxLength
  pattern : textOption options .pattern path = .ok stated.pattern
  nullable : flagOption options .nullable path = .ok stated.nullable
  default : stated.default = options.get? .default

theorem statesConstraints {options : OptionSet} {path : String} {stated : Keywords}
    (h : keywords options path = .ok stated) : StatesConstraints options path stated := by
  obtain ⟨minimum, hminimum, h⟩ := bind_eq_ok.mp h
  obtain ⟨maximum, hmaximum, h⟩ := bind_eq_ok.mp h
  obtain ⟨minLength, hminLength, h⟩ := bind_eq_ok.mp h
  obtain ⟨maxLength, hmaxLength, h⟩ := bind_eq_ok.mp h
  obtain ⟨format, _, h⟩ := bind_eq_ok.mp h
  obtain ⟨pattern, hpattern, h⟩ := bind_eq_ok.mp h
  obtain ⟨description, _, h⟩ := bind_eq_ok.mp h
  obtain ⟨title, _, h⟩ := bind_eq_ok.mp h
  obtain ⟨nullable, hnullable, h⟩ := bind_eq_ok.mp h
  obtain ⟨deprecated, _, h⟩ := bind_eq_ok.mp h
  obtain ⟨readOnly, _, h⟩ := bind_eq_ok.mp h
  obtain ⟨writeOnly, _, h⟩ := bind_eq_ok.mp h
  obtain rfl := pure_eq_ok.mp h
  exact ⟨hminimum, hmaximum, hminLength, hmaxLength, hpattern, hnullable, rfl⟩

theorem constraints_congr (h : ctx.SameForChecks other) {stated otherStated : Keywords}
    (hstated : keywords ctx.options ctx.path = .ok stated)
    (hother : keywords other.options other.path = .ok otherStated) :
    constraints otherStated = constraints stated := by
  have hstates := statesConstraints hstated
  have hotherStates := statesConstraints hother
  have hminimum := (numberOption_congr h rfl).symm.trans hotherStates.minimum
  have hmaximum := (numberOption_congr h rfl).symm.trans hotherStates.maximum
  have hminLength := (numberOption_congr h rfl).symm.trans hotherStates.minLength
  have hmaxLength := (numberOption_congr h rfl).symm.trans hotherStates.maxLength
  have hpattern := (textOption_congr h rfl).symm.trans hotherStates.pattern
  have hnullable := (flagOption_congr h rfl).symm.trans hotherStates.nullable
  have hdefault := hotherStates.default.trans (h.options.get?_eq rfl)
  unfold constraints
  rw [Except.ok.inj (hminimum.symm.trans hstates.minimum),
    Except.ok.inj (hmaximum.symm.trans hstates.maximum),
    Except.ok.inj (hminLength.symm.trans hstates.minLength),
    Except.ok.inj (hmaxLength.symm.trans hstates.maxLength),
    Except.ok.inj (hpattern.symm.trans hstates.pattern),
    Except.ok.inj (hnullable.symm.trans hstates.nullable), hdefault.trans hstates.default.symm]

theorem ruleHead_congr (h : ctx.SameForChecks other) {stated otherStated : Keywords}
    (hstated : keywords ctx.options ctx.path = .ok stated)
    (hother : keywords other.options other.path = .ok otherStated) (type : RuleType) :
    ruleHead other type otherStated = ruleHead ctx type stated := by
  rw [ruleHead, ruleHead, h.name, h.required, constraints_congr h hstated hother]

theorem compilePlain_rule_congr (h : ctx.SameForChecks other) {leaf otherLeaf : LeafType}
    {type : RuleType} {imposed otherImposed : Imposed}
    (hfield : compilePlain ctx leaf type imposed = .ok field)
    (hother : compilePlain other otherLeaf type otherImposed = .ok otherField) :
    otherField.rule = field.rule := by
  obtain ⟨stated, hstated, hfield⟩ := bind_eq_ok.mp hfield
  obtain rfl := pure_eq_ok.mp hfield
  obtain ⟨otherStated, hotherStated, hother⟩ := bind_eq_ok.mp hother
  obtain rfl := pure_eq_ok.mp hother
  exact congrArg Rule.plain (ruleHead_congr h hstated hotherStated type)

theorem compileTemporal_rule_congr (h : ctx.SameForChecks other) {format canonical : String}
    {type : RuleType} (hfield : compileTemporal ctx format type canonical = .ok field)
    (hother : compileTemporal other format type canonical = .ok otherField) :
    otherField.rule = field.rule := by
  obtain ⟨stated, hstated, hfield⟩ := bind_eq_ok.mp hfield
  obtain ⟨sample, _, hfield⟩ := bind_eq_ok.mp hfield
  obtain rfl := pure_eq_ok.mp hfield
  obtain ⟨otherStated, hotherStated, hother⟩ := bind_eq_ok.mp hother
  obtain ⟨otherSample, _, hother⟩ := bind_eq_ok.mp hother
  obtain rfl := pure_eq_ok.mp hother
  exact congrArg Rule.plain (ruleHead_congr h hstated hotherStated type)

theorem compileChoice_rule_congr (h : ctx.SameForChecks other) {source : OptionKey}
    (hsource : source.isForReaders = false) (hfield : compileChoice ctx source = .ok field)
    (hother : compileChoice other source = .ok otherField) : otherField.rule = field.rule := by
  obtain ⟨values, hvalues, hfield⟩ := bind_eq_ok.mp hfield
  obtain ⟨given, hgiven, hfield⟩ := bind_eq_ok.mp hfield
  obtain ⟨default, hdefault, hfield⟩ := bind_eq_ok.mp hfield
  obtain rfl := pure_eq_ok.mp hfield
  obtain ⟨otherValues, hotherValues, hother⟩ := bind_eq_ok.mp hother
  obtain ⟨otherGiven, hotherGiven, hother⟩ := bind_eq_ok.mp hother
  obtain ⟨otherDefault, hotherDefault, hother⟩ := bind_eq_ok.mp hother
  obtain rfl := pure_eq_ok.mp hother
  have hconstraints := constraints_congr h hgiven hotherGiven
  rw [choiceValues_congr h hsource, hvalues] at hotherValues
  obtain rfl := Except.ok.inj hotherValues
  have hgivenDefault : otherGiven.default = given.default := congrArg Constraints.default hconstraints
  rw [hgivenDefault, hdefault] at hotherDefault
  obtain rfl := Except.ok.inj hotherDefault
  -- the text of the default takes the place of the default in both
  have htexts : constraints { otherGiven with format := none, default := default } =
      constraints { given with format := none, default := default } :=
    congrArg (fun c : Constraints => { c with default := default }) hconstraints
  simp only [ruleHead, h.name, h.required, htexts]

theorem compileScalar_rule_congr (h : ctx.SameForChecks other) {type : ScalarType}
    (hfield : compileScalar ctx type = .ok field)
    (hother : compileScalar other type = .ok otherField) : otherField.rule = field.rule := by
  cases type with
  | string =>
      rw [compileScalar] at hfield hother
      rw [h.options.get?_eq rfl] at hother
      split at hfield
      next hincluded =>
        rw [if_pos hincluded] at hother
        exact compileChoice_rule_congr h rfl hfield hother
      next hincluded =>
        rw [if_neg hincluded] at hother
        exact compilePlain_rule_congr h hfield hother
  | enumeration => exact compileChoice_rule_congr h rfl hfield hother
  | integer => exact compilePlain_rule_congr h hfield hother
  | number => exact compilePlain_rule_congr h hfield hother
  | boolean => exact compilePlain_rule_congr h hfield hother
  | uuid => exact compilePlain_rule_congr h hfield hother
  | date => exact compileTemporal_rule_congr h hfield hother
  | datetime => exact compileTemporal_rule_congr h hfield hother
  | decimal => exact compilePlain_rule_congr h hfield hother
  | object =>
      obtain ⟨stated, hstated, hfield⟩ := bind_eq_ok.mp hfield
      obtain rfl := pure_eq_ok.mp hfield
      obtain ⟨otherStated, hotherStated, hother⟩ := bind_eq_ok.mp hother
      obtain rfl := pure_eq_ok.mp hother
      exact congrArg Rule.plain (ruleHead_congr h hstated hotherStated .map)

theorem compileArray_rule_congr (h : ctx.SameForChecks other) {element : ElementType}
    (hfield : compileArray ctx element = .ok field)
    (hother : compileArray other element = .ok otherField) : otherField.rule = field.rule := by
  obtain ⟨stated, hstated, hfield⟩ := bind_eq_ok.mp hfield
  obtain ⟨otherStated, hotherStated, hother⟩ := bind_eq_ok.mp hother
  have hhead := ruleHead_congr h hstated hotherStated .array
  cases element <;>
    (obtain rfl := pure_eq_ok.mp hfield
     obtain rfl := pure_eq_ok.mp hother
     simp only [hhead])

theorem assembleBlock_rule_congr (h : ctx.SameForChecks other) (type : FieldType)
    {stated otherStated : Keywords} (hstated : keywords ctx.options ctx.path = .ok stated)
    (hother : keywords other.options other.path = .ok otherStated)
    {inner others : List (String × CompiledField)} (hrules : rules others = rules inner) :
    (assembleBlock other type otherStated others).rule =
      (assembleBlock ctx type stated inner).rule := by
  cases type with
  | scalar type => simp only [assembleBlock, hrules, ruleHead_congr h hstated hother]
  | array element => simp only [assembleBlock, hrules, ruleHead_congr h hstated hother]

end Context

variable {around other : Surroundings}

theorem compileEmbed_rule_congr (haround : around.SameForChecks other) {kind : EmbedKind}
    {name reference path : String} {field otherField : CompiledField}
    (hfield : compileEmbed around.lookup kind name reference path = .ok field)
    (hother : compileEmbed other.lookup kind name reference path = .ok otherField) :
    otherField.rule = field.rule := by
  unfold compileEmbed at hfield hother
  split at hfield
  next => cases hfield
  next target htarget =>
    split at hother
    next => cases hother
    next otherTarget hotherTarget =>
      have hdescriptor := haround.lookup reference target otherTarget htarget hotherTarget
      cases kind with
      | one =>
          obtain rfl := Except.ok.inj hfield
          obtain rfl := Except.ok.inj hother
          simp only [hdescriptor]
      | many =>
          obtain rfl := Except.ok.inj hfield
          obtain rfl := Except.ok.inj hother
          simp only [hdescriptor]

mutual

/-- Declarations that differ in options for readers compile to one rule. -/
theorem compileOne_rule_congr (haround : around.SameForChecks other) (parent : String)
    (d otherD : Declaration) (hd : d.SameForChecks otherD) {field otherField : CompiledField}
    (hfield : compileOne around parent d = .ok field)
    (hother : compileOne other parent otherD = .ok otherField) :
    otherField.rule = field.rule := by
  cases d with
  | field head =>
      cases otherD with
      | field otherHead =>
          have hhead : head.SameForChecks otherHead := hd
          obtain ⟨ctx, hctx, hfield⟩ := bind_eq_ok.mp hfield
          obtain ⟨otherCtx, hotherCtx, hother⟩ := bind_eq_ok.mp hother
          have hsame := fieldContext_sameForChecks haround hhead hctx hotherCtx
          rw [hhead.type] at hother
          cases htype : head.type with
          | scalar type =>
              rw [htype] at hfield hother
              exact compileScalar_rule_congr hsame hfield hother
          | array element =>
              rw [htype] at hfield hother
              exact compileArray_rule_congr hsame hfield hother
      | block otherHead others => exact hd.elim
      | embed kind name reference => exact hd.elim
  | block head inner =>
      cases otherD with
      | block otherHead others =>
          obtain ⟨hhead, hinner⟩ := hd
          obtain ⟨ctx, stated, fields, hctx, hstated, hfields, rfl⟩ := compileBlock_eq_ok.mp hfield
          obtain ⟨otherCtx, otherStated, otherFields, hotherCtx, hotherStated, hotherFields, rfl⟩ :=
            compileBlock_eq_ok.mp hother
          have hsame := fieldContext_sameForChecks haround hhead hctx hotherCtx
          rw [hsame.path] at hotherFields
          rw [hhead.type]
          apply assembleBlock_rule_congr hsame _ hstated hotherStated
          exact compileAll_rules_congr haround ctx.path inner others hinner hfields hotherFields
      | field otherHead => exact hd.elim
      | embed kind name reference => exact hd.elim
  | embed kind name reference =>
      obtain rfl : otherD = .embed kind name reference := hd
      exact compileEmbed_rule_congr haround hfield hother
termination_by sizeOf d

theorem compileAll_rules_congr (haround : around.SameForChecks other) (parent : String)
    (block others : List Declaration) (hblock : Declaration.BlockSameForChecks block others)
    {fields otherFields : List (String × CompiledField)}
    (hfields : compileAll around parent block = .ok fields)
    (hother : compileAll other parent others = .ok otherFields) :
    rules otherFields = rules fields := by
  cases block with
  | nil =>
      obtain rfl : others = [] := hblock
      obtain rfl := Except.ok.inj hfields
      obtain rfl := Except.ok.inj hother
      rfl
  | cons d rest =>
      cases others with
      | nil => exact hblock.elim
      | cons otherD otherRest =>
          obtain ⟨hd, hrest⟩ := hblock
          obtain ⟨first, later, hfirst, hlater, rfl⟩ := compileAll_cons_eq_ok.mp hfields
          obtain ⟨otherFirst, otherLater, hotherFirst, hotherLater, rfl⟩ :=
            compileAll_cons_eq_ok.mp hother
          have hrule := compileOne_rule_congr haround parent d otherD hd hfirst hotherFirst
          have hrules :=
            compileAll_rules_congr haround parent rest otherRest hrest hlater hotherLater
          exact congrArg₂ List.cons hrule hrules
termination_by sizeOf block

end

end Compilation

end FieldSchema
