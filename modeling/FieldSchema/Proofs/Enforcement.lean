import Mathlib
import FieldSchema.Proofs.Acceptance
import FieldSchema.Proofs.Publishing

/-!
# Restrictions that are enforced

A rule may carry restrictions on texts and on numbers, and its node publishes the same ones. Each
type of rule has its own check, and this check looks at some restrictions only: a date, a date with
a time and a choice have a form of their own, and neither lengths nor a pattern are looked at. All
others are met by every accepted value, at every place.
-/

namespace FieldSchema

/-- A restriction on texts or on numbers. -/
inductive Restriction where
  | minLength (least : Float)
  | maxLength (most : Float)
  | pattern (source : String)
  | listed (values : List String)
  | minimum (least : Float)
  | maximum (most : Float)

/-- A value meets a restriction. Texts are counted in units. A restriction on texts says nothing of
other values, nor does one on numbers. -/
def Restriction.MetBy : Restriction → Value → Prop
  | .minLength least, .text s => least ≤ Float.ofNat (Text.unitLength s)
  | .maxLength most, .text s => Float.ofNat (Text.unitLength s) ≤ most
  | .pattern source, .text s =>
      ∃ pattern, Pattern.ofSource? source = some pattern ∧ pattern.matchesText s = true
  | .listed values, .text s => s ∈ values
  | .minimum least, .number x => least ≤ x
  | .maximum most, .number x => x ≤ most
  | _, _ => True

/-- The constraints of a rule carry a restriction. -/
def Constraints.Carries (c : Constraints) : Restriction → Prop
  | .minLength least => c.minLength = some least
  | .maxLength most => c.maxLength = some most
  | .pattern source => c.pattern = some source
  | .listed values => c.included = some values
  | .minimum least => c.minimum = some least
  | .maximum most => c.maximum = some most

/-- A node publishes a restriction. -/
def Node.Publishes (n : Node) : Restriction → Prop
  | .minLength least => n.published? "minLength" = some (.number least)
  | .maxLength most => n.published? "maxLength" = some (.number most)
  | .pattern source => n.published? "pattern" = some (.text source)
  | .listed values => n.published? "enum" = some (.list (values.map .text))
  | .minimum least => n.published? "minimum" = some (.number least)
  | .maximum most => n.published? "maximum" = some (.number most)

/-- The check of a rule looks at a restriction: at lengths and a pattern for free texts only. -/
def RuleHead.Enforces (head : RuleHead) : Restriction → Prop
  | .minLength _ | .maxLength _ | .pattern _ => head.IsFreeText
  | .listed _ | .minimum _ | .maximum _ => True

/-- Where a rule lists values, it is a rule for texts and the list is not empty. -/
def RuleHead.ListsTexts (head : RuleHead) : Prop :=
  ∀ values, head.constraints.included = some values → head.type = .string ∧ values ≠ []

/-- A node publishes the restrictions that the rule carries with which it agrees. -/
theorem Node.SaysSameAs.publishes_iff {n : Node} {head : RuleHead} (h : n.SaysSameAs head)
    (r : Restriction) : n.Publishes r ↔ head.constraints.Carries r := by
  cases r with
  | listed values =>
      have htexts : Function.Injective fun values : List String =>
          Value.list (values.map .text) := by
        intro values others heq
        exact List.map_injective_iff.mpr (fun _ _ => Value.text.inj) (Value.list.inj heq)
      rw [Publishes, h.values, Constraints.get?_entries_included]
      exact Option.map_eq_some_iff.trans ⟨fun ⟨_, hvalues, heq⟩ => htexts heq ▸ hvalues,
        fun hvalues => ⟨values, hvalues, rfl⟩⟩
  | _ =>
      rw [Publishes, h.keyword _ (by simp [sharedKeywords])]
      simp [Constraints.Carries, Constraints.entries, Record.get?_append, Record.get?_ofOption]

/-! ## Accepted texts and numbers -/

theorem Outcome.isClean_withCauses {v : Value} {causes : List Cause}
    (h : Outcome.IsClean (.ok (.withCauses v causes))) : causes = [] := by
  obtain ⟨taken, htaken⟩ := h
  have hissues := congrArg Checked.issues (Except.ok.inj htaken)
  exact List.map_eq_nil_iff.mp hissues

/-- Without bounds there are no causes to give, so a text's length is measured either way. -/
theorem TextChecks.measure_text (c : TextChecks) (s : String) :
    c.measure (.text s) =
      .ok (c.lengthCauses .characters (.double (Float.ofNat (Text.unitLength s)))) := by
  rw [measure, Value.length?]
  cases hbound : c.hasLengthBound with
  | true => rfl
  | false =>
      obtain ⟨hleast, hmost⟩ : c.minLength = none ∧ c.maxLength = none := by
        simpa [hasLengthBound] using hbound
      simp [lengthCauses, hleast, hmost]

/-- A text without causes meets the lengths and the pattern. -/
theorem TextChecks.of_isClean {c : TextChecks} {s : String}
    (h : Outcome.IsClean (c.check (.text s))) :
    (∀ least, c.minLength = some least → least ≤ Float.ofNat (Text.unitLength s)) ∧
      (∀ most, c.maxLength = some most → Float.ofNat (Text.unitLength s) ≤ most) ∧
      ∀ pattern, c.pattern = some pattern → pattern.matchesText s = true := by
  rw [check, measure_text] at h
  obtain ⟨hlengths, hpattern⟩ := List.append_eq_nil_iff.mp (Outcome.isClean_withCauses h)
  obtain ⟨hleast, hmost⟩ := List.append_eq_nil_iff.mp hlengths
  refine ⟨fun least hbound => ?_, fun most hbound => ?_, fun pattern hmatch => ?_⟩
  · simpa [hbound, Quantity.reaches] using hleast
  · simpa [hbound, Quantity.staysWithin] using hmost
  · simpa [patternCauses, hmatch] using hpattern

theorem TextChecks.ofConstraints_eq_ok {c : Constraints} {checks : TextChecks}
    (h : ofConstraints c = .ok checks) :
    checks.minLength = c.minLength ∧ checks.maxLength = c.maxLength ∧
      ∀ source, c.pattern = some source →
        ∃ pattern, Pattern.ofSource? source = some pattern ∧ checks.pattern = some pattern := by
  unfold ofConstraints at h
  split at h
  next => cases h
  next =>
    split at h
    next hnone =>
      obtain rfl := Except.ok.inj h
      exact ⟨rfl, rfl, by simp [hnone]⟩
    next source hsource =>
      split at h
      next => cases h
      next pattern hpattern =>
        obtain rfl := Except.ok.inj h
        refine ⟨rfl, rfl, fun other hother => ⟨pattern, ?_, rfl⟩⟩
        obtain rfl := Option.some.inj (hsource.symm.trans hother)
        exact hpattern

namespace Validator

theorem not_isClean_wrongType {expected : Expected} {v : Value} :
    ¬Outcome.IsClean (Checked.wrongType expected v) := by
  rintro ⟨taken, htaken⟩
  obtain ⟨received, _, htaken⟩ := Outcome.bind_eq_ok.mp htaken
  have hissues := congrArg Checked.issues (Outcome.pure_eq_ok.mp htaken)
  exact List.cons_ne_nil _ _ hissues

/-- Only a number check accepts numbers, and these are within its bounds. -/
theorem Accepts.number {validator : Validator} {x : Float} (h : validator.Accepts (.number x))
    (hne : validator ≠ .anything) :
    ∃ checks : NumberChecks, validator = .number checks ∧
      (∀ least, checks.minimum = some least → least ≤ x) ∧
      ∀ most, checks.maximum = some most → x ≤ most := by
  unfold Accepts at h
  cases validator with
  | number checks =>
      rw [check, NumberChecks.check] at h
      split at h
      next =>
        obtain ⟨hbounds, _⟩ := List.append_eq_nil_iff.mp (Outcome.isClean_withCauses h)
        obtain ⟨hleast, hmost⟩ := List.append_eq_nil_iff.mp hbounds
        refine ⟨checks, rfl, fun least hbound => ?_, fun most hbound => ?_⟩
        · simpa [hbound] using hleast
        · simpa [hbound] using hmost
      next => exact absurd h not_isClean_wrongType
  | anything => exact absurd rfl hne
  | text checks =>
      rw [check] at h
      exact absurd (Outcome.isClean_withCauses h) (List.cons_ne_nil _ _)
  | choice values =>
      rw [check] at h
      exact absurd (Outcome.isClean_withCauses h) (List.cons_ne_nil _ _)
  | list item =>
      rw [check] at h
      · exact absurd h not_isClean_wrongType
      · simp
  | boolean =>
      rw [check] at h
      · exact absurd h not_isClean_wrongType
      · simp
  | openMap =>
      rw [check] at h
      have hwrong : Outcome.IsClean (Checked.wrongType .record (.number x)) := h
      exact absurd hwrong not_isClean_wrongType
  | _ =>
      rw [check] at h
      exact absurd h not_isClean_wrongType

theorem ofType_eq_number {type : RuleType} {c : Constraints} {map item : Outcome Validator}
    {checks : NumberChecks} (hmap : map ≠ .ok (.number checks))
    (h : ofType type c map item = .ok (.number checks)) :
    checks.minimum = c.minimum ∧ checks.maximum = c.maximum := by
  cases type with
  | string =>
      unfold ofType at h
      dsimp only at h
      split at h
      next => cases h
      next =>
        obtain ⟨_, _, h⟩ := Outcome.bind_eq_ok.mp h
        cases h
  | array =>
      obtain ⟨_, _, h⟩ := Outcome.bind_eq_ok.mp h
      cases h
  | map => exact absurd h hmap
  | integer | number | decimal =>
      cases h
      exact ⟨rfl, rfl⟩
  | boolean | date | datetime => cases h

theorem ofRule_eq_number {rule : Rule} {checks : NumberChecks}
    (h : ofRule rule = .ok (.number checks)) :
    checks.minimum = rule.head.constraints.minimum ∧
      checks.maximum = rule.head.constraints.maximum := by
  cases rule with
  | fields head inner =>
      rw [ofRule] at h
      refine ofType_eq_number (fun hmap => ?_) h
      rw [ofRules] at hmap
      -- rules make an object, whatever they are
      obtain ⟨fields, _, hmap⟩ := Outcome.bind_eq_ok.mp hmap
      cases hmap
  | _ =>
      rw [ofRule] at h
      exact ofType_eq_number (by simp) h

/-- A rule for texts has a choice where it lists values, and else the checks of its constraints. -/
theorem ofRule_of_string {rule : Rule} (htype : rule.head.type = .string)
    (hlists : rule.head.ListsTexts) {validator : Validator} (h : ofRule rule = .ok validator) :
    (∃ values, rule.head.constraints.included = some values ∧ validator = ofChoice values ∧
      ¬rule.head.IsFreeText) ∨
    ∃ checks, rule.head.constraints.included = none ∧ validator = .text checks ∧
      TextChecks.ofConstraints rule.head.constraints = .ok checks := by
  have hmade : ofType .string rule.head.constraints (.ok .openMap) (.ok .anything) =
      .ok validator := by
    rw [← h]
    cases rule with
    | _ =>
        simp only [Rule.head] at htype
        rw [ofRule, htype]
        rfl
  unfold ofType at hmade
  dsimp only at hmade
  split at hmade
  next first rest hincluded =>
    refine .inl ⟨_, hincluded, (Except.ok.inj hmade).symm, fun hfree => ?_⟩
    simpa [hincluded] using hfree.2
  next hother =>
    obtain ⟨checks, hchecks, hmade⟩ := Outcome.bind_eq_ok.mp hmade
    refine .inr ⟨checks, ?_, (Outcome.pure_eq_ok.mp hmade).symm, hchecks⟩
    cases hincluded : rule.head.constraints.included with
    | none => rfl
    | some values =>
        cases values with
        | nil => exact absurd rfl (hlists [] hincluded).2
        | cons first rest => exact absurd hincluded (hother first rest)

theorem mem_of_accepts_ofChoice {values : List String} {s : String}
    (h : (ofChoice values).Accepts (.text s)) : s ∈ values := by
  unfold Accepts ofChoice at h
  rw [check, checkChoice] at h
  split at h
  next hlisted =>
    have hmem := List.contains_iff_mem.mp hlisted
    rw [Record.mem_names_ofList] at hmem
    simpa [Record.names] using hmem
  next => exact absurd (Outcome.isClean_withCauses h) (List.cons_ne_nil _ _)

theorem Accepts.met_of_string {rule : Rule} {validator : Validator}
    (h : ofRule rule = .ok validator) (htype : rule.head.type = .string)
    (hlists : rule.head.ListsTexts) {s : String} (haccepts : validator.Accepts (.text s))
    {r : Restriction} (hcarries : rule.head.constraints.Carries r)
    (henforces : rule.head.Enforces r) : r.MetBy (.text s) := by
  rcases ofRule_of_string htype hlists h with
    ⟨values, hincluded, rfl, hfree⟩ | ⟨checks, hincluded, rfl, hchecks⟩
  · have hmem := mem_of_accepts_ofChoice haccepts
    cases r with
    | listed listed =>
        obtain rfl := Option.some.inj (hincluded.symm.trans hcarries)
        exact hmem
    | minimum least => trivial
    | maximum most => trivial
    | _ => exact absurd henforces hfree
  · unfold Accepts at haccepts
    rw [check] at haccepts
    obtain ⟨hleast, hmost, hmatch⟩ := TextChecks.of_isClean haccepts
    obtain ⟨hminLength, hmaxLength, hpattern⟩ := TextChecks.ofConstraints_eq_ok hchecks
    cases r with
    | minLength least => exact hleast least (hminLength.trans hcarries)
    | maxLength most => exact hmost most (hmaxLength.trans hcarries)
    | pattern source =>
        obtain ⟨pattern, hsource, hcheck⟩ := hpattern source hcarries
        exact ⟨pattern, hsource, hmatch pattern hcheck⟩
    | listed values => exact absurd (hincluded.symm.trans hcarries) (by simp)
    | minimum least => trivial
    | maximum most => trivial

/-- An accepted value meets every restriction that its rule carries and enforces. -/
theorem Accepts.met {rule : Rule} {validator : Validator} (h : ofRule rule = .ok validator)
    (hlists : rule.head.ListsTexts) {v : Value} (haccepts : validator.Accepts v) {r : Restriction}
    (hcarries : rule.head.constraints.Carries r) (henforces : rule.head.Enforces r) :
    r.MetBy v := by
  cases v with
  | text s =>
      by_cases htype : rule.head.type = .string
      · exact Accepts.met_of_string h htype hlists haccepts hcarries henforces
      · -- only rules for texts list values or look at lengths and patterns
        have hfree := RuleHead.not_isFreeText htype
        cases r with
        | listed values => exact absurd (hlists values hcarries).1 htype
        | minimum least => trivial
        | maximum most => trivial
        | _ => exact absurd henforces hfree
  | number x =>
      obtain ⟨checks, rfl, hleast, hmost⟩ := haccepts.number (ofRule_ne_anything h)
      obtain ⟨hminimum, hmaximum⟩ := ofRule_eq_number h
      cases r with
      | minimum least => exact hleast least (hminimum.trans hcarries)
      | maximum most => exact hmost most (hmaximum.trans hcarries)
      | _ => trivial
  | _ => cases r <;> trivial

end Validator

/-! ## Compiled rules list texts -/

/-- Every rule at every depth of a descriptor lists texts only. -/
def Descriptor.ListsTexts (d : Descriptor) : Prop :=
  ∀ head ∈ Rule.headsOfAll d, head.ListsTexts

/-- The rule and the rules inside it list texts only. -/
def Rule.ListsTexts (rule : Rule) : Prop :=
  ∀ head ∈ rule.heads, head.ListsTexts

theorem RuleHead.listsTexts_of_none {head : RuleHead} (h : head.constraints.included = none) :
    head.ListsTexts := by
  intro values hvalues
  exact absurd (h.symm.trans hvalues) (by simp)

namespace Compilation

theorem choiceValues_ne_nil {options : OptionSet} {key : OptionKey} {path : String}
    {values : List String} (h : choiceValues options key path = .ok values) : values ≠ [] := by
  unfold choiceValues at h
  split at h
  next first rest _ =>
    rw [List.mapM_cons] at h
    obtain ⟨text, _, h⟩ := Outcome.bind_eq_ok.mp h
    obtain ⟨texts, _, h⟩ := Outcome.bind_eq_ok.mp h
    obtain rfl := Outcome.pure_eq_ok.mp h
    exact List.cons_ne_nil _ _
  next => exact absurd h Outcome.malformed_ne_ok

theorem compileChoice_listsTexts {ctx : FieldContext} {source : OptionKey} {field : CompiledField}
    (h : compileChoice ctx source = .ok field) : field.rule.ListsTexts := by
  obtain ⟨values, hvalues, h⟩ := Outcome.bind_eq_ok.mp h
  obtain ⟨given, _, h⟩ := Outcome.bind_eq_ok.mp h
  obtain ⟨default, _, h⟩ := Outcome.bind_eq_ok.mp h
  obtain rfl := Outcome.pure_eq_ok.mp h
  refine Rule.forall_heads_plain fun listed hlisted => ⟨rfl, ?_⟩
  obtain rfl := Option.some.inj hlisted
  exact choiceValues_ne_nil hvalues

theorem compilePlain_listsTexts {ctx : FieldContext} {leaf : LeafType} {type : RuleType}
    {imposed : Imposed} {field : CompiledField}
    (h : compilePlain ctx leaf type imposed = .ok field) : field.rule.ListsTexts := by
  obtain ⟨stated, _, h⟩ := Outcome.bind_eq_ok.mp h
  obtain rfl := Outcome.pure_eq_ok.mp h
  exact Rule.forall_heads_plain (RuleHead.listsTexts_of_none rfl)

theorem compileTemporal_listsTexts {ctx : FieldContext} {format canonical : String}
    {type : RuleType} {field : CompiledField}
    (h : compileTemporal ctx format type canonical = .ok field) : field.rule.ListsTexts := by
  obtain ⟨stated, _, h⟩ := Outcome.bind_eq_ok.mp h
  obtain ⟨sample, _, h⟩ := Outcome.bind_eq_ok.mp h
  obtain rfl := Outcome.pure_eq_ok.mp h
  exact Rule.forall_heads_plain (RuleHead.listsTexts_of_none rfl)

theorem compileScalar_listsTexts {ctx : FieldContext} {type : ScalarType} {field : CompiledField}
    (h : compileScalar ctx type = .ok field) : field.rule.ListsTexts := by
  cases compileScalar_madeAs h with
  | choice h => exact compileChoice_listsTexts h
  | plain _ _ _ h => exact compilePlain_listsTexts h
  | temporal _ h => exact compileTemporal_listsTexts h
  | openObject hfield =>
      subst hfield
      exact Rule.forall_heads_plain (RuleHead.listsTexts_of_none rfl)

theorem compileArray_listsTexts {ctx : FieldContext} {element : ElementType}
    {field : CompiledField} (h : compileArray ctx element = .ok field) :
    field.rule.ListsTexts := by
  obtain ⟨stated, _, h⟩ := Outcome.bind_eq_ok.mp h
  have hhead : (ruleHead ctx .array stated).ListsTexts := RuleHead.listsTexts_of_none rfl
  cases element with
  | object =>
      obtain rfl := Outcome.pure_eq_ok.mp h
      exact Rule.forall_heads_itemFields hhead (by simp [Rule.headsOfAll])
  | string =>
      obtain rfl := Outcome.pure_eq_ok.mp h
      exact Rule.forall_heads_items hhead
  | integer =>
      obtain rfl := Outcome.pure_eq_ok.mp h
      exact Rule.forall_heads_items hhead

theorem assembleBlock_listsTexts {ctx : FieldContext} {type : FieldType} {stated : Keywords}
    {inner : List (String × CompiledField)} (hinner : Descriptor.ListsTexts (rules inner)) :
    (assembleBlock ctx type stated inner).rule.ListsTexts := by
  cases type with
  | scalar scalar => exact Rule.forall_heads_fields (RuleHead.listsTexts_of_none rfl) hinner
  | array element => exact Rule.forall_heads_itemFields (RuleHead.listsTexts_of_none rfl) hinner

theorem compileEmbed_listsTexts {lookup : String → Option Schema} {kind : EmbedKind}
    {name reference path : String} {field : CompiledField}
    (hlookup : ∀ reference s, lookup reference = some s → s.descriptor.ListsTexts)
    (h : compileEmbed lookup kind name reference path = .ok field) : field.rule.ListsTexts := by
  unfold compileEmbed at h
  split at h
  next => cases h
  next target htarget =>
    have hinner := hlookup reference target htarget
    cases kind with
    | one =>
        obtain rfl := Except.ok.inj h
        exact Rule.forall_heads_fields (RuleHead.listsTexts_of_none rfl) hinner
    | many =>
        obtain rfl := Except.ok.inj h
        exact Rule.forall_heads_itemFields (RuleHead.listsTexts_of_none rfl) hinner

theorem compileField_listsTexts {around : Surroundings} {parent : String} {head : FieldHead}
    {field : CompiledField} (h : compileField around parent head = .ok field) :
    field.rule.ListsTexts := by
  obtain ⟨ctx, _, h⟩ := Outcome.bind_eq_ok.mp h
  cases htype : head.type with
  | scalar type => exact compileScalar_listsTexts (by simpa only [htype] using h)
  | array element => exact compileArray_listsTexts (by simpa only [htype] using h)

theorem listsTexts_rules {fields : List (String × CompiledField)}
    (heach : ∀ field ∈ fields, field.2.rule.ListsTexts) :
    Descriptor.ListsTexts (rules fields) := by
  induction fields with
  | nil => simp [rules, Descriptor.ListsTexts, Rule.headsOfAll]
  | cons field rest ih =>
      obtain ⟨hfield, hrest⟩ := List.forall_mem_cons.mp heach
      exact List.forall_mem_append.mpr ⟨hfield, ih hrest⟩

/-- Where every schema that may be embedded lists texts only, so does every compiled field. -/
theorem pervades_listsTexts {around : Surroundings}
    (hlookup : ∀ reference s, around.lookup reference = some s → s.descriptor.ListsTexts) :
    Pervades around fun _ field => field.rule.ListsTexts where
  field _ _ _ hfield := compileField_listsTexts hfield
  block _ _ _ _ _ _ _ heach := assembleBlock_listsTexts (listsTexts_rules heach)
  embed _ _ _ _ _ hfield := compileEmbed_listsTexts hlookup hfield

end Compilation

namespace Schema

theorem IsCompiled.listsTexts {s : Schema} (h : s.IsCompiled) : s.descriptor.ListsTexts := by
  refine h.of_compile (P := fun s => s.descriptor.ListsTexts) ?_
  intro name raw around s notices hlookup hcompile
  obtain ⟨declared, fields, hdeclared, hfields, rfl, -⟩ := compile_eq_ok.mp hcompile
  have hwell := Declaration.readAll_isWellFormed hdeclared
  apply Compilation.listsTexts_rules
  exact (Compilation.pervades_listsTexts hlookup).compileAll hwell hfields

/-! ## Accepted inputs -/

/-- Where an accepted input has a value for a rule, the value meets every restriction that the rule
carries and enforces. The documentation has a node at that place, and it publishes the restrictions
that the rule carries. -/
theorem IsCompiled.restrictions_met {s : Schema} (hs : s.IsCompiled) {x value : Value}
    (haccepted : s.descriptor.judge x = .ok (.accepted value)) {place : Place}
    {rules : Descriptor} {bare : Bool} {members : Record Value}
    (h : s.descriptor.Describes x place rules (.object bare members)) {rule : Rule}
    (hrule : rule ∈ rules) {v : Value} (hvalue : Record.get? members rule.name = some v)
    (hpresent : v.isNullish = false) :
    ∃ node, s.documentation.at? (place ++ [.member rule.name]) = some node ∧
      ∀ r : Restriction, (node.Publishes r ↔ rule.head.constraints.Carries r) ∧
        (rule.head.constraints.Carries r → rule.head.Enforces r → r.MetBy v) := by
  obtain ⟨_, _, properties, hproperties, hblock⟩ := hs.agrees
  obtain ⟨validator, hvalidator, haccepts⟩ := Descriptor.accepts_of_judge haccepted
  obtain ⟨found, inner, hfound, _, hinner, hinnerBlock⟩ := h.documented hproperties hblock
  obtain ⟨node, hnode, hagrees⟩ := hinnerBlock.2.2.of_mem hrule
  have hlists := hs.listsTexts rule.head (h.mem_headsOfAll (Rule.head_mem_headsOfAll hrule))
  -- the object is accepted, and so is the value that the rule is about
  obtain ⟨objectValidator, hobjectValidator, hobject, _⟩ := h.check hblock hvalidator haccepts
  obtain ⟨fields, rfl, _, hfields⟩ :=
    Validator.ofRules_eq_ok hinnerBlock.nodup_names hobjectValidator
  obtain ⟨field, hfield, hmem⟩ := hfields rule hrule
  have hmember := hobject.member hmem hvalue hpresent
  refine ⟨node, ?_, fun r => ⟨hagrees.saysSameAs.publishes_iff r, fun hcarries henforces => ?_⟩⟩
  · rw [Node.at?_append, hfound]
    simp [Node.at?, hinner, hnode]
  · exact hmember.met hfield hlists hcarries henforces

/-- Declarations of a code that begins with a letter. -/
def letteredCode : Value :=
  .list [.list [.text "required", .text "code", .text "string",
    .object false [("pattern", .text "^A")]]]

def codeRule : Rule := .plain ⟨"code", .string, true, { pattern := some "^A" }⟩

def codeMembers : Record Value := [("code", .text "AB")]

/-- The statement above applies to the code and its pattern. -/
theorem restrictions_met_code :
    ∃ s, compile "Coded" letteredCode alone = .ok (s, []) ∧ s.descriptor = [codeRule] ∧
      s.descriptor.judge (.object false codeMembers) =
        .ok (.accepted (.object false codeMembers)) ∧
      s.descriptor.Describes (.object false codeMembers) [] s.descriptor
        (.object false codeMembers) ∧
      codeRule ∈ s.descriptor ∧ Record.get? codeMembers "code" = some (.text "AB") ∧
      (Value.text "AB").isNullish = false ∧
      ∃ node, s.documentation.at? [.member "code"] = some node ∧
        ∀ r : Restriction, (node.Publishes r ↔ codeRule.head.constraints.Carries r) ∧
          (codeRule.head.constraints.Carries r → codeRule.head.Enforces r →
            r.MetBy (.text "AB")) := by
  obtain ⟨s, hs, hdescriptor⟩ : ∃ s, compile "Coded" letteredCode alone = .ok (s, []) ∧
      s.descriptor = [codeRule] := ⟨_, rfl, by cbv⟩
  have hcompiled : s.IsCompiled := .intro (by simp [alone]) hs
  have hrule : codeRule ∈ s.descriptor := hdescriptor ▸ List.mem_singleton_self codeRule
  have haccepted : s.descriptor.judge (.object false codeMembers) =
      .ok (.accepted (.object false codeMembers)) := by
    have hvalidator : Descriptor.validator [codeRule] = .ok (.object [("code",
        ⟨true, false, none⟩,
        .text { pattern := some ⟨"^A", .both .textStart (.unit (.range 65 65))⟩ })]) := by cbv
    rw [hdescriptor, Descriptor.judge_eq hvalidator]
    rfl
  exact ⟨s, hs, hdescriptor, haccepted, .root, hrule, rfl, rfl,
    hcompiled.restrictions_met haccepted .root hrule rfl rfl⟩

/-- Declarations of a day, an instant and a choice, all of which should begin with a year. -/
def yearlyFields : Value :=
  let fromYear : String × Value := ("pattern", .text "^2025")
  .list [.list [.text "required", .text "day", .text "date", .object false [fromYear]],
    .list [.text "required", .text "at", .text "datetime", .object false [fromYear]],
    .list [.text "required", .text "code", .text "string",
      .object false [("included", .list [.text "ab"]), fromYear]]]

/-- The pattern of texts that begin with the year. -/
def fromYearPattern : Pattern :=
  ⟨"^2025", .both .textStart (.both (.unit (.range 50 50)) (.both (.unit (.range 48 48))
    (.both (.unit (.range 50 50)) (.unit (.range 53 53)))))⟩

/-- An input in which nothing begins with the year. -/
def yearlyMembers : Record Value :=
  [("day", .text "2024-08-12"), ("at", .text "2024-08-12T21:00:39"), ("code", .text "ab")]

/-- The patterns of a date, of a date with a time and of a choice are carried and published, and the
input is accepted though none of its texts matches. -/
theorem restrictions_unmet_yearly :
    ∃ s, compile "Yearly" yearlyFields alone = .ok (s, []) ∧
      s.descriptor.judge (.object false yearlyMembers) =
        .ok (.accepted (.object false yearlyMembers)) ∧
      s.descriptor.Describes (.object false yearlyMembers) [] s.descriptor
        (.object false yearlyMembers) ∧
      s.descriptor.names = ["day", "at", "code"] ∧
      ∀ rule ∈ s.descriptor, ∃ v node, Record.get? yearlyMembers rule.name = some v ∧
        v.isNullish = false ∧ rule.head.constraints.Carries (.pattern "^2025") ∧
        s.documentation.at? [.member rule.name] = some node ∧
        node.Publishes (.pattern "^2025") ∧ ¬(Restriction.pattern "^2025").MetBy v := by
  have hunmet : ∀ s, fromYearPattern.matchesText s = false →
      ¬(Restriction.pattern "^2025").MetBy (.text s) := by
    rintro s hmatch ⟨pattern, hpattern, hmet⟩
    have hsource : Pattern.ofSource? "^2025" = some fromYearPattern := rfl
    obtain rfl := Option.some.inj (hsource.symm.trans hpattern)
    simp [hmatch] at hmet
  have haccepted : Validator.judge
      (.object [("day", ⟨true, false, none⟩, .date), ("at", ⟨true, false, none⟩, .dateTime),
        ("code", ⟨true, false, none⟩, .choice ["ab"])]) (.object false yearlyMembers) =
      .ok (.accepted (.object false yearlyMembers)) := rfl
  refine ⟨_, rfl, (Descriptor.judge_eq (by cbv) _).trans haccepted, .root, rfl, ?_⟩
  refine List.forall_mem_cons.mpr
    ⟨?_, List.forall_mem_cons.mpr ⟨?_, List.forall_mem_singleton.mpr ?_⟩⟩
  · exact ⟨_, _, rfl, rfl, rfl, rfl, rfl, hunmet "2024-08-12" rfl⟩
  · exact ⟨_, _, rfl, rfl, rfl, rfl, rfl, hunmet "2024-08-12T21:00:39" rfl⟩
  · exact ⟨_, _, rfl, rfl, rfl, rfl, rfl, hunmet "ab" rfl⟩

end Schema

end FieldSchema
