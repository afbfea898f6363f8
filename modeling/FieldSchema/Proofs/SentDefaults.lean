import FieldSchema.Proofs.ChoiceForms

/-!
# Defaults that are sent

A default is taken over unchecked, so that a rule may state one that its own validator refuses. A
choice states the text under which its default is listed, which the validator accepts. Only null is
not kept: it is stated as the empty text, whether the choice is nullable or not.
-/

namespace FieldSchema

open Outcome

/-! ## Sending the value of one field -/

/-- The validator of the rule alone accepts a value that is sent for its field. -/
def Rule.AcceptsSent (rule : Rule) (v : Value) : Prop :=
  ∃ value, Descriptor.judge [rule] (.object false [(rule.name, v)]) = .ok (.accepted value)

/-- A validator of one field accepts an object with that field alone as the field's check does. -/
theorem Validator.exists_judge_field {name : String} {presence : Presence} {validator : Validator}
    {v : Value} :
    (∃ value, (Validator.object [(name, presence, validator)]).judge (.object false [(name, v)]) =
        .ok (.accepted value)) ↔
      IsClean (presence.check validator.check v) := by
  have hread : (Value.object false [(name, v)]).read name = v :=
    Value.read_object_of_get? (by rw [Record.get?_cons, if_pos rfl])
  have hfield : Validator.checkField (name, presence, validator) (.object false [(name, v)]) =
      presence.check validator.check v := by
    rw [Validator.checkField, hread]
  constructor
  · rintro ⟨value, h⟩
    have haccepts : Validator.Accepts (.object [(name, presence, validator)])
        (.object false [(name, v)]) := ⟨value, (Validator.judge_accepted_iff _ _ value).mp h⟩
    exact hfield ▸ haccepts.checkField_isClean List.mem_cons_self
  · intro hclean
    obtain ⟨members, hmembers⟩ :=
      Validator.checkFields_of_clean (List.forall_mem_singleton.mpr (hfield ▸ hclean))
    refine ⟨.object false members, ?_⟩
    rw [Validator.judge_accepted_iff, Validator.check]
    exact bind_eq_ok.mpr ⟨_, hmembers, rfl⟩

theorem Rule.acceptsSent_iff {rule : Rule} {v : Value} :
    rule.AcceptsSent v ↔ ∃ validator, Validator.ofRule rule = .ok validator ∧
      IsClean ((Presence.ofHead rule.head).check validator.check v) := by
  have hvalidator {validator : Validator} (h : Validator.ofRule rule = .ok validator) :
      Descriptor.validator [rule] =
        .ok (.object [(rule.name, Presence.ofHead rule.head, validator)]) := by
    have hfields : Validator.ofFields [rule] =
        .ok [(rule.name, Presence.ofHead rule.head, validator)] := by
      rw [Validator.ofFields, h, Validator.ofFields]
      rfl
    have hone : Record.ofList [(rule.name, Presence.ofHead rule.head, validator)] =
        [(rule.name, Presence.ofHead rule.head, validator)] := Record.set_nil _ _
    rw [Descriptor.validator, Validator.ofRules, hfields]
    exact bind_eq_ok.mpr ⟨_, rfl, by rw [hone]; rfl⟩
  constructor
  · rintro ⟨value, h⟩
    obtain ⟨whole, hwhole, hjudge⟩ := bind_eq_ok.mp h
    have hrules := hwhole
    rw [Descriptor.validator, Validator.ofRules] at hrules
    obtain ⟨fields, hfields, _⟩ := bind_eq_ok.mp hrules
    obtain ⟨validator, hrule, _⟩ := Validator.mem_of_ofFields hfields List.mem_cons_self
    obtain rfl := Except.ok.inj ((hvalidator hrule).symm.trans hwhole)
    exact ⟨validator, hrule, Validator.exists_judge_field.mp ⟨value, hjudge⟩⟩
  · rintro ⟨validator, hrule, hclean⟩
    obtain ⟨value, hjudge⟩ := Validator.exists_judge_field.mpr hclean
    exact ⟨value, bind_eq_ok.mpr ⟨_, hvalidator hrule, hjudge⟩⟩

/-- A value that is neither absent nor null is sent past the presence of its field. -/
theorem Rule.acceptsSent_iff_of_present {rule : Rule} {v : Value} (h : v.isNullish = false) :
    rule.AcceptsSent v ↔
      ∃ validator, Validator.ofRule rule = .ok validator ∧ validator.Accepts v := by
  rw [acceptsSent_iff]
  simp only [Presence.check_of_present h, Validator.Accepts]

/-! ## Listed values -/

theorem Validator.accepts_ofChoice_iff {values : List String} {s : String} :
    (ofChoice values).Accepts (.text s) ↔ s ∈ values := by
  refine ⟨mem_of_accepts_ofChoice, fun h => ?_⟩
  have hlisted : (Record.ofList (values.map fun value => (value, ()))).names.contains s = true := by
    rw [List.contains_iff_mem, Record.mem_names_ofList]
    simpa [Record.names] using h
  unfold Accepts ofChoice
  rw [check, checkChoice, if_pos hlisted]
  exact ⟨_, rfl⟩

/-- The two zeros have one text. -/
theorem Number.text_of_zero {x : Float} (h : (x == 0) = true) : text x = "0" := by
  have hzero : (0 : Float).toModel.unpack = .zero .positive := by rfl
  have hx : x.toModel.unpack.beq (0 : Float).toModel.unpack = true := h
  rw [hzero] at hx
  have hfinite : x.isNaN = false ∧ x.isInf = false := by
    rw [Float.isNaN, Float.isInf, Float.Model.isNaN, Float.Model.isInf]
    cases hunpacked : x.toModel.unpack with
    | zero sign => exact ⟨rfl, rfl⟩
    | finite sign mantissa exponent hpositive => exact ⟨rfl, rfl⟩
    | notANumber =>
        rw [hunpacked] at hx
        cases hx
    | infinity sign =>
        rw [hunpacked] at hx
        cases sign <;> cases hx
  rw [text, hfinite.1, hfinite.2, if_neg Bool.false_ne_true, if_neg Bool.false_ne_true, if_pos h]

namespace Value

/-- Two listed values are the same. The two zeros are, too. -/
inductive SameListed : Value → Value → Prop
  | refl (v : Value) : SameListed v v
  | zeros {x y : Float} (hx : (x == 0) = true) (hy : (y == 0) = true) :
      SameListed (.number x) (.number y)

/-- What a default is known as among texts: null is kept, and texts, numbers and flags have the text
under which they are listed. -/
inductive KnownAs : Value → Value → Prop
  | null : KnownAs .null .null
  | text (s : String) : KnownAs (.text s) (.text s)
  | number (x : Float) : KnownAs (.number x) (.text (Number.text x))
  | bool (flag : Bool) : KnownAs (.bool flag) (.text (if flag then "true" else "false"))

end Value

namespace Outcome

theorem exists_of_mem_items {α β : Type} {f : α → Outcome β} {items : List α} {results : List β}
    (h : items.mapM f = .ok results) :
    ∀ item ∈ items, ∃ result ∈ results, f item = .ok result := by
  induction items generalizing results with
  | nil => simp
  | cons first rest ih =>
      rw [List.mapM_cons] at h
      obtain ⟨result, hresult, h⟩ := bind_eq_ok.mp h
      obtain ⟨others, hothers, h⟩ := bind_eq_ok.mp h
      obtain rfl := pure_eq_ok.mp h
      refine List.forall_mem_cons.mpr ⟨⟨result, List.mem_cons_self, hresult⟩, ?_⟩
      intro item hitem
      obtain ⟨other, hother, hmade⟩ := ih hothers item hitem
      exact ⟨other, List.mem_cons_of_mem _ hother, hmade⟩

end Outcome

namespace Compilation

/-- A default that is the same as a listed value is written as the text of the listed value. -/
theorem toSetting_of_sameListed {key : OptionKey} {path : String} {item default : Value}
    {s : String} (hitem : choiceText key path item = .ok s) (hsame : item.SameListed default) :
    default.toSetting = .ok (.text s) ∧ default.KnownAs (.text s) := by
  cases hsame with
  | refl =>
      cases item with
      | text t =>
          obtain rfl := Except.ok.inj hitem
          exact ⟨rfl, .text t⟩
      | number x =>
          obtain rfl := Except.ok.inj hitem
          exact ⟨rfl, .number x⟩
      | bool flag =>
          obtain rfl := Except.ok.inj hitem
          exact ⟨rfl, .bool flag⟩
      | _ => exact absurd hitem malformed_ne_ok
  | @zeros x y hx hy =>
      have htext : Number.text x = Number.text y := by
        rw [Number.text_of_zero hx, Number.text_of_zero hy]
      obtain rfl : Number.text x = s := Except.ok.inj hitem
      rw [htext]
      exact ⟨rfl, .number y⟩

/-! ## Defaults of choices -/

/-- The rule of a choice has a validator for the listed texts, and states the default as a text. -/
theorem rule_of_compileChoice {ctx : FieldContext} {source : OptionKey} {field : CompiledField}
    (h : compileChoice ctx source = .ok field) :
    ∃ values, choiceValues ctx.options source ctx.path = .ok values ∧
      Validator.ofRule field.rule = .ok (Validator.ofChoice values) ∧
      (ctx.options.get? .default).mapM Value.toSetting =
        .ok field.rule.head.constraints.default := by
  obtain ⟨values, hvalues, h⟩ := bind_eq_ok.mp h
  obtain ⟨given, hgiven, h⟩ := bind_eq_ok.mp h
  obtain ⟨default, hdefault, h⟩ := bind_eq_ok.mp h
  obtain rfl := pure_eq_ok.mp h
  refine ⟨values, hvalues, ?_, (statesConstraints hgiven).default ▸ hdefault⟩
  cases values with
  | nil => exact absurd rfl (choiceValues_ne_nil hvalues)
  | cons first rest =>
      rw [Validator.ofRule]
      rfl

/-- A default is admissible for a choice: it is one of the listed values, or it is null and the
choice is nullable. -/
def IsAdmissible (form : ChoiceForm) (options : OptionSet) (default : Value) : Prop :=
  (∃ items, options.get? form.key = some (.list items) ∧
    ∃ item ∈ items, item.SameListed default) ∨
  (default = .null ∧ options.get? .nullable = some (.bool true))

/-- An admissible default is stated as what it is known as, and accepted when it is sent, in every
case but null, which is stated as the empty text. -/
theorem admissible_default_accepted_iff {around : Surroundings} {parent : String} {head : FieldHead}
    {ctx : FieldContext} {field : CompiledField}
    (hctx : fieldContext around parent head = .ok ctx)
    (hfield : compileField around parent head = .ok field) (form : ChoiceForm)
    (htype : head.type = .scalar form.type)
    (hincluded : form = .text → (ctx.options.get? .included).isSome = true) {default : Value}
    (hdefault : ctx.options.get? .default = some default)
    (hadmissible : IsAdmissible form ctx.options default) :
    ((∃ stated, field.rule.head.constraints.default = some stated ∧ default.KnownAs stated ∧
        field.rule.AcceptsSent stated) ↔ default ≠ .null) ∧
      (default = .null → field.rule.head.constraints.default = some (.text "")) := by
  obtain ⟨same, hsame, hfield⟩ := bind_eq_ok.mp hfield
  obtain rfl := Except.ok.inj (hctx.symm.trans hsame)
  rw [htype] at hfield
  have hchoice : compileChoice ctx form.key = .ok field := by
    cases form with
    | text => rwa [← compileScalar_choice .text (hincluded rfl)]
    | enumeration => exact hfield
  obtain ⟨values, hvalues, hvalidator, hstated⟩ := rule_of_compileChoice hchoice
  rw [hdefault, Option.mapM_some] at hstated
  obtain ⟨setting, hsetting, hstated⟩ := bind_eq_ok.mp hstated
  have hrule := (pure_eq_ok.mp hstated).symm
  have hnull (h : default = .null) : setting = .text "" := by
    subst h
    exact (Except.ok.inj hsetting).symm
  refine ⟨⟨?_, fun hne => ?_⟩, fun h => by rw [hrule, hnull h]⟩
  · rintro ⟨stated, hstates, hknown, -⟩ rfl
    rw [hrule, hnull rfl] at hstates
    obtain rfl := Option.some.inj hstates
    cases hknown
  · rcases hadmissible with ⟨items, hitems, item, hitem, hsame⟩ | ⟨h, -⟩
    · unfold choiceValues at hvalues
      rw [hitems] at hvalues
      split at hvalues
      next first rest heq =>
        obtain rfl := Value.list.inj (Option.some.inj heq)
        obtain ⟨s, hs, htext⟩ := exists_of_mem_items hvalues item hitem
        obtain ⟨hwritten, hknown⟩ := toSetting_of_sameListed htext hsame
        obtain rfl := Except.ok.inj (hwritten.symm.trans hsetting)
        refine ⟨_, hrule, hknown, (Rule.acceptsSent_iff_of_present rfl).mpr ?_⟩
        exact ⟨_, hvalidator, Validator.accepts_ofChoice_iff.mpr hs⟩
      next => exact absurd hvalues malformed_ne_ok
    · exact absurd h hne

/-- A nullable level with a default. -/
def levelHead (default : Value) : FieldHead where
  kind := .optional
  name := "level"
  type := .scalar .enumeration
  options := [("values", .list [.text "low", .text "high"]), ("nullable", .bool true),
    ("default", default)]

def levelSurroundings : Surroundings where
  lookup _ := none
  typeDefaults := .builtIn
  overrides := []

/-- The options of the level are literals already. -/
def levelContext (default : Value) : FieldContext where
  name := "level"
  path := "level"
  required := false
  options := [(.values, .list [.text "low", .text "high"]), (.nullable, .bool true),
    (.default, default)]

theorem low_level_accepted :
    fieldContext levelSurroundings "" (levelHead (.text "low")) =
        .ok (levelContext (.text "low")) ∧
      IsAdmissible .enumeration (levelContext (.text "low")).options (.text "low") ∧
      ∃ field, compileField levelSurroundings "" (levelHead (.text "low")) = .ok field ∧
        ∃ stated, field.rule.head.constraints.default = some stated ∧
          (Value.text "low").KnownAs stated ∧ field.rule.AcceptsSent stated := by
  have hctx : fieldContext levelSurroundings "" (levelHead (.text "low")) =
      .ok (levelContext (.text "low")) := rfl
  have hadmissible : IsAdmissible .enumeration (levelContext (.text "low")).options (.text "low") :=
    .inl ⟨[.text "low", .text "high"], rfl, .text "low", List.mem_cons_self, .refl _⟩
  obtain ⟨field, hfield⟩ : ∃ field,
      compileField levelSurroundings "" (levelHead (.text "low")) = .ok field := ⟨_, rfl⟩
  refine ⟨hctx, hadmissible, field, hfield, ?_⟩
  have haccepted :=
    admissible_default_accepted_iff hctx hfield .enumeration rfl nofun rfl hadmissible
  exact haccepted.1.mpr nofun

/-- Null is admissible for the nullable level, but it is not kept. -/
theorem null_level_lost :
    fieldContext levelSurroundings "" (levelHead .null) = .ok (levelContext .null) ∧
      (levelContext .null).options.get? .default = some .null ∧
      IsAdmissible .enumeration (levelContext .null).options .null ∧
      ∃ field, compileField levelSurroundings "" (levelHead .null) = .ok field ∧
        ¬∃ stated, field.rule.head.constraints.default = some stated ∧
          Value.null.KnownAs stated ∧ field.rule.AcceptsSent stated := by
  refine ⟨rfl, rfl, .inr ⟨rfl, rfl⟩, _, rfl, ?_⟩
  rintro ⟨stated, hstates, hknown, -⟩
  cases hknown
  cases hstates

end Compilation

end FieldSchema
