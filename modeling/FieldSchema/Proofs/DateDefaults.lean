import FieldSchema.Proofs.InstantTexts
import FieldSchema.Proofs.SentDefaults

/-!
# Defaults of dates

A date or datetime field may have an instant as its default, given by its declaration or by an
override. The rule states it as the ISO text of the instant, of which a date field keeps the day.
Its own validator accepts that text where the year has four digits, and in no other year.
-/

namespace FieldSchema

open Outcome

theorem isClean_checkForm_iff {isForm : String → Bool} {cause : Cause} {s : String} :
    IsClean (checkForm isForm cause (.text s)) ↔ isForm s = true := by
  rw [checkForm]
  split
  next h => exact ⟨fun _ => h, fun _ => ⟨_, rfl⟩⟩
  next h => exact ⟨fun hclean => absurd (isClean_withCauses hclean) (by simp), (absurd · h)⟩

/-- The types of fields whose values are days, with or without a time. -/
inductive TemporalForm where
  | day
  | instant
deriving Repr, DecidableEq

namespace TemporalForm

def type : TemporalForm → ScalarType
  | .day => .date
  | .instant => .datetime

/-- The text under which an instant is stated. -/
def text (form : TemporalForm) (ms : Int) : String :=
  match form with
  | .day => Instant.dayText ms
  | .instant => Instant.isoText ms

def validator : TemporalForm → Validator
  | .day => .date
  | .instant => .dateTime

theorem accepts_text_iff (form : TemporalForm) (ms : Int) :
    form.validator.Accepts (.text (form.text ms)) ↔ Instant.HasPlainYear (Instant.date ms) := by
  unfold Validator.Accepts
  cases form with
  | day =>
      rw [validator, Validator.check]
      exact isClean_checkForm_iff.trans Instant.isDate_dayText_iff
  | instant =>
      rw [validator, Validator.check]
      exact isClean_checkForm_iff.trans Instant.isDateTime_isoText_iff

end TemporalForm

namespace Compilation

variable {around other : Surroundings} {parent : String} {head otherHead : FieldHead}
  {field : CompiledField}

/-- The default that the overrides give for a field, or else its declaration. -/
def givenDefault (around : Surroundings) (parent : String) (head : FieldHead) : Option Value :=
  ((entriesAt around.overrides (joinPath parent head.name)).get? OptionKey.default.name).or
    (head.options.get? OptionKey.default.name)

/-! ## Any instant as a default -/

/-- A field is declared and overridden as another one, but for its defaults, which are literals. -/
structure DiffersInDefault (around other : Surroundings) (parent : String)
    (head otherHead : FieldHead) : Prop where
  name : otherHead.name = head.name
  type : otherHead.type = head.type
  typeDefaults : other.typeDefaults = around.typeDefaults
  declared : ∀ key ≠ OptionKey.default,
    otherHead.options.get? key.name = head.options.get? key.name
  overridden : ∀ key ≠ OptionKey.default,
    (entriesAt other.overrides (joinPath parent head.name)).get? key.name =
      (entriesAt around.overrides (joinPath parent head.name)).get? key.name
  literal : ∀ v, head.options.get? OptionKey.default.name = some v ∨
    (entriesAt around.overrides (joinPath parent head.name)).get? OptionKey.default.name = some v →
    v.IsLiteral

theorem isLiteral_prepared {v : Value} (h : v.IsLiteral) (type : FieldType) (key : OptionKey) :
    (preparedValue type key v).IsLiteral := by
  unfold preparedValue OptionSet.calendarDay
  split
  next =>
    split
    next => exact .text _
    next => exact .text _
    next => exact h
  next => exact h

/-- A field that differs in its default has a context that differs in nothing else. -/
theorem exists_fieldContext_of_differs (hdecimal : head.type ≠ .scalar .decimal)
    (hdiffers : DiffersInDefault around other parent head otherHead) {otherCtx : FieldContext}
    (h : fieldContext other parent otherHead = .ok otherCtx) :
    ∃ ctx, fieldContext around parent head = .ok ctx ∧ ctx.path = otherCtx.path ∧
      ∀ key ≠ OptionKey.default, ctx.options.get? key = otherCtx.options.get? key := by
  obtain ⟨merged, hmerged, rfl⟩ := fieldContext_eq_ok_iff.mp h
  rw [hdiffers.name, hdiffers.type, hdiffers.typeDefaults] at hmerged
  obtain ⟨-, hliteral, rfl⟩ := mergeOptions_eq_ok_iff.mp hmerged
  refine ⟨_, fieldContext_eq_ok_iff.mpr ⟨_, mergeOptions_eq_ok_iff.mpr
    ⟨fun htype => absurd htype hdecimal, ?_, rfl⟩, rfl⟩, by rw [hdiffers.name], ?_⟩
  · rintro ⟨key, v⟩ hoption
    by_cases hkey : key = .default
    · subst hkey
      rw [OptionSet.examined, List.mem_append, OptionSet.mem_givenAmong,
        OptionSet.mem_givenAmong] at hoption
      exact not_not.mpr
        (isLiteral_prepared (hdiffers.literal v (hoption.imp And.right And.right)) _ _)
    · apply hliteral
      rw [OptionSet.examined, List.mem_append, OptionSet.mem_givenAmong,
        OptionSet.mem_givenAmong] at hoption ⊢
      rwa [hdiffers.declared key hkey, hdiffers.overridden key hkey]
  · intro key hkey
    rw [OptionSet.get?, OptionSet.get?, lookup_merged, lookup_merged, givenLiteral?, givenLiteral?,
      hdiffers.declared key hkey, hdiffers.overridden key hkey]

/-- The default is stated as it is given, whatever it is. -/
theorem exists_keywords_of_differs {options others : OptionSet} {path : String}
    (h : ∀ key ≠ OptionKey.default, options.get? key = others.get? key) {stated : Keywords}
    (hstated : keywords others path = .ok stated) : ∃ own, keywords options path = .ok own := by
  have hkeywords : keywords options path =
      keywords others path >>= fun given =>
        .ok { given with default := options.get? .default } := by
    simp (disch := decide) only [keywords, numberOption, textOption, flagOption, h, bind_assoc,
      pure_bind]
    rfl
  exact ⟨_, hkeywords.trans (bind_eq_ok.mpr ⟨stated, hstated, rfl⟩)⟩

theorem exists_compileTemporal_of_differs {ctx otherCtx : FieldContext}
    (hpath : ctx.path = otherCtx.path)
    (h : ∀ key ≠ OptionKey.default, ctx.options.get? key = otherCtx.options.get? key)
    {format canonical : String} {type : RuleType}
    (hfield : compileTemporal otherCtx format type canonical = .ok field) :
    ∃ own, compileTemporal ctx format type canonical = .ok own := by
  obtain ⟨stated, hstated, hfield⟩ := bind_eq_ok.mp hfield
  obtain ⟨sample, hsample, -⟩ := bind_eq_ok.mp hfield
  obtain ⟨own, hown⟩ := exists_keywords_of_differs h hstated
  rw [← hpath] at hown
  rw [← h .example (by decide)] at hsample
  exact ⟨_, bind_eq_ok.mpr ⟨own, hown, bind_eq_ok.mpr ⟨sample, hsample, rfl⟩⟩⟩

/-- A literal default keeps no date or datetime field from being compiled. -/
theorem exists_compileField_of_differs (form : TemporalForm)
    (htype : head.type = .scalar form.type)
    (hdiffers : DiffersInDefault around other parent head otherHead)
    (h : compileField other parent otherHead = .ok field) :
    ∃ own, compileField around parent head = .ok own := by
  have hdecimal : head.type ≠ .scalar .decimal := by
    rw [htype]
    cases form <;> decide
  obtain ⟨otherCtx, hother, h⟩ := bind_eq_ok.mp h
  obtain ⟨ctx, hctx, hpath, hget⟩ := exists_fieldContext_of_differs hdecimal hdiffers hother
  rw [hdiffers.type, htype] at h
  have hown : ∃ own, compileScalar ctx form.type = .ok own := by
    cases form with
    | day => exact exists_compileTemporal_of_differs hpath hget h
    | instant => exact exists_compileTemporal_of_differs hpath hget h
  obtain ⟨own, hown⟩ := hown
  refine ⟨own, bind_eq_ok.mpr ⟨ctx, hctx, ?_⟩⟩
  rw [htype]
  exact hown

/-! ## The stated default -/

theorem lookup_default_of_given {ctx : FieldContext} {v : Value}
    (hctx : fieldContext around parent head = .ok ctx)
    (hgiven : givenDefault around parent head = some v) :
    List.lookup .default ctx.options = some (preparedValue head.type .default v).resolved := by
  obtain ⟨options, hoptions, rfl⟩ := fieldContext_eq_ok_iff.mp hctx
  obtain ⟨_, _, rfl⟩ := mergeOptions_eq_ok_iff.mp hoptions
  rw [givenDefault] at hgiven
  rw [lookup_merged, givenLiteral?, hgiven]
  rfl

theorem preparedValue_date (form : TemporalForm) (ms : Int) :
    (preparedValue (.scalar form.type) .default (.date (some ms))).resolved =
      .text (form.text ms) := by
  cases form <;> rfl

theorem rule_of_compileTemporal {ctx : FieldContext} {format canonical : String} {type : RuleType}
    (h : compileTemporal ctx format type canonical = .ok field) :
    ∃ stated, keywords ctx.options ctx.path = .ok stated ∧
      field.rule = .plain (ruleHead ctx type stated) := by
  obtain ⟨stated, hstated, h⟩ := bind_eq_ok.mp h
  obtain ⟨sample, _, h⟩ := bind_eq_ok.mp h
  obtain rfl := pure_eq_ok.mp h
  exact ⟨stated, hstated, rfl⟩

/-- The rule of a date or datetime field has the validator of its type, and states the default. -/
theorem rule_states_default {ctx : FieldContext} (form : TemporalForm)
    (h : compileScalar ctx form.type = .ok field) :
    Validator.ofRule field.rule = .ok form.validator ∧
      field.rule.head.constraints.default = ctx.options.get? .default := by
  cases form with
  | day =>
      obtain ⟨stated, hstated, hrule⟩ := rule_of_compileTemporal h
      rw [hrule, Validator.ofRule]
      exact ⟨rfl, (statesConstraints hstated).default⟩
  | instant =>
      obtain ⟨stated, hstated, hrule⟩ := rule_of_compileTemporal h
      rw [hrule, Validator.ofRule]
      exact ⟨rfl, (statesConstraints hstated).default⟩

theorem default_of_compileField (hfield : compileField around parent head = .ok field)
    (form : TemporalForm) (htype : head.type = .scalar form.type) {ms : Int}
    (hgiven : givenDefault around parent head = some (.date (some ms))) :
    Validator.ofRule field.rule = .ok form.validator ∧
      field.rule.head.constraints.default = some (.text (form.text ms)) := by
  obtain ⟨ctx, hctx, hfield⟩ := bind_eq_ok.mp hfield
  have hlookup := lookup_default_of_given hctx hgiven
  rw [htype, preparedValue_date] at hlookup
  rw [htype] at hfield
  obtain ⟨hvalidator, hdefault⟩ := rule_states_default form hfield
  refine ⟨hvalidator, ?_⟩
  rw [hdefault, OptionSet.get?, hlookup]
  rfl

/-- A date or datetime field whose default is an instant compiles if it does so with another default
or with none. Its rule states a text that its own validator accepts exactly in the years 0 to 9999,
and in these years a date field states the day of the instant. -/
theorem instant_default_accepted_iff (form : TemporalForm) (htype : head.type = .scalar form.type)
    {ms : Int} (hgiven : givenDefault around parent head = some (.date (some ms)))
    {d : CalendarDate} (hday : CalendarDate.IsDay (ms / Instant.msPerDay) d) :
    (∀ other otherHead plain, DiffersInDefault around other parent head otherHead →
      compileField other parent otherHead = .ok plain →
      ∃ field, compileField around parent head = .ok field) ∧
    ∀ field, compileField around parent head = .ok field →
      field.rule.head.constraints.default = some (.text (form.text ms)) ∧
      (field.rule.AcceptsSent (.text (form.text ms)) ↔ 0 ≤ d.year ∧ d.year ≤ 9999) ∧
      (0 ≤ d.year ∧ d.year ≤ 9999 → form = .day →
        form.text ms = Instant.padded 4 d.year.toNat ++ "-" ++ Instant.padded 2 d.month ++ "-" ++
          Instant.padded 2 d.day) := by
  obtain rfl : d = Instant.date ms := CalendarDate.isDay_iff.mp hday
  refine ⟨fun other otherHead plain => exists_compileField_of_differs form htype, ?_⟩
  intro field hfield
  obtain ⟨hvalidator, hdefault⟩ := default_of_compileField hfield form htype hgiven
  refine ⟨hdefault, ?_, ?_⟩
  · rw [Rule.acceptsSent_iff_of_present rfl, hvalidator]
    simp only [Except.ok.injEq, exists_eq_left', form.accepts_text_iff, Instant.HasPlainYear]
  · rintro hyear rfl
    exact (Instant.dayText_of_plainYear hyear).trans (Instant.dateText_of_plainYear hyear)

/-- A date or datetime field with some options. -/
def dayHead (form : TemporalForm) (options : Record Value) : FieldHead where
  kind := .optional
  name := "day"
  type := .scalar form.type
  options := options

def daySurroundings (overrides : Record Value) : Surroundings where
  lookup _ := none
  typeDefaults := .builtIn
  overrides := overrides

/-- The instants that begin 29 February 2000 and, given by an override, the year 10000. -/
theorem instant_default_accepted_iff_each :
    (∃ field, compileField (daySurroundings []) ""
        (dayHead .day [("default", .date (some 951782400000))]) = .ok field ∧
      CalendarDate.IsDay (951782400000 / Instant.msPerDay) ⟨2000, 2, 29⟩ ∧
      field.rule.head.constraints.default = some (.text "2000-02-29") ∧
      field.rule.AcceptsSent (.text "2000-02-29")) ∧
    ∃ field text, compileField
        (daySurroundings [("day", .object false [("default", .date (some 253402300800000))])]) ""
        (dayHead .instant []) = .ok field ∧
      CalendarDate.IsDay (253402300800000 / Instant.msPerDay) ⟨10000, 1, 1⟩ ∧
      field.rule.head.constraints.default = some (.text text) ∧
      ¬field.rule.AcceptsSent (.text text) := by
  constructor
  · have hday : CalendarDate.IsDay (951782400000 / Instant.msPerDay) ⟨2000, 2, 29⟩ :=
      CalendarDate.isDay_iff.mpr (by decide +kernel)
    have hdiffers : DiffersInDefault (daySurroundings []) (daySurroundings []) ""
        (dayHead .day [("default", .date (some 951782400000))]) (dayHead .day []) := by
      refine ⟨rfl, rfl, rfl, fun key hkey => ?_, fun _ _ => rfl, ?_⟩
      · cases key <;> first | rfl | exact absurd rfl hkey
      · rintro v (h | h)
        · obtain rfl := Option.some.inj h
          exact .date _
        · cases h
    have hgiven : givenDefault (daySurroundings []) ""
        (dayHead .day [("default", .date (some 951782400000))]) =
          some (.date (some 951782400000)) := rfl
    obtain ⟨hcompiles, hstates⟩ := instant_default_accepted_iff .day rfl hgiven hday
    obtain ⟨plain, hplain⟩ : ∃ plain,
        compileField (daySurroundings []) "" (dayHead .day []) = .ok plain := ⟨_, rfl⟩
    obtain ⟨field, hfield⟩ := hcompiles _ _ plain hdiffers hplain
    obtain ⟨hdefault, haccepted, htext⟩ := hstates field hfield
    have hyear : (0 : Int) ≤ 2000 ∧ (2000 : Int) ≤ 9999 := by decide
    have hwritten : TemporalForm.day.text 951782400000 = "2000-02-29" :=
      (htext hyear rfl).trans (by decide +kernel)
    rw [hwritten] at hdefault haccepted
    exact ⟨field, hfield, hday, hdefault, haccepted.mpr hyear⟩
  · obtain ⟨field, hfield⟩ : ∃ field, compileField
        (daySurroundings [("day", .object false [("default", .date (some 253402300800000))])]) ""
        (dayHead .instant []) = .ok field := ⟨_, rfl⟩
    have hday : CalendarDate.IsDay (253402300800000 / Instant.msPerDay) ⟨10000, 1, 1⟩ :=
      CalendarDate.isDay_iff.mpr (by decide +kernel)
    obtain ⟨hdefault, haccepted, -⟩ :=
      (instant_default_accepted_iff .instant rfl rfl hday).2 field hfield
    exact ⟨field, _, hfield, hday, hdefault, fun h => absurd (haccepted.mp h) (by decide)⟩

end Compilation

end FieldSchema
