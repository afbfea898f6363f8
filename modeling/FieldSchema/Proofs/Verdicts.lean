import Mathlib
import FieldSchema.Proofs.Checks
import FieldSchema.Proofs.Validators

/-!
# Verdicts and what they report

A rejected input is reported by name: every issue puts its message under its path, in the order in
which the issues were found, and nothing else is reported. Collecting the messages fails for one
kind of issue only, the one that stands directly under a name that every object inherits. An input
that is checked to the end therefore has a verdict unless a field of the schema has such a name.
-/

namespace FieldSchema

/-- An issue stands directly under a name that every object inherits. -/
def Issue.IsUnderInherited (i : Issue) : Prop :=
  ∃ name, i.path = [name] ∧ Value.isInheritedName name = true

/-- The messages of the issues that are reported under a name, in order. -/
def messagesUnder (issues : List Issue) (key : String) : List String :=
  (issues.filter fun i => i.key = key).map fun i => i.cause.message

/-- The errors report the issues: under each name stand the messages of its issues, and there are no
other messages. -/
structure FieldErrors.Report (errors : FieldErrors) (issues : List Issue) : Prop where
  nodup : (Record.names errors).Nodup
  mem_iff : ∀ key messages, (key, messages) ∈ errors ↔
    messages = messagesUnder issues key ∧ messages ≠ []

/-! ## Names of issues -/

theorem Value.isInheritedName_no_dot {name : String} (h : isInheritedName name = true) :
    '.' ∉ name.toList := by
  have hall : ∀ other ∈ Record.reservedName :: Record.names Ancestor.objectMembers,
      '.' ∉ other.toList := by decide
  simp only [isInheritedName, Bool.or_eq_true, decide_eq_true_eq, Record.has_iff_mem_names] at h
  exact hall name (List.mem_cons.mpr h)

/-- Only a path of one step is reported under an inherited name: longer paths have a dot, and the
name for the input as a whole is not inherited. -/
theorem Issue.isInheritedName_key_iff (i : Issue) :
    Value.isInheritedName i.key = true ↔ i.IsUnderInherited := by
  unfold IsUnderInherited key
  cases i.path with
  | nil => simpa using show Value.isInheritedName "_root" = false by decide
  | cons first rest =>
      cases rest with
      | nil => simp
      | cons second rest =>
          refine iff_of_false (fun h => Value.isInheritedName_no_dot h ?_) (by simp)
          simp

/-! ## Grouping -/

theorem messagesUnder_append (issues : List Issue) (i : Issue) (key : String) :
    messagesUnder (issues ++ [i]) key =
      messagesUnder issues key ++ if i.key = key then [i.cause.message] else [] := by
  by_cases h : i.key = key <;> simp [messagesUnder, h]

namespace FieldErrors.Report

theorem empty : Report [] [] where
  nodup := List.nodup_nil
  mem_iff key messages := by simp [messagesUnder]

theorem get?_getD {errors : FieldErrors} {issues : List Issue} (h : errors.Report issues)
    (key : String) : (Record.get? errors key).getD [] = messagesUnder issues key := by
  cases hget : Record.get? errors key with
  | none =>
      cases hmessages : messagesUnder issues key with
      | nil => rfl
      | cons first rest =>
          have hmem := (h.mem_iff key _).mpr ⟨hmessages.symm, by simp⟩
          exact absurd (hget.symm.trans (Record.get?_of_mem h.nodup hmem)) (by simp)
  | some messages => exact ((h.mem_iff key messages).mp (Record.mem_of_get? hget)).1

/-- Adding the message of one more issue reports that issue too. -/
theorem snoc {errors : FieldErrors} {issues : List Issue} (h : errors.Report issues) (i : Issue) :
    Report (Record.set errors i.key
      ((Record.get? errors i.key).getD [] ++ [i.cause.message])) (issues ++ [i]) := by
  have hnodup := Record.nodup_names_set h.nodup i.key
    ((Record.get? errors i.key).getD [] ++ [i.cause.message])
  refine ⟨hnodup, fun key messages => ?_⟩
  rw [Record.mem_iff_get? hnodup, Record.get?_set, messagesUnder_append, h.get?_getD]
  -- only the messages under the name of the new issue change
  by_cases hkey : key = i.key
  · subst hkey
    simp only [if_true, Option.some.injEq]
    constructor
    · rintro rfl
      exact ⟨rfl, by simp⟩
    · exact fun hmessages => hmessages.1.symm
  · rw [if_neg hkey, if_neg (Ne.symm hkey), List.append_nil, ← Record.mem_iff_get? h.nodup]
    exact h.mem_iff key messages

end FieldErrors.Report

namespace FieldErrors

/-- Collecting further issues stops at an inherited name, or else reports all of them. -/
theorem foldlM_add_cases (issues seen : List Issue) {errors : FieldErrors}
    (h : errors.Report seen) :
    (issues.foldlM add errors = .error .inheritedName ∧ ∃ i ∈ issues, i.IsUnderInherited) ∨
      ∃ grouped, issues.foldlM add errors = .ok grouped ∧ grouped.Report (seen ++ issues) ∧
        ∀ i ∈ issues, ¬i.IsUnderInherited := by
  induction issues generalizing seen errors with
  | nil => exact .inr ⟨errors, rfl, by simpa using h, by simp⟩
  | cons i rest ih =>
      rw [List.foldlM_cons, add]
      by_cases hinherited : Value.isInheritedName i.key = true
      · rw [if_pos hinherited]
        exact .inl ⟨rfl, i, List.mem_cons_self, i.isInheritedName_key_iff.mp hinherited⟩
      · rw [if_neg hinherited]
        have hfree : ¬i.IsUnderInherited := fun hi =>
          hinherited (i.isInheritedName_key_iff.mpr hi)
        rcases ih (seen ++ [i]) (h.snoc i) with
          ⟨herror, j, hj, hunder⟩ | ⟨grouped, hok, hreport, hall⟩
        · exact .inl ⟨herror, j, List.mem_cons_of_mem _ hj, hunder⟩
        · refine .inr ⟨grouped, hok, by simpa using hreport, ?_⟩
          exact List.forall_mem_cons.mpr ⟨hfree, hall⟩

end FieldErrors

/-! ## Verdicts -/

/-- The verdict on an input says what the validator's check found. There is one exactly when the
check comes to a result and no issue stands directly under an inherited name; the input is accepted
exactly when there is no issue; and a rejection reports the issues. -/
structure Descriptor.Judges (d : Descriptor) (validator : Validator) (input : Value) : Prop where
  verdict : (∃ verdict, d.judge input = .ok verdict) ↔
    ∃ checked, validator.check input = .ok checked ∧ ∀ i ∈ checked.issues, ¬i.IsUnderInherited
  accepted : ∀ value, d.judge input = .ok (.accepted value) ↔
    validator.check input = .ok ⟨[], value⟩
  rejected : ∀ errors, d.judge input = .ok (.rejected errors) →
    ∃ checked, validator.check input = .ok checked ∧ checked.issues ≠ [] ∧
      errors.Report checked.issues

/-- What a verdict can be: none where the check fails or an issue stands under an inherited name,
the value where there is no issue, and else a report of the issues. -/
theorem Validator.judge_cases (validator : Validator) (input : Value) :
    (∃ failure, validator.check input = .error failure ∧
      validator.judge input = .error failure) ∨
    ∃ checked, validator.check input = .ok checked ∧
      ((checked.issues = [] ∧ validator.judge input = .ok (.accepted checked.value)) ∨
      (checked.issues ≠ [] ∧ (∃ i ∈ checked.issues, i.IsUnderInherited) ∧
        validator.judge input = .error .inheritedName) ∨
      (checked.issues ≠ [] ∧ (∀ i ∈ checked.issues, ¬i.IsUnderInherited) ∧
        ∃ errors, errors.Report checked.issues ∧
          validator.judge input = .ok (.rejected errors))) := by
  unfold judge
  cases hcheck : validator.check input with
  | error failure => exact .inl ⟨failure, rfl, rfl⟩
  | ok checked =>
      refine .inr ⟨checked, rfl, ?_⟩
      obtain ⟨issues, value⟩ := checked
      -- without issues nothing is collected
      cases issues with
      | nil => exact .inl ⟨rfl, rfl⟩
      | cons i rest =>
          right
          rcases FieldErrors.foldlM_add_cases (i :: rest) [] .empty with
            ⟨herror, hunder⟩ | ⟨errors, hok, hreport, hall⟩
          · refine .inl ⟨by simp, hunder, ?_⟩
            exact Outcome.bind_eq_error.mpr
              (.inr ⟨_, rfl, Outcome.bind_eq_error.mpr (.inl herror)⟩)
          · refine .inr ⟨by simp, hall, errors, hreport, ?_⟩
            exact Outcome.bind_eq_ok.mpr ⟨_, rfl, Outcome.bind_eq_ok.mpr ⟨errors, hok, rfl⟩⟩

namespace Validator

variable (validator : Validator) (input : Value)

theorem exists_judge_iff :
    (∃ verdict, validator.judge input = .ok verdict) ↔
      ∃ checked, validator.check input = .ok checked ∧
        ∀ i ∈ checked.issues, ¬i.IsUnderInherited := by
  rcases validator.judge_cases input with ⟨failure, hcheck, hjudge⟩ | ⟨checked, hcheck, hcases⟩
  · simp [hcheck, hjudge]
  · rcases hcases with ⟨hnil, hjudge⟩ | ⟨_, ⟨i, hi, hunder⟩, hjudge⟩ | ⟨_, hall, errors, _, hjudge⟩
    · simp [hcheck, hjudge, hnil]
    · refine iff_of_false (by simp [hjudge]) ?_
      rintro ⟨other, hother, hall⟩
      obtain rfl := Except.ok.inj (hcheck.symm.trans hother)
      exact hall i hi hunder
    · exact iff_of_true ⟨_, hjudge⟩ ⟨checked, hcheck, hall⟩

theorem judge_accepted_iff (value : Value) :
    validator.judge input = .ok (.accepted value) ↔ validator.check input = .ok ⟨[], value⟩ := by
  rcases validator.judge_cases input with ⟨failure, hcheck, hjudge⟩ | ⟨checked, hcheck, hcases⟩
  · simp [hcheck, hjudge]
  · obtain ⟨issues, taken⟩ := checked
    rcases hcases with ⟨rfl, hjudge⟩ | ⟨hne, _, hjudge⟩ | ⟨hne, _, errors, _, hjudge⟩
    · simp [hcheck, hjudge]
    · exact iff_of_false (by simp [hjudge]) (by rw [hcheck]; rintro ⟨⟩; exact hne rfl)
    · exact iff_of_false (by simp [hjudge]) (by rw [hcheck]; rintro ⟨⟩; exact hne rfl)

theorem judge_rejected (errors : FieldErrors)
    (h : validator.judge input = .ok (.rejected errors)) :
    ∃ checked, validator.check input = .ok checked ∧ checked.issues ≠ [] ∧
      errors.Report checked.issues := by
  rcases validator.judge_cases input with ⟨failure, _, hjudge⟩ | ⟨checked, hcheck, hcases⟩
  · exact absurd (hjudge.symm.trans h) (by simp)
  · rcases hcases with ⟨_, hjudge⟩ | ⟨_, _, hjudge⟩ | ⟨hne, _, grouped, hreport, hjudge⟩
    · exact absurd (hjudge.symm.trans h) (by simp)
    · exact absurd (hjudge.symm.trans h) (by simp)
    · obtain rfl : grouped = errors := by simpa using hjudge.symm.trans h
      exact ⟨checked, hcheck, hne, hreport⟩

end Validator

/-! ## Fields that no object lacks -/

/-- An object from which every inherited name reads a function. -/
def Value.allFunctions : Value :=
  .object false [(Record.reservedName, .function 0)]

theorem Value.isTame_allFunctions : allFunctions.IsTame := by
  intro bare members hinside
  cases hinside with
  | self => exact ⟨rfl, rfl⟩
  | member hmem hinside =>
      obtain ⟨-, rfl⟩ := Prod.mk.inj (List.mem_singleton.mp hmem)
      cases hinside

theorem Value.read_allFunctions {name : String} (h : isInheritedName name = true) :
    ∃ arity, allFunctions.read name = .function arity := by
  by_cases hreserved : name = Record.reservedName
  · exact ⟨0, by simp [read, allFunctions, ownEntries, Record.get?_cons, hreserved]⟩
  · simp only [isInheritedName, hreserved, decide_false, Bool.false_or] at h
    obtain ⟨value, hvalue⟩ := Option.isSome_iff_exists.mp h
    obtain ⟨named, _, heq⟩ := List.mem_map.mp (Record.mem_of_get? hvalue)
    obtain ⟨-, rfl⟩ := Prod.mk.inj heq
    refine ⟨named.2, ?_⟩
    simp [read, allFunctions, ownEntries, Record.get?_cons, hreserved, shared?, ancestor?,
      Ancestor.member?, Ancestor.ownMembers, hvalue]

namespace Validator

/-- No validator but the one that takes anything takes a function. -/
theorem check_function {validator : Validator} (hne : validator ≠ .anything) (arity : Nat) :
    ∃ checked, validator.check (.function arity) = .ok checked ∧
      ∃ i ∈ checked.issues, i.path = [] := by
  cases validator with
  | text checks =>
      have htame : (Value.function arity).IsTame := Value.isTame_of_isLeaf rfl
      obtain ⟨causes, hcauses⟩ := checks.measure_ok htame
      rw [check, TextChecks.check, hcauses]
      exact ⟨_, rfl, _, List.mem_cons_self, rfl⟩
  | boolean =>
      rw [check]
      · exact ⟨_, rfl, _, List.mem_cons_self, rfl⟩
      · simp
  | list item =>
      rw [check]
      · exact ⟨_, rfl, _, List.mem_cons_self, rfl⟩
      · simp
  | anything => exact absurd rfl hne
  | _ =>
      rw [check]
      exact ⟨_, rfl, _, List.mem_cons_self, rfl⟩

theorem ofType_ne_anything {type : RuleType} {c : Constraints} {map item : Outcome Validator}
    {validator : Validator} (hmap : map ≠ .ok .anything)
    (h : ofType type c map item = .ok validator) : validator ≠ .anything := by
  rintro rfl
  cases type with
  | string =>
      unfold ofType at h
      dsimp only at h
      split at h
      next => cases h
      next =>
        obtain ⟨checks, _, h⟩ := Outcome.bind_eq_ok.mp h
        cases h
  | array =>
      obtain ⟨inner, _, h⟩ := Outcome.bind_eq_ok.mp h
      cases h
  | map => exact hmap h
  | _ => cases h

theorem ofRule_ne_anything {rule : Rule} {validator : Validator}
    (h : ofRule rule = .ok validator) : validator ≠ .anything := by
  cases rule with
  | fields head inner =>
      rw [ofRule] at h
      refine ofType_ne_anything (fun hmap => ?_) h
      rw [ofRules] at hmap
      -- rules make an object, whatever they are
      obtain ⟨fields, _, hmap⟩ := Outcome.bind_eq_ok.mp hmap
      cases hmap
  | _ =>
      rw [ofRule] at h
      exact ofType_ne_anything (by simp) h

/-- The fields of a descriptor's validator: one for each name, and none that takes anything. -/
theorem ofFields_spec {rules : List Rule} {fields : List (String × Presence × Validator)}
    (h : ofFields rules = .ok fields) :
    Record.names fields = Descriptor.names rules ∧ ∀ field ∈ fields, field.2.2 ≠ .anything := by
  induction rules generalizing fields with
  | nil =>
      rw [ofFields] at h
      obtain rfl := Except.ok.inj h
      exact ⟨rfl, by simp⟩
  | cons rule rest ih =>
      rw [ofFields] at h
      obtain ⟨first, hfirst, h⟩ := Outcome.bind_eq_ok.mp h
      obtain ⟨others, hothers, h⟩ := Outcome.bind_eq_ok.mp h
      obtain rfl := Outcome.pure_eq_ok.mp h
      obtain ⟨hnames, hstrict⟩ := ih hothers
      refine ⟨congrArg (rule.name :: ·) hnames, List.forall_mem_cons.mpr ⟨?_, hstrict⟩⟩
      exact ofRule_ne_anything hfirst

/-- A field of an inherited name reads a function from the object of functions, and its issue stands
under that name. -/
theorem check_allFunctions {fields : List (String × Presence × Validator)}
    (hstrict : ∀ field ∈ fields, field.2.2 ≠ .anything) {name : String}
    (hname : name ∈ Record.names fields) (hinherited : Value.isInheritedName name = true) :
    ∃ checked, (Validator.object fields).check Value.allFunctions = .ok checked ∧
      ∃ i ∈ checked.issues, i.IsUnderInherited := by
  obtain ⟨⟨field, presence, validator⟩, hmem, rfl⟩ := List.mem_map.mp hname
  obtain ⟨arity, hread⟩ := Value.read_allFunctions hinherited
  obtain ⟨inner, hinner, i, hi, hpath⟩ := check_function (hstrict _ hmem) arity
  have hpresence : presence.check validator.check (Value.allFunctions.read field) = .ok inner := by
    rw [hread]
    exact hinner
  -- the other fields are checked to the end as well
  obtain ⟨found, hfound⟩ := checkFields_ok fields Value.isTame_allFunctions rfl
  have hissue : i.within field ∈ found.issues :=
    (mem_issues_checkFields hfound).mpr
      ⟨field, presence, validator, inner, i, hmem, hpresence, hi, rfl⟩
  refine ⟨⟨found.issues, .object false found.members⟩, ?_, i.within field, hissue, ?_⟩
  · rw [check, hfound]
    rfl
  · exact ⟨field, congrArg (field :: ·) hpath, hinherited⟩

end Validator

namespace Descriptor

theorem validator_fields {d : Descriptor} {validator : Validator}
    (h : d.validator = .ok validator) :
    ∃ fields, validator = .object fields ∧
      (∀ name, name ∈ Record.names fields ↔ name ∈ d.names) ∧
      ∀ field ∈ fields, field.2.2 ≠ .anything := by
  rw [Descriptor.validator, Validator.ofRules] at h
  obtain ⟨fields, hfields, h⟩ := Outcome.bind_eq_ok.mp h
  obtain rfl := Outcome.pure_eq_ok.mp h
  obtain ⟨hnames, hstrict⟩ := Validator.ofFields_spec hfields
  refine ⟨Record.ofList fields, rfl, fun name => ?_, fun field hfield => ?_⟩
  · rw [Record.mem_names_ofList, hnames]
  · exact hstrict field (Record.mem_of_mem_ofList hfield)

theorem judge_eq {d : Descriptor} {validator : Validator} (h : d.validator = .ok validator)
    (input : Value) : d.judge input = validator.judge input := by
  rw [judge, h]
  rfl

/-- Every issue under an inherited name belongs to a field of that name. -/
theorem exists_inherited_name {d : Descriptor} {validator : Validator}
    (h : d.validator = .ok validator) {input : Value} {checked : Checked}
    (hcheck : validator.check input = .ok checked) {i : Issue} (hi : i ∈ checked.issues)
    (hunder : i.IsUnderInherited) : ∃ name ∈ d.names, Value.isInheritedName name = true := by
  obtain ⟨fields, rfl, hnames, _⟩ := validator_fields h
  obtain ⟨name, hpath, hinherited⟩ := hunder
  rw [Validator.check] at hcheck
  split at hcheck
  next =>
    obtain ⟨found, hfound, hcheck⟩ := Outcome.bind_eq_ok.mp hcheck
    obtain rfl := Outcome.pure_eq_ok.mp hcheck
    obtain ⟨other, presence, inner, _, _, hmem, _, _, rfl⟩ :=
      (Validator.mem_issues_checkFields hfound).mp hi
    obtain ⟨rfl, -⟩ := List.cons.inj hpath
    exact ⟨other, (hnames other).mp (List.mem_map_of_mem hmem), hinherited⟩
  next =>
    -- the input is no object, so its one issue has no path
    obtain ⟨received, _, hcheck⟩ := Outcome.bind_eq_ok.mp hcheck
    obtain rfl := Outcome.pure_eq_ok.mp hcheck
    obtain rfl := List.mem_singleton.mp hi
    cases hpath

/-- Inputs in which no object states a constructor or a length itself all have a verdict exactly
when no field has an inherited name. -/
theorem judge_tame_iff {d : Descriptor} {validator : Validator}
    (h : d.validator = .ok validator) :
    (∀ input, input.IsTame → ∃ verdict, d.judge input = .ok verdict) ↔
      ∀ name ∈ d.names, Value.isInheritedName name = false := by
  constructor
  · intro hall name hname
    obtain ⟨fields, rfl, hnames, hstrict⟩ := validator_fields h
    rw [Bool.eq_false_iff]
    intro hinherited
    obtain ⟨checked, hcheck, i, hi, hunder⟩ :=
      Validator.check_allFunctions hstrict ((hnames name).mpr hname) hinherited
    have hverdict := hall Value.allFunctions Value.isTame_allFunctions
    rw [judge_eq h, Validator.exists_judge_iff] at hverdict
    obtain ⟨other, hother, hfree⟩ := hverdict
    obtain rfl := Except.ok.inj (hcheck.symm.trans hother)
    exact hfree i hi hunder
  · intro hnames input htame
    obtain ⟨checked, hcheck⟩ := validator.check_ok htame
    rw [judge_eq h, Validator.exists_judge_iff]
    refine ⟨checked, hcheck, fun i hi hunder => ?_⟩
    obtain ⟨name, hname, hinherited⟩ := exists_inherited_name h hcheck hi hunder
    exact absurd hinherited (by simp [hnames name hname])

/-- For every input, a descriptor's verdict is what its validator's check found. The inputs in which
no object states a constructor or a length itself all have a verdict exactly when no field has an
inherited name. -/
theorem judge_verdicts (d : Descriptor) {validator : Validator}
    (h : d.validator = .ok validator) :
    (∀ input, d.Judges validator input) ∧
      ((∀ input, input.IsTame → ∃ verdict, d.judge input = .ok verdict) ↔
        ∀ name ∈ d.names, Value.isInheritedName name = false) := by
  refine ⟨fun input => ?_, judge_tame_iff h⟩
  constructor <;> rw [judge_eq h]
  case verdict => exact validator.exists_judge_iff input
  case accepted => exact validator.judge_accepted_iff input
  case rejected => exact validator.judge_rejected input

/-- Declarations of a single required text. -/
def requiredText (name : String) : Value :=
  .list [.list [.text "required", .text name, .text "string"]]

/-- The statement above applies to a schema with a title. -/
theorem judge_verdicts_title :
    ∃ s validator, Schema.compile "Book" (requiredText "title") Schema.alone = .ok (s, []) ∧
      s.descriptor.validator = .ok validator ∧
      (∀ input, s.descriptor.Judges validator input) ∧
        ((∀ input, input.IsTame → ∃ verdict, s.descriptor.judge input = .ok verdict) ↔
          ∀ name ∈ s.descriptor.names, Value.isInheritedName name = false) := by
  refine ⟨_, .object [("title", ⟨true, false, none⟩, .text {})], rfl, ?_, judge_verdicts _ ?_⟩ <;>
    cbv

/-- A schema may have a field that is named as the constructor of every object. A flag there is
found to be no text, and yet there is no verdict. -/
theorem judge_constructor_without_verdict :
    ∃ s validator, Schema.compile "Site" (requiredText "constructor") Schema.alone = .ok (s, []) ∧
      s.descriptor.validator = .ok validator ∧
      validator.check (.object false [("constructor", .bool true)]) =
        .ok ⟨[⟨["constructor"], .wrongType .string "boolean"⟩],
          .object false [("constructor", .bool true)]⟩ ∧
      s.descriptor.judge (.object false [("constructor", .bool true)]) = .error .inheritedName := by
  refine ⟨_, .object [("constructor", ⟨true, false, none⟩, .text {})], rfl, ?_, ?_, ?_⟩
  · cbv
  · cbv
  · cbv

end Descriptor

end FieldSchema
