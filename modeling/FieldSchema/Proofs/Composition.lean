import FieldSchema.Proofs.JoinedVerdicts

/-!
# Validation by parts

Validation is compositional. The verdict of a descriptor on an object joins the verdicts of its
single rules, in whatever order the rules stand. The verdict of a rule with rules inside is the
verdict of these rules on the value, or on the elements of the value, seen from outside. No rule
hides what another one finds.
-/

namespace FieldSchema

/-- The verdict on an input is put together from the verdicts of single rules. There is one exactly
when there is one of every rule, and rules that stand in another order come to the same. -/
structure Descriptor.ComposesOn (d : Descriptor) (input : Value) : Prop where
  exists_iff : (∃ verdict, d.judge input = .ok verdict) ↔
    ∀ rule ∈ d, ∃ verdict, Descriptor.judge [rule] input = .ok verdict
  joins : ∀ verdict, d.judge input = .ok verdict →
    ∃ parts, List.Forall₂ (fun rule part => Descriptor.judge [rule] input = .ok part) d parts ∧
      verdict.Joins parts
  reordered : ∀ others : Descriptor, others.Perm d → ∀ verdict, d.judge input = .ok verdict →
    ∃ other, others.judge input = .ok other ∧ other.Joins [verdict]

/-- What a rule with rules inside finds in an input is what these find in the value that the input
holds, with longer names. -/
structure RuleHead.TellsInside (head : RuleHead) (inner : Descriptor) (input v : Value) : Prop where
  fails : ∀ failure, Descriptor.judge [.fields head inner] input = .error failure ↔
    inner.judge v = .error failure
  accepted : ∀ taken,
    Descriptor.judge [.fields head inner] input =
        .ok (.accepted (.object false [(head.name, taken)])) ↔
      inner.judge v = .ok (.accepted taken)
  rejected : ∀ errors, inner.judge v = .ok (.rejected errors) →
    ∃ outer, Descriptor.judge [.fields head inner] input = .ok (.rejected outer) ∧
      outer.Perm (errors.placed head.name v)

/-- The errors of verdicts on items, reported from outside, where the list stands at a path. -/
def Verdict.placedErrors (path : String) (position : Nat) : List Value → List Verdict →
    List FieldErrors
  | item :: items, verdict :: verdicts =>
      verdict.errors.placed (path ++ "." ++ toString position) item ::
        placedErrors path (position + 1) items verdicts
  | _, _ => []

/-- A verdict on an object that holds a list joins verdicts on the items. -/
inductive Verdict.JoinsItems (path : String) (items : List Value) : Verdict → List Verdict → Prop
  | accepted (values : List Value) :
      JoinsItems path items (.accepted (.object false [(path, .list values)]))
        (values.map .accepted)
  | rejected {errors : FieldErrors} {verdicts : List Verdict}
      (exists_rejected : ∃ part, .rejected part ∈ verdicts)
      (joins : errors.Joins (placedErrors path 0 items verdicts)) :
      JoinsItems path items (.rejected errors) verdicts

/-- What a rule for elements with rules inside finds in an input is what these find in the elements
of the list that the input holds, with longer names. -/
structure RuleHead.TellsOfItems (head : RuleHead) (inner : Descriptor) (input : Value)
    (items : List Value) : Prop where
  exists_iff : (∃ verdict, Descriptor.judge [.itemFields head inner] input = .ok verdict) ↔
    (∃ validator, inner.validator = .ok validator) ∧
      ∀ item ∈ items, ∃ verdict, inner.judge item = .ok verdict
  joins : ∀ verdict, Descriptor.judge [.itemFields head inner] input = .ok verdict →
    ∃ parts, List.Forall₂ (fun item part => inner.judge item = .ok part) items parts ∧
      verdict.JoinsItems head.name items parts

/-! ## Fields one by one -/

theorem exists_forall₂_iff {α β : Type} {R : α → β → Prop} {as : List α} :
    (∃ bs, List.Forall₂ R as bs) ↔ ∀ a ∈ as, ∃ b, R a b := by
  induction as with
  | nil => exact iff_of_true ⟨[], .nil⟩ (by simp)
  | cons a as ih =>
      rw [List.forall_mem_cons, ← ih]
      constructor
      · rintro ⟨_, _ | ⟨hab, hrest⟩⟩
        exact ⟨⟨_, hab⟩, _, hrest⟩
      · rintro ⟨⟨b, hab⟩, bs, hrest⟩
        exact ⟨b :: bs, .cons hab hrest⟩

namespace Validator

variable {fields : List (String × Presence × Validator)} {v : Value}

theorem checkFields_cons_eq_ok {field : String × Presence × Validator} {checked : CheckedFields} :
    checkFields (field :: fields) v = .ok checked ↔
      ∃ part others, checkFields [field] v = .ok part ∧ checkFields fields v = .ok others ∧
        ⟨part.issues ++ others.issues, part.members ++ others.members⟩ = checked := by
  obtain ⟨name, presence, validator⟩ := field
  simp only [checkFields, Outcome.bind_eq_ok, Outcome.pure_eq_ok]
  constructor
  · rintro ⟨first, hfirst, others, hothers, rfl⟩
    refine ⟨_, others, ⟨first, hfirst, {}, rfl, rfl⟩, hothers, ?_⟩
    split <;> simp
  · rintro ⟨part, others, ⟨first, hfirst, _, hnone, rfl⟩, hothers, rfl⟩
    obtain rfl := Except.ok.inj hnone
    refine ⟨first, hfirst, others, hothers, ?_⟩
    split <;> simp

/-- Fields are checked one by one. -/
theorem checkFields_eq_ok {checked : CheckedFields} :
    checkFields fields v = .ok checked ↔
      ∃ each, List.Forall₂ (fun field part => checkFields [field] v = .ok part) fields each ∧
        checked.issues = (each.map CheckedFields.issues).flatten ∧
        checked.members = (each.map CheckedFields.members).flatten := by
  induction fields generalizing checked with
  | nil =>
      rw [checkFields]
      constructor
      · intro h
        obtain rfl := Except.ok.inj h
        exact ⟨[], .nil, rfl, rfl⟩
      · rintro ⟨_, _ | _, hissues, hmembers⟩
        obtain ⟨issues, members⟩ := checked
        obtain rfl : issues = [] := hissues
        obtain rfl : members = [] := hmembers
        rfl
  | cons field rest ih =>
      rw [checkFields_cons_eq_ok]
      constructor
      · rintro ⟨part, others, hpart, hothers, rfl⟩
        obtain ⟨each, heach, hissues, hmembers⟩ := ih.mp hothers
        exact ⟨part :: each, .cons hpart heach, by simp [hissues], by simp [hmembers]⟩
      · rintro ⟨_, _ | @⟨_, part, _, each, hpart, heach⟩, hissues, hmembers⟩
        refine ⟨part, ⟨(each.map CheckedFields.issues).flatten,
          (each.map CheckedFields.members).flatten⟩, hpart, ih.mpr ⟨each, heach, rfl, rfl⟩, ?_⟩
        obtain ⟨issues, members⟩ := checked
        obtain rfl := hissues
        obtain rfl := hmembers
        rfl

theorem names_checkFields {checked : CheckedFields} (h : checkFields fields v = .ok checked) :
    (Record.names checked.members).Sublist (Record.names fields) := by
  induction fields generalizing checked with
  | nil =>
      rw [checkFields] at h
      obtain rfl := Except.ok.inj h
      exact .slnil
  | cons field rest ih =>
      obtain ⟨name, presence, validator⟩ := field
      rw [checkFields] at h
      obtain ⟨first, _, h⟩ := Outcome.bind_eq_ok.mp h
      obtain ⟨others, hothers, h⟩ := Outcome.bind_eq_ok.mp h
      obtain rfl := Outcome.pure_eq_ok.mp h
      dsimp only
      split
      next => exact (ih hothers).cons name
      next => exact (ih hothers).cons_cons name

/-- An object of any kind is checked by its fields. -/
theorem check_object_eq_ok (hkeyed : v.isKeyed = true) {checked : Checked} :
    (Validator.object fields).check v = .ok checked ↔
      ∃ found, checkFields fields v = .ok found ∧ found.asObject = checked := by
  rw [check, if_pos hkeyed, Outcome.bind_eq_ok]
  exact exists_congr fun found => and_congr_right fun _ => Outcome.pure_eq_ok

theorem exists_judge_object_iff (hkeyed : v.isKeyed = true) :
    (∃ verdict, (Validator.object fields).judge v = .ok verdict) ↔
      ∃ found, checkFields fields v = .ok found ∧ ∀ i ∈ found.issues, ¬i.IsUnderInherited := by
  rw [exists_judge_iff]
  constructor
  · rintro ⟨checked, hcheck, hfree⟩
    obtain ⟨found, hfound, rfl⟩ := (check_object_eq_ok hkeyed).mp hcheck
    exact ⟨found, hfound, hfree⟩
  · rintro ⟨found, hfound, hfree⟩
    exact ⟨found.asObject, (check_object_eq_ok hkeyed).mpr ⟨found, hfound, rfl⟩, hfree⟩

/-- There is a verdict on an object exactly when there is one by each single field. -/
theorem exists_judge_object_iff_each (hkeyed : v.isKeyed = true) :
    (∃ verdict, (Validator.object fields).judge v = .ok verdict) ↔
      ∀ field ∈ fields, ∃ verdict, (Validator.object [field]).judge v = .ok verdict := by
  have hsingle (field : String × Presence × Validator) :
      (∃ verdict, (Validator.object [field]).judge v = .ok verdict) ↔
        ∃ part, checkFields [field] v = .ok part ∧ ∀ i ∈ part.issues, ¬i.IsUnderInherited :=
    exists_judge_object_iff hkeyed
  rw [exists_judge_object_iff hkeyed]
  simp only [hsingle]
  clear hsingle
  induction fields with
  | nil => exact iff_of_true ⟨{}, by rw [checkFields], by simp⟩ (by simp)
  | cons field rest ih =>
      rw [List.forall_mem_cons]
      constructor
      · rintro ⟨found, hfound, hfree⟩
        obtain ⟨part, others, hpart, hothers, rfl⟩ := checkFields_cons_eq_ok.mp hfound
        obtain ⟨hfirst, hrest⟩ := List.forall_mem_append.mp hfree
        exact ⟨⟨part, hpart, hfirst⟩, ih.mp ⟨others, hothers, hrest⟩⟩
      · rintro ⟨⟨part, hpart, hfirst⟩, hall⟩
        obtain ⟨others, hothers, hrest⟩ := ih.mpr hall
        refine ⟨_, checkFields_cons_eq_ok.mpr ⟨part, others, hpart, hothers, rfl⟩, ?_⟩
        exact List.forall_mem_append.mpr ⟨hfirst, hrest⟩

/-- Single fields have verdicts that tell what they found, as long as nothing that they found stands
under an inherited name. -/
theorem exists_each_tells (hkeyed : v.isKeyed = true) {each : List CheckedFields}
    (heach : List.Forall₂ (fun field part => checkFields [field] v = .ok part) fields each)
    (hfree : ∀ i ∈ (each.map CheckedFields.issues).flatten, ¬i.IsUnderInherited) :
    ∃ parts, List.Forall₂ (fun field part => (Validator.object [field]).judge v = .ok part) fields
        parts ∧ List.Forall₂ Verdict.Tells parts (each.map CheckedFields.asObject) := by
  induction heach with
  | nil => exact ⟨[], .nil, .nil⟩
  | @cons field part fields each hpart _ ih =>
      rw [List.map_cons, List.flatten_cons, List.forall_mem_append] at hfree
      obtain ⟨parts, hjudges, htell⟩ := ih hfree.2
      have hcheck := (check_object_eq_ok hkeyed).mpr ⟨part, hpart, rfl⟩
      obtain ⟨verdict, hverdict, htells⟩ := exists_tells hcheck hfree.1
      exact ⟨verdict :: parts, .cons hverdict hjudges, .cons htells htell⟩

/-- What the checks of fields in one order found is what they find in another order. -/
theorem exists_each_of_perm {others : List (String × Presence × Validator)}
    (hperm : others.Perm fields) {found : CheckedFields}
    (hfound : checkFields fields v = .ok found) :
    ∃ each, List.Forall₂ (fun field part => checkFields [field] v = .ok part) others each ∧
      found.issues.Perm (each.map CheckedFields.issues).flatten ∧
      found.members.Perm (each.map CheckedFields.members).flatten := by
  obtain ⟨each, heach, hissues, hmembers⟩ := checkFields_eq_ok.mp hfound
  obtain ⟨arranged, harranged, hsame⟩ := List.perm_comp_forall₂ hperm heach
  refine ⟨arranged, harranged, ?_, ?_⟩
  · rw [hissues]
    exact (hsame.symm.map _).flatten
  · rw [hmembers]
    exact (hsame.symm.map _).flatten

theorem tells_of_judge_object (hkeyed : v.isKeyed = true) {verdict : Verdict}
    (h : (Validator.object fields).judge v = .ok verdict) :
    ∃ found, checkFields fields v = .ok found ∧ (∀ i ∈ found.issues, ¬i.IsUnderInherited) ∧
      verdict.Tells found.asObject := by
  obtain ⟨found, hfound, hfree⟩ := (exists_judge_object_iff hkeyed).mp ⟨verdict, h⟩
  obtain ⟨checked, hcheck, htells⟩ := tells_of_judge h
  have hobject := (check_object_eq_ok hkeyed).mpr ⟨found, hfound, rfl⟩
  obtain rfl := Except.ok.inj (hcheck.symm.trans hobject)
  exact ⟨found, hfound, hfree, htells⟩

section Reordered

variable {others : List (String × Presence × Validator)} {verdict : Verdict}

/-- The verdict on an object joins those by its single fields, in whatever order these are taken. -/
theorem judge_object_joins (hkeyed : v.isKeyed = true) (hperm : others.Perm fields)
    (hnodup : (Record.names fields).Nodup)
    (h : (Validator.object fields).judge v = .ok verdict) :
    ∃ parts, List.Forall₂ (fun field part => (Validator.object [field]).judge v = .ok part) others
        parts ∧ verdict.Joins parts := by
  obtain ⟨found, hfound, hfree, htells⟩ := tells_of_judge_object hkeyed h
  obtain ⟨each, heach, hissues, hmembers⟩ := exists_each_of_perm hperm hfound
  obtain ⟨parts, hparts, htell⟩ :=
    exists_each_tells hkeyed heach fun i hi => hfree i (hissues.mem_iff.mpr hi)
  refine ⟨parts, hparts, htells.joins htell hissues hmembers ?_⟩
  exact (names_checkFields hfound).nodup hnodup

/-- Fields in another order come to the same verdict. -/
theorem judge_object_reordered (hkeyed : v.isKeyed = true) (hperm : others.Perm fields)
    (hnodup : (Record.names fields).Nodup)
    (h : (Validator.object fields).judge v = .ok verdict) :
    ∃ other, (Validator.object others).judge v = .ok other ∧ other.Joins [verdict] := by
  obtain ⟨found, hfound, hfree, htells⟩ := tells_of_judge_object hkeyed h
  obtain ⟨each, heach, hissues, hmembers⟩ := exists_each_of_perm hperm hfound
  have harranged : checkFields others v = .ok ⟨(each.map CheckedFields.issues).flatten,
      (each.map CheckedFields.members).flatten⟩ := checkFields_eq_ok.mpr ⟨each, heach, rfl, rfl⟩
  have hobject := (check_object_eq_ok hkeyed).mpr ⟨_, harranged, rfl⟩
  obtain ⟨other, hjudge, hotherTells⟩ := exists_tells hobject
    fun i hi => hfree i (hissues.mem_iff.mpr hi)
  have hone : List.Forall₂ Verdict.Tells [verdict] ([found].map CheckedFields.asObject) :=
    .cons htells .nil
  refine ⟨other, hjudge, hotherTells.joins hone ?_ ?_ ?_⟩
  · simpa using hissues.symm
  · simpa using hmembers.symm
  · have hnames := (hperm.map Prod.fst).symm.nodup hnodup
    exact (names_checkFields harranged).nodup hnames

end Reordered

end Validator

/-! ## Rules one by one -/

/-- A rule makes a field of the validator that its descriptor has. -/
def Rule.MakesField (rule : Rule) (field : String × Presence × Validator) : Prop :=
  ∃ validator, Validator.ofRule rule = .ok validator ∧
    field = (rule.name, Presence.ofHead rule.head, validator)

theorem Validator.ofFields_eq_ok {rules : List Rule}
    {fields : List (String × Presence × Validator)} :
    ofFields rules = .ok fields ↔ List.Forall₂ Rule.MakesField rules fields := by
  induction rules generalizing fields with
  | nil =>
      rw [ofFields]
      constructor
      · intro h
        obtain rfl := Except.ok.inj h
        exact .nil
      · rintro (_ | _)
        rfl
  | cons rule rest ih =>
      rw [ofFields, Outcome.bind_eq_ok]
      constructor
      · rintro ⟨validator, hvalidator, h⟩
        obtain ⟨others, hothers, h⟩ := Outcome.bind_eq_ok.mp h
        obtain rfl := Outcome.pure_eq_ok.mp h
        exact .cons ⟨validator, hvalidator, rfl⟩ (ih.mp hothers)
      · rintro (_ | ⟨⟨validator, hvalidator, rfl⟩, hothers⟩)
        exact ⟨validator, hvalidator, Outcome.bind_eq_ok.mpr ⟨_, ih.mpr hothers, rfl⟩⟩

theorem Rule.names_of_makeFields {rules : List Rule}
    {fields : List (String × Presence × Validator)}
    (h : List.Forall₂ Rule.MakesField rules fields) :
    Record.names fields = Descriptor.names rules :=
  (Validator.ofFields_spec (Validator.ofFields_eq_ok.mpr h)).1

namespace Descriptor

variable {d : Descriptor} {input : Value} {verdict : Verdict}

/-- A verdict of a descriptor is one of the object whose fields its rules make. -/
theorem judge_eq_ok_iff : d.judge input = .ok verdict ↔
    ∃ fields, List.Forall₂ Rule.MakesField d fields ∧
      (Validator.object (Record.ofList fields)).judge input = .ok verdict := by
  simp only [judge, validator, Validator.ofRules, Outcome.bind_eq_ok]
  constructor
  · rintro ⟨validator, hvalidator, h⟩
    obtain ⟨fields, hfields, hvalidator⟩ := hvalidator
    obtain rfl := Outcome.pure_eq_ok.mp hvalidator
    exact ⟨fields, Validator.ofFields_eq_ok.mp hfields, h⟩
  · rintro ⟨fields, hfields, h⟩
    exact ⟨_, ⟨fields, Validator.ofFields_eq_ok.mpr hfields, rfl⟩, h⟩

/-- A single rule is judged by the one field that it makes. -/
theorem judge_rule_eq (rule : Rule) (input : Value) : judge [rule] input = (do
    let validator ← Validator.ofRule rule
    (Validator.object [(rule.name, Presence.ofHead rule.head, validator)]).judge input) := by
  rw [judge, validator, Validator.ofRules, Validator.ofFields, Validator.ofFields]
  cases Validator.ofRule rule with
  | error failure => rfl
  | ok validator =>
      have hone : Record.ofList [(rule.name, Presence.ofHead rule.head, validator)] =
          [(rule.name, Presence.ofHead rule.head, validator)] := Record.set_nil _ _
      change (Validator.object (Record.ofList _)).judge input = _
      rw [hone]
      rfl

theorem judge_rule_eq_ok_iff {rule : Rule} : judge [rule] input = .ok verdict ↔
    ∃ field, rule.MakesField field ∧ (Validator.object [field]).judge input = .ok verdict := by
  rw [judge_rule_eq, Outcome.bind_eq_ok]
  constructor
  · rintro ⟨validator, hvalidator, h⟩
    exact ⟨_, ⟨validator, hvalidator, rfl⟩, h⟩
  · rintro ⟨_, ⟨validator, hvalidator, rfl⟩, h⟩
    exact ⟨validator, hvalidator, h⟩

theorem forall₂_judge_rule {fields : List (String × Presence × Validator)} {parts : List Verdict}
    (hfields : List.Forall₂ Rule.MakesField d fields)
    (hparts : List.Forall₂ (fun field part => (Validator.object [field]).judge input = .ok part)
      fields parts) : List.Forall₂ (fun rule part => judge [rule] input = .ok part) d parts := by
  induction hfields generalizing parts with
  | nil =>
      cases hparts
      exact .nil
  | cons hfield _ ih =>
      cases hparts with
      | cons hpart hrest => exact .cons (judge_rule_eq_ok_iff.mpr ⟨_, hfield, hpart⟩) (ih hrest)

section Composition

variable (hnodup : d.names.Nodup)

include hnodup

theorem nodup_names_of_makeFields {rules : Descriptor}
    {fields : List (String × Presence × Validator)} (hperm : rules.Perm d)
    (hfields : List.Forall₂ Rule.MakesField rules fields) : (Record.names fields).Nodup := by
  rw [Rule.names_of_makeFields hfields]
  exact (hperm.map Rule.name).symm.nodup hnodup

variable (hkeyed : input.isKeyed = true)

include hkeyed

/-- A verdict joins those of the single rules. -/
theorem exists_judge_rules {verdict : Verdict} (h : d.judge input = .ok verdict) :
    ∃ parts, List.Forall₂ (fun rule part => judge [rule] input = .ok part) d parts ∧
      verdict.Joins parts := by
  obtain ⟨fields, hfields, hjudge⟩ := judge_eq_ok_iff.mp h
  have hdistinct := nodup_names_of_makeFields hnodup (.refl d) hfields
  have hperm := Record.ofList_perm hdistinct
  have hnames := (hperm.map Prod.fst).symm.nodup hdistinct
  obtain ⟨parts, hparts, hjoins⟩ := Validator.judge_object_joins hkeyed hperm.symm hnames hjudge
  exact ⟨parts, forall₂_judge_rule hfields hparts, hjoins⟩

/-- Where every single rule comes to a verdict, so do all of them. -/
theorem exists_judge_of_rules (h : ∀ rule ∈ d, ∃ verdict, judge [rule] input = .ok verdict) :
    ∃ verdict, d.judge input = .ok verdict := by
  have heach : ∀ rule ∈ d, ∃ field, rule.MakesField field ∧
      ∃ verdict, (Validator.object [field]).judge input = .ok verdict := by
    intro rule hrule
    obtain ⟨verdict, hverdict⟩ := h rule hrule
    obtain ⟨field, hfield, hjudge⟩ := judge_rule_eq_ok_iff.mp hverdict
    exact ⟨field, hfield, verdict, hjudge⟩
  obtain ⟨fields, hfields⟩ := exists_forall₂_iff.mpr heach
  have hmake : List.Forall₂ Rule.MakesField d fields := hfields.imp fun _ _ hfield => hfield.1
  have hperm := Record.ofList_perm (nodup_names_of_makeFields hnodup (.refl d) hmake)
  obtain ⟨verdict, hverdict⟩ := (Validator.exists_judge_object_iff_each hkeyed).mpr
    fun field hfield => by
      have hback := exists_forall₂_iff.mp ⟨d, hfields.flip⟩
      obtain ⟨rule, _, hjudge⟩ := hback field (hperm.mem_iff.mp hfield)
      exact hjudge
  exact ⟨verdict, judge_eq_ok_iff.mpr ⟨fields, hmake, hverdict⟩⟩

/-- Rules in another order come to the same verdict. -/
theorem exists_judge_reordered {others : Descriptor} (hothers : others.Perm d) {verdict : Verdict}
    (h : d.judge input = .ok verdict) :
    ∃ other, others.judge input = .ok other ∧ other.Joins [verdict] := by
  obtain ⟨fields, hfields, hjudge⟩ := judge_eq_ok_iff.mp h
  obtain ⟨arranged, harranged, hsame⟩ := List.perm_comp_forall₂ hothers hfields
  have hdistinct := nodup_names_of_makeFields hnodup (.refl d) hfields
  have hperm := Record.ofList_perm hdistinct
  have hotherPerm := Record.ofList_perm (nodup_names_of_makeFields hnodup hothers harranged)
  have hnames := (hperm.map Prod.fst).symm.nodup hdistinct
  obtain ⟨other, hother, hjoins⟩ := Validator.judge_object_reordered hkeyed
    (hotherPerm.trans (hsame.trans hperm.symm)) hnames hjudge
  exact ⟨other, judge_eq_ok_iff.mpr ⟨arranged, harranged, hother⟩, hjoins⟩

/-- The verdict of rules of distinct names on an object of any kind is put together from theirs. -/
theorem composesOn : d.ComposesOn input where
  exists_iff := by
    constructor
    · rintro ⟨verdict, h⟩
      obtain ⟨parts, hparts, _⟩ := exists_judge_rules hnodup hkeyed h
      exact exists_forall₂_iff.mp ⟨parts, hparts⟩
    · exact exists_judge_of_rules hnodup hkeyed
  joins _ h := exists_judge_rules hnodup hkeyed h
  reordered _ hothers _ h := exists_judge_reordered hnodup hkeyed hothers h

end Composition

end Descriptor

/-! ## Rules inside -/

namespace Validator

/-- An object with one field is checked by the value that the object gives it, if this is there. -/
theorem check_single {name : String} {presence : Presence} {validator : Validator} {bare : Bool}
    {members : Record Value} {v : Value} (hname : Value.isInheritedName name = false)
    (hvalue : Record.get? members name = some v) (hpresent : v.isNullish = false) :
    (Validator.object [(name, presence, validator)]).check (.object bare members) = (do
      let first ← validator.check v
      return ⟨first.issues.map (Issue.within name), .object false [(name, first.value)]⟩) := by
  have hreserved : name ≠ Record.reservedName := by
    rintro rfl
    cases hname
  have hown : Record.has members name = true := by rw [Record.has, hvalue]; rfl
  have hkeyed : (Value.object bare members).isKeyed = true := rfl
  rw [check, if_pos hkeyed, checkFields, Value.read_object_of_get? hvalue,
    Presence.check_of_present hpresent, checkFields]
  cases validator.check v with
  | error failure => rfl
  | ok first => simp [bind, Except.bind, pure, Except.pure, hreserved, Presence.leavesOut,
      Value.ownEntries, hown]

/-- What is wrong with an object stands under its members, and what is no object is itself wrong. -/
theorem isEmpty_path_of_check_object {fields : List (String × Presence × Validator)} {v : Value}
    {checked : Checked} (h : (Validator.object fields).check v = .ok checked) :
    ∀ i ∈ checked.issues, i.path.isEmpty = !v.isKeyed := by
  intro i hi
  rw [check] at h
  split at h
  next hkeyed =>
    obtain ⟨found, hfound, h⟩ := Outcome.bind_eq_ok.mp h
    obtain rfl := Outcome.pure_eq_ok.mp h
    obtain ⟨name, _, _, _, _, _, _, _, rfl⟩ := (mem_issues_checkFields hfound).mp hi
    rw [hkeyed]
    rfl
  next hother =>
    obtain ⟨received, _, h⟩ := Outcome.bind_eq_ok.mp h
    obtain rfl := Outcome.pure_eq_ok.mp h
    obtain rfl := List.mem_singleton.mp hi
    simp [hother]

/-- Issues within a value of a field stand under no inherited name, unless the field has one. -/
theorem not_isUnderInherited_within {name : String} (hname : Value.isInheritedName name = false)
    (issues : List Issue) : ∀ i ∈ issues.map (Issue.within name), ¬i.IsUnderInherited := by
  rintro i hi ⟨other, hpath, hinherited⟩
  obtain ⟨j, _, rfl⟩ := List.mem_map.mp hi
  obtain ⟨rfl, -⟩ := List.cons.inj hpath
  exact absurd hinherited (by simp [hname])

section Single

variable {name : String} {presence : Presence} {validator : Validator} {bare : Bool}
  {members : Record Value} {v : Value} (hname : Value.isInheritedName name = false)
  (hvalue : Record.get? members name = some v) (hpresent : v.isNullish = false)

include hname hvalue hpresent

theorem check_single_eq_ok {checked : Checked} :
    (Validator.object [(name, presence, validator)]).check (.object bare members) = .ok checked ↔
      ∃ first, validator.check v = .ok first ∧
        ⟨first.issues.map (Issue.within name), .object false [(name, first.value)]⟩ = checked := by
  rw [check_single hname hvalue hpresent, Outcome.bind_eq_ok]
  exact exists_congr fun first => and_congr_right fun _ => Outcome.pure_eq_ok

/-- No issue of the object stands under an inherited name. -/
theorem not_isUnderInherited_single {checked : Checked}
    (h : (Validator.object [(name, presence, validator)]).check (.object bare members) =
      .ok checked) : ∀ i ∈ checked.issues, ¬i.IsUnderInherited := by
  obtain ⟨first, _, rfl⟩ := (check_single_eq_ok hname hvalue hpresent).mp h
  exact not_isUnderInherited_within hname first.issues

theorem judge_single_eq_error_iff {failure : Failure} :
    (Validator.object [(name, presence, validator)]).judge (.object bare members) =
      .error failure ↔ validator.check v = .error failure := by
  rw [judge_eq_error_iff fun _ => not_isUnderInherited_single hname hvalue hpresent,
    check_single hname hvalue hpresent, Outcome.bind_eq_error]
  constructor
  · rintro (h | ⟨_, _, h⟩)
    · exact h
    · cases h
  · exact .inl

theorem judge_single_accepted_iff {taken : Value} :
    (Validator.object [(name, presence, validator)]).judge (.object bare members) =
        .ok (.accepted (.object false [(name, taken)])) ↔
      validator.check v = .ok ⟨[], taken⟩ := by
  rw [judge_accepted_iff, check_single_eq_ok hname hvalue hpresent]
  constructor
  · rintro ⟨⟨issues, value⟩, hfirst, h⟩
    obtain ⟨hissues, hvalues⟩ := Checked.mk.inj h
    obtain rfl : issues = [] := List.map_eq_nil_iff.mp hissues
    obtain rfl : value = taken := by simpa using hvalues
    exact hfirst
  · intro h
    exact ⟨_, h, rfl⟩

/-- The verdict on the object tells what the check of the value found. -/
theorem exists_judge_single {first : Checked} (hfirst : validator.check v = .ok first) :
    ∃ verdict,
      (Validator.object [(name, presence, validator)]).judge (.object bare members) = .ok verdict ∧
      verdict.Tells
        ⟨first.issues.map (Issue.within name), .object false [(name, first.value)]⟩ := by
  have hcheck := (@check_single_eq_ok name presence validator bare members v hname hvalue hpresent
    _).mpr ⟨first, hfirst, rfl⟩
  exact exists_tells hcheck (not_isUnderInherited_single hname hvalue hpresent hcheck)

end Single

end Validator

section Inside

variable {head : RuleHead} {inner : Descriptor} {bare : Bool} {members : Record Value}

theorem Descriptor.not_isUnderInherited {validator : Validator}
    (hvalidator : inner.validator = .ok validator)
    (hnames : ∀ name ∈ inner.names, Value.isInheritedName name = false) {v : Value}
    {checked : Checked} (hcheck : validator.check v = .ok checked) :
    ∀ i ∈ checked.issues, ¬i.IsUnderInherited := by
  intro i hi hunder
  obtain ⟨name, hname, hinherited⟩ := exists_inherited_name hvalidator hcheck hi hunder
  exact absurd hinherited (by simp [hnames name hname])

/-- A rule for a map tells what the rules inside tell of its value. -/
theorem RuleHead.tellsInside (htype : head.type = .map)
    (hname : Value.isInheritedName head.name = false)
    (hnames : ∀ name ∈ inner.names, Value.isInheritedName name = false) {v : Value}
    (hvalue : Record.get? members head.name = some v) (hpresent : v.isNullish = false) :
    head.TellsInside inner (.object bare members) v := by
  have hrule := Descriptor.judge_rule_eq (.fields head inner) (.object bare members)
  rw [Validator.ofRule_fields htype] at hrule
  cases hvalidator : inner.validator with
  | error failure =>
      have hinner : inner.judge v = .error failure := by
        rw [Descriptor.judge, hvalidator]
        rfl
      have houter : Descriptor.judge [.fields head inner] (.object bare members) =
          .error failure := by
        rw [hrule]
        exact congrArg (· >>= _) hvalidator
      constructor <;> simp [hinner, houter]
  | ok validator =>
      obtain ⟨fields, rfl, _⟩ := Descriptor.validator_fields hvalidator
      have hinner := Descriptor.judge_eq hvalidator v
      have houter : Descriptor.judge [.fields head inner] (.object bare members) =
          (Validator.object [(head.name, Presence.ofHead head, .object fields)]).judge
            (.object bare members) := by
        rw [hrule]
        exact congrArg (· >>= _) hvalidator
      constructor
      case fails =>
        intro failure
        rw [houter, hinner, Validator.judge_single_eq_error_iff hname hvalue hpresent]
        exact (Validator.judge_eq_error_iff fun _ =>
          Descriptor.not_isUnderInherited hvalidator hnames).symm
      case accepted =>
        intro taken
        rw [houter, hinner, Validator.judge_single_accepted_iff hname hvalue hpresent,
          Validator.judge_accepted_iff]
      case rejected =>
        intro errors h
        rw [hinner] at h
        obtain ⟨first, hfirst, hne, hreport⟩ := Validator.judge_rejected _ _ _ h
        obtain ⟨verdict, hjudge, htells⟩ :=
          @Validator.exists_judge_single _ (Presence.ofHead head) _ bare _ _ hname hvalue hpresent
            _ hfirst
        obtain ⟨outer, rfl⟩ := htells.exists_rejected (by simpa using hne)
        refine ⟨outer, houter.trans hjudge, htells.report_errors.perm ?_⟩
        exact hreport.placed (Validator.isEmpty_path_of_check_object hfirst)
          (fun i _ => i.key_within head.name) fun _ _ => rfl

/-- What is wrong with an item of a list is reported under the position of the item. -/
theorem Issue.key_within_position (i : Issue) (name : String) (position : Nat) :
    ((i.within (toString position)).within name).key =
      if i.path.isEmpty then name ++ "." ++ toString position
      else name ++ "." ++ toString position ++ "." ++ i.key := by
  have hpath : (i.within (toString position)).path.isEmpty = false := rfl
  rw [key_within, hpath, key_within]
  cases i.path.isEmpty <;> simp [String.append_assoc]

theorem Validator.check_list_eq_ok {item : Validator} {items : List Value} {checked : Checked} :
    (Validator.list item).check (.list items) = .ok checked ↔
      ∃ found, checkItems item.check 0 items = .ok found ∧
        ⟨found.issues, .list found.items⟩ = checked := by
  rw [check, Outcome.bind_eq_ok]
  exact exists_congr fun found => and_congr_right fun _ => Outcome.pure_eq_ok

/-- The check of a list finds what verdicts on its items tell. -/
theorem Validator.checkItems_tells {fields : List (String × Presence × Validator)} (name : String)
    (hfree : ∀ item checked, (Validator.object fields).check item = .ok checked →
      ∀ i ∈ checked.issues, ¬i.IsUnderInherited) {items : List Value} {position : Nat}
    {checked : CheckedItems}
    (h : checkItems (Validator.object fields).check position items = .ok checked) :
    ∃ parts each,
      List.Forall₂ (fun item part => (Validator.object fields).judge item = .ok part) items
        parts ∧
      List.Forall₂ FieldErrors.Report (Verdict.placedErrors name position items parts) each ∧
      each.flatten = checked.issues.map (Issue.within name) ∧
      (checked.issues = [] → parts = checked.items.map .accepted) ∧
      (checked.issues ≠ [] → ∃ errors, .rejected errors ∈ parts) := by
  induction items generalizing position checked with
  | nil =>
      rw [checkItems] at h
      obtain rfl := Except.ok.inj h
      exact ⟨[], [], .nil, .nil, rfl, fun _ => rfl, by simp⟩
  | cons item rest ih =>
      rw [checkItems] at h
      obtain ⟨first, hfirst, h⟩ := Outcome.bind_eq_ok.mp h
      obtain ⟨others, hothers, h⟩ := Outcome.bind_eq_ok.mp h
      obtain rfl := Outcome.pure_eq_ok.mp h
      obtain ⟨parts, each, hparts, hreports, hflatten, haccepted, hrejected⟩ := ih hothers
      obtain ⟨part, hpart, htells⟩ := exists_tells hfirst (hfree item first hfirst)
      have hreport := htells.report_errors.placed (isEmpty_path_of_check_object hfirst)
        (fun i _ => i.key_within_position name position) fun _ _ => rfl
      refine ⟨part :: parts, _ :: each, .cons hpart hparts, .cons hreport hreports, ?_, ?_, ?_⟩
      · rw [List.flatten_cons, hflatten, List.map_append, List.map_map]
        rfl
      · intro hnone
        obtain ⟨hfirstNone, hrest⟩ := List.append_eq_nil_iff.mp hnone
        rw [haccepted hrest, htells.eq_accepted (List.map_eq_nil_iff.mp hfirstNone)]
        rfl
      · intro hsome
        by_cases hfirstNone : first.issues = []
        · have hrest : others.issues ≠ [] := by simpa [hfirstNone] using hsome
          obtain ⟨errors, herrors⟩ := hrejected hrest
          exact ⟨errors, List.mem_cons_of_mem _ herrors⟩
        · obtain ⟨errors, rfl⟩ := htells.exists_rejected hfirstNone
          exact ⟨errors, List.mem_cons_self⟩

section Items

variable (htype : head.type = .array)

include htype

/-- A rule for elements makes a list of what the rules inside make. -/
theorem Descriptor.judge_itemFields_eq_ok {verdict : Verdict} :
    Descriptor.judge [.itemFields head inner] (.object bare members) = .ok verdict ↔
      ∃ validator, inner.validator = .ok validator ∧
        (Validator.object [(head.name, Presence.ofHead head, .list validator)]).judge
          (.object bare members) = .ok verdict := by
  have hrule : Validator.ofRule (.itemFields head inner) = (do
      let item ← inner.validator
      return .list item) := by
    rw [Validator.ofRule, htype]
    rfl
  rw [Descriptor.judge_rule_eq, hrule, bind_assoc, Outcome.bind_eq_ok]
  rfl

variable (hname : Value.isInheritedName head.name = false)

include hname

variable {items : List Value} (hvalue : Record.get? members head.name = some (.list items))

include hvalue

/-- A verdict on the list joins verdicts on its elements. -/
theorem Descriptor.exists_judge_items
    (hnames : ∀ name ∈ inner.names, Value.isInheritedName name = false) {verdict : Verdict}
    (h : Descriptor.judge [.itemFields head inner] (.object bare members) = .ok verdict) :
    ∃ parts, List.Forall₂ (fun item part => inner.judge item = .ok part) items parts ∧
      verdict.JoinsItems head.name items parts := by
  obtain ⟨validator, hvalidator, hjudge⟩ := (judge_itemFields_eq_ok htype).mp h
  obtain ⟨fields, rfl, _⟩ := Descriptor.validator_fields hvalidator
  obtain ⟨checked, hchecked, htells⟩ := Validator.tells_of_judge hjudge
  obtain ⟨first, hfirst, rfl⟩ := (Validator.check_single_eq_ok hname hvalue rfl).mp hchecked
  obtain ⟨found, hfound, rfl⟩ := Validator.check_list_eq_ok.mp hfirst
  obtain ⟨parts, each, hparts, hreports, hflatten, haccepted, hrejected⟩ :=
    Validator.checkItems_tells head.name
      (fun _ _ => Descriptor.not_isUnderInherited hvalidator hnames) hfound
  refine ⟨parts, hparts.imp fun item part hpart => ?_, ?_⟩
  · rw [Descriptor.judge_eq hvalidator]
    exact hpart
  · by_cases hclean : found.issues = []
    · rw [haccepted hclean, htells.eq_accepted (List.map_eq_nil_iff.mpr hclean)]
      exact .accepted found.items
    · obtain ⟨errors, rfl⟩ := htells.exists_rejected (by simpa using hclean)
      exact .rejected (hrejected hclean)
        (.of_reports htells.report_errors hreports (.of_eq hflatten.symm))

/-- Where every element comes to a verdict, so does the list. -/
theorem Descriptor.exists_judge_of_items {validator : Validator}
    (hvalidator : inner.validator = .ok validator)
    (heach : ∀ item ∈ items, ∃ verdict, inner.judge item = .ok verdict) :
    ∃ verdict,
      Descriptor.judge [.itemFields head inner] (.object bare members) = .ok verdict := by
  have hchecks : ∀ item ∈ items, ∃ checked, validator.check item = .ok checked := by
    intro item hitem
    obtain ⟨verdict, hverdict⟩ := heach item hitem
    rw [Descriptor.judge_eq hvalidator] at hverdict
    obtain ⟨checked, hchecked, _⟩ := Validator.tells_of_judge hverdict
    exact ⟨checked, hchecked⟩
  obtain ⟨found, hfound⟩ := checkItems_ok hchecks 0
  have hlist := Validator.check_list_eq_ok.mpr ⟨found, hfound, rfl⟩
  obtain ⟨verdict, hjudge, _⟩ :=
    @Validator.exists_judge_single _ (Presence.ofHead head) _ bare _ _ hname hvalue rfl _ hlist
  exact ⟨verdict, (judge_itemFields_eq_ok htype).mpr ⟨validator, hvalidator, hjudge⟩⟩

/-- A rule for elements tells what the rules inside tell of the elements of its list. -/
theorem RuleHead.tellsOfItems
    (hnames : ∀ name ∈ inner.names, Value.isInheritedName name = false) :
    head.TellsOfItems inner (.object bare members) items where
  exists_iff := by
    constructor
    · rintro ⟨verdict, h⟩
      obtain ⟨validator, hvalidator, _⟩ := (Descriptor.judge_itemFields_eq_ok htype).mp h
      obtain ⟨parts, hparts, _⟩ := Descriptor.exists_judge_items htype hname hvalue hnames h
      exact ⟨⟨validator, hvalidator⟩, exists_forall₂_iff.mp ⟨parts, hparts⟩⟩
    · rintro ⟨⟨validator, hvalidator⟩, heach⟩
      exact Descriptor.exists_judge_of_items htype hname hvalue hvalidator heach
  joins _ h := Descriptor.exists_judge_items htype hname hvalue hnames h

end Items

end Inside

/-! ## Compiled schemas -/

namespace Descriptor.HoldsRule

variable {d inner : Descriptor} {outer rule : Rule}

theorem of_inner (h : d.HoldsRule outer) (hinner : outer.inner? = some inner)
    (hrule : rule ∈ inner) : d.HoldsRule rule := by
  induction h with
  | here houter => exact .inside houter hinner (.here hrule)
  | inside hother hbetween _ ih => exact .inside hother hbetween (ih hinner)

/-- The rules inside a rule have no inherited name where no rule has. -/
theorem inner_names_avoid (h : d.HoldsRule outer) (hinner : outer.inner? = some inner)
    (havoids : d.AvoidsInherited) : ∀ name ∈ inner.names, Value.isInheritedName name = false := by
  intro name hname
  obtain ⟨rule, hrule, rfl⟩ := List.mem_map.mp hname
  exact havoids rule.head (h.of_inner hinner hrule).head_mem_headsOfAll

end Descriptor.HoldsRule

/-- The rules inside a documented rule are documented too. -/
theorem Node.Agrees.exists_blockAgrees {n : Node} {rule : Rule} {inner : Descriptor}
    (h : n.Agrees rule) (hinner : rule.inner? = some inner) :
    ∃ properties, BlockAgrees properties inner := by
  cases rule with
  | fields head rules =>
      obtain rfl := Option.some.inj hinner
      obtain ⟨_, _, properties, _, hblock⟩ := h
      exact ⟨properties, hblock⟩
  | itemFields head rules =>
      obtain rfl := Option.some.inj hinner
      obtain ⟨_, _, _, _, _, properties, _, hblock⟩ := h
      exact ⟨properties, hblock⟩
  | plain head => cases hinner
  | items head item => cases hinner

theorem Descriptor.HoldsRule.exists_agrees {d : Descriptor} {rule : Rule} (h : d.HoldsRule rule)
    {properties : Record Node} (hblock : Node.BlockAgrees properties d) :
    ∃ n : Node, n.Agrees rule := by
  induction h generalizing properties with
  | here hrule =>
      obtain ⟨n, _, hagrees⟩ := hblock.2.2.of_mem hrule
      exact ⟨n, hagrees⟩
  | inside houter hinner _ ih =>
      obtain ⟨n, _, hagrees⟩ := hblock.2.2.of_mem houter
      obtain ⟨_, hbelow⟩ := hagrees.exists_blockAgrees hinner
      exact ih hbelow

namespace Schema

/-- Validation is compositional. Verdicts on objects are put together from those of the single
rules, on every level of the schema, and every rule with rules inside tells what these tell of the
value, or of the elements of the list, that its field has. -/
theorem IsCompiled.judge_composes {s : Schema} (hs : s.IsCompiled)
    (havoids : s.descriptor.AvoidsInherited) (bare : Bool) (members : Record Value) :
    s.descriptor.ComposesOn (.object bare members) ∧
      (∀ outer inner, s.descriptor.HoldsRule outer → outer.inner? = some inner →
        inner.ComposesOn (.object bare members)) ∧
      (∀ head inner v, s.descriptor.HoldsRule (.fields head inner) →
        Record.get? members head.name = some v → v.isNullish = false →
          head.TellsInside inner (.object bare members) v) ∧
      ∀ head inner items, s.descriptor.HoldsRule (.itemFields head inner) →
        Record.get? members head.name = some (.list items) →
          head.TellsOfItems inner (.object bare members) items := by
  obtain ⟨_, _, properties, _, hagreed⟩ := hs.agrees
  have hblock : Node.BlockAgrees properties s.descriptor := hagreed
  refine ⟨?_, ?_, ?_, ?_⟩
  · exact Descriptor.composesOn hblock.nodup_names rfl
  · intro outer inner houter hinner
    obtain ⟨_, hagrees⟩ := houter.exists_agrees hblock
    obtain ⟨_, hbelow⟩ := hagrees.exists_blockAgrees hinner
    exact Descriptor.composesOn hbelow.nodup_names rfl
  · intro head inner v hrule hvalue hpresent
    obtain ⟨_, hagrees⟩ := hrule.exists_agrees hblock
    exact RuleHead.tellsInside hagrees.type_eq_map (havoids head hrule.head_mem_headsOfAll)
      (hrule.inner_names_avoid rfl havoids) hvalue hpresent
  · intro head inner items hrule hvalue
    obtain ⟨_, hagrees⟩ := hrule.exists_agrees hblock
    exact RuleHead.tellsOfItems hagrees.type_eq_array (havoids head hrule.head_mem_headsOfAll)
      hvalue (hrule.inner_names_avoid rfl havoids)

/-- A parcel goes to a place and has a list of lines. -/
def parcel : Value :=
  .list [
    .list [.text "required", .text "to", .text "object",
      .object false [("fields", .list [.list [.text "required", .text "city", .text "string"]])]],
    .list [.text "optional", .text "lines", .list [.text "array", .text "map"],
      .object false [("fields", .list [.list [.text "required", .text "code", .text "string"]])]]]

def cityRules : Descriptor := [.plain ⟨"city", .string, true, {}⟩]

def parcelLineRules : Descriptor := [.plain ⟨"code", .string, true, {}⟩]

def parcelRules : Descriptor :=
  [.fields ⟨"to", .map, true, {}⟩ cityRules,
    .itemFields ⟨"lines", .array, false, {}⟩ parcelLineRules]

/-- A parcel to a city that is a number, with a line that is no object. -/
def strayParcel : Record Value :=
  [("to", .object false [("city", .number 1)]), ("lines", .list [.bool true])]

theorem judge_strayParcel_composes :
    ∃ s, compile "Parcel" parcel alone = .ok (s, []) ∧ s.descriptor = parcelRules ∧
      s.descriptor.AvoidsInherited ∧ s.descriptor.ComposesOn (.object false strayParcel) ∧
      cityRules.ComposesOn (.object false strayParcel) ∧
      RuleHead.TellsInside ⟨"to", .map, true, {}⟩ cityRules (.object false strayParcel)
        (.object false [("city", .number 1)]) ∧
      RuleHead.TellsOfItems ⟨"lines", .array, false, {}⟩ parcelLineRules (.object false strayParcel)
        [.bool true] := by
  obtain ⟨s, hs, hdescriptor⟩ : ∃ s, compile "Parcel" parcel alone = .ok (s, []) ∧
      s.descriptor = parcelRules := ⟨_, rfl, by cbv⟩
  have havoids : s.descriptor.AvoidsInherited := by
    rw [hdescriptor]
    simp only [Descriptor.AvoidsInherited, parcelRules, cityRules, parcelLineRules, Rule.headsOfAll,
      Rule.heads]
    decide
  have hcompiled : s.IsCompiled := .intro (by simp [alone]) hs
  obtain ⟨hwhole, hinside, hfields, hitems⟩ :=
    hcompiled.judge_composes havoids false strayParcel
  rw [hdescriptor] at hinside hfields hitems
  have hplace : parcelRules.HoldsRule (.fields ⟨"to", .map, true, {}⟩ cityRules) :=
    .here List.mem_cons_self
  have hlines : parcelRules.HoldsRule (.itemFields ⟨"lines", .array, false, {}⟩ parcelLineRules) :=
    .here (List.mem_cons_of_mem _ List.mem_cons_self)
  exact ⟨s, hs, hdescriptor, havoids, hwhole, hinside _ _ hplace rfl,
    hfields _ _ _ hplace rfl rfl, hitems _ _ _ hlines rfl⟩

/-- An object whose only field has the name under which values as a whole are reported. -/
def rooted : Value :=
  .list [.list [.text "required", .text "a", .text "object",
    .object false [("fields", .list [.list [.text "required", .text "_root", .text "string"]])]]]

def rootRules : Descriptor := [.plain ⟨"_root", .string, true, {}⟩]

/-- The error of a field that is called `_root` is reported under the field's path, and not under
the path of the object around it. -/
theorem judge_rooted_below :
    ∃ s message, compile "Rooted" rooted alone = .ok (s, []) ∧
      s.descriptor = [.fields ⟨"a", .map, true, {}⟩ rootRules] ∧ s.descriptor.AvoidsInherited ∧
      rootRules.judge (.object false [("_root", .number 1)]) =
        .ok (.rejected [("_root", [message])]) ∧
      s.descriptor.judge (.object false [("a", .object false [("_root", .number 1)])]) =
        .ok (.rejected [("a._root", [message])]) ∧
      ¬ List.Perm [("a._root", [message])] ([("_root", [message])].map fun entry =>
        (if entry.1 = "_root" then "a" else "a." ++ entry.1, entry.2)) := by
  obtain ⟨s, hs, hdescriptor⟩ : ∃ s, compile "Rooted" rooted alone = .ok (s, []) ∧
      s.descriptor = [.fields ⟨"a", .map, true, {}⟩ rootRules] := ⟨_, rfl, by cbv⟩
  have havoids : s.descriptor.AvoidsInherited := by
    rw [hdescriptor]
    simp only [Descriptor.AvoidsInherited, rootRules, Rule.headsOfAll, Rule.heads]
    decide
  have hinner : rootRules.validator =
      .ok (.object [("_root", ⟨true, false, none⟩, .text {})]) := by cbv
  have hvalidator : s.descriptor.validator = .ok (.object [("a", ⟨true, false, none⟩,
      .object [("_root", ⟨true, false, none⟩, .text {})])]) := by
    rw [hdescriptor]
    cbv
  refine ⟨s, (Cause.wrongType .string "number").message, hs, hdescriptor, havoids, ?_, ?_, ?_⟩
  · rw [Descriptor.judge_eq hinner]
    rfl
  · rw [Descriptor.judge_eq hvalidator]
    rfl
  · simp

end Schema

end FieldSchema
