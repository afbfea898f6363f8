import Mathlib
import FieldSchema.Proofs.Places
import FieldSchema.Proofs.Verdicts

/-!
# Acceptance at every place

A validator accepts a value when its check finds nothing wrong. An accepted value is accepted part
by part: each object that the descriptor describes is accepted by the validator of the rules there.
When one of these objects is changed, whatever its own check then finds is what the check of the
whole value finds, seen from the outside.
-/

namespace FieldSchema

/-- A check finds nothing wrong. -/
def Outcome.IsClean (x : Outcome Checked) : Prop :=
  ∃ taken, x = .ok (.clean taken)

/-- The check of a value by a validator finds nothing wrong. -/
def Validator.Accepts (validator : Validator) (v : Value) : Prop :=
  Outcome.IsClean (validator.check v)

/-- What a descriptor finds acceptable its validator accepts. -/
theorem Descriptor.accepts_of_judge {d : Descriptor} {input value : Value}
    (h : d.judge input = .ok (.accepted value)) :
    ∃ validator, d.validator = .ok validator ∧ validator.Accepts input := by
  obtain ⟨validator, hvalidator, hjudge⟩ := Outcome.bind_eq_ok.mp h
  exact ⟨validator, hvalidator, value, (validator.judge_accepted_iff input value).mp hjudge⟩

/-- The issue as seen from further out. -/
def Issue.below (path : List String) (i : Issue) : Issue :=
  { i with path := path ++ i.path }

theorem Issue.map_below_nil (issues : List Issue) : issues.map (Issue.below []) = issues :=
  List.map_id issues

theorem Issue.map_within_map_below (issues : List Issue) (step : String) (path : List String) :
    (issues.map (Issue.below path)).map (Issue.within step) =
      issues.map (Issue.below (step :: path)) := by
  rw [List.map_map]
  rfl

/-! ## Items -/

theorem checkItems_of_clean {check : Value → Outcome Checked} {items : List Value}
    (hitems : ∀ item ∈ items, Outcome.IsClean (check item)) (position : Nat) :
    ∃ taken, checkItems check position items = .ok ⟨[], taken⟩ := by
  induction items generalizing position with
  | nil => exact ⟨[], rfl⟩
  | cons item rest ih =>
      obtain ⟨hitem, hrest⟩ := List.forall_mem_cons.mp hitems
      obtain ⟨first, hfirst⟩ := hitem
      obtain ⟨others, hothers⟩ := ih hrest (position + 1)
      refine ⟨first :: others, ?_⟩
      rw [checkItems, hfirst]
      exact Outcome.bind_eq_ok.mpr ⟨_, rfl, Outcome.bind_eq_ok.mpr ⟨_, hothers, rfl⟩⟩

theorem clean_of_checkItems {check : Value → Outcome Checked} {items : List Value} {position : Nat}
    {checked : CheckedItems} (h : checkItems check position items = .ok checked)
    (hissues : checked.issues = []) {item : Value} (hitem : item ∈ items) :
    Outcome.IsClean (check item) := by
  induction items generalizing position checked with
  | nil => simp at hitem
  | cons first rest ih =>
      rw [checkItems] at h
      obtain ⟨found, hfound, h⟩ := Outcome.bind_eq_ok.mp h
      obtain ⟨others, hothers, h⟩ := Outcome.bind_eq_ok.mp h
      obtain rfl := Outcome.pure_eq_ok.mp h
      obtain ⟨hfirst, hrest⟩ := List.append_eq_nil_iff.mp hissues
      rcases List.mem_cons.mp hitem with rfl | hmem
      · obtain ⟨issues, taken⟩ := found
        have hnone : issues = [] := List.map_eq_nil_iff.mp hfirst
        subst hnone
        exact ⟨taken, hfound⟩
      · exact ih hothers hrest hmem

/-- When all items but one are clean, the issues are those of the one, under its position. -/
theorem checkItems_set {check : Value → Outcome Checked} {items : List Value} {index : Nat}
    (hindex : index < items.length) (hitems : ∀ item ∈ items, Outcome.IsClean (check item))
    {item : Value} {found : Checked} (hfound : check item = .ok found) (position : Nat) :
    ∃ taken, checkItems check position (items.set index item) =
      .ok ⟨found.issues.map (Issue.within (toString (position + index))), taken⟩ := by
  induction items generalizing index position with
  | nil => simp at hindex
  | cons first rest ih =>
      obtain ⟨hfirst, hrest⟩ := List.forall_mem_cons.mp hitems
      cases index with
      | zero =>
          obtain ⟨others, hothers⟩ := checkItems_of_clean hrest (position + 1)
          refine ⟨found.value :: others, ?_⟩
          rw [List.set_cons_zero, checkItems, hfound]
          refine Outcome.bind_eq_ok.mpr ⟨_, rfl, Outcome.bind_eq_ok.mpr ⟨_, hothers, ?_⟩⟩
          simp [pure, Except.pure]
      | succ index =>
          obtain ⟨taken, htaken⟩ := hfirst
          have hlength : index < rest.length := by simpa using hindex
          obtain ⟨others, hothers⟩ := ih hlength hrest (position + 1)
          refine ⟨taken :: others, ?_⟩
          rw [List.set_cons_succ, checkItems, htaken]
          refine Outcome.bind_eq_ok.mpr ⟨_, rfl, Outcome.bind_eq_ok.mpr ⟨_, hothers, ?_⟩⟩
          have hposition : position + 1 + index = position + (index + 1) := by omega
          simp [pure, Except.pure, Checked.clean, hposition]

/-! ## Fields -/

namespace Presence

theorem check_of_present {p : Presence} {inner : Value → Outcome Checked} {v : Value}
    (hpresent : v.isNullish = false) : p.check inner v = inner v := by
  unfold check
  cases v with
  | absent => simp [Value.isNullish] at hpresent
  | null => simp [Value.isNullish] at hpresent
  | _ => rfl

end Presence

namespace Validator

/-- The check of one field of an object. -/
def checkField (field : String × Presence × Validator) (v : Value) : Outcome Checked :=
  field.2.1.check field.2.2.check (v.read field.1)

/-- Fields are checked to the end when each of them is, and their issues follow one another. -/
theorem checkFields_cons {field : String × Presence × Validator}
    {rest : List (String × Presence × Validator)} {v : Value} {first : Checked}
    {others : CheckedFields} (hfirst : checkField field v = .ok first)
    (hothers : checkFields rest v = .ok others) :
    ∃ members, checkFields (field :: rest) v =
      .ok ⟨first.issues.map (Issue.within field.1) ++ others.issues, members⟩ := by
  obtain ⟨name, presence, validator⟩ := field
  rw [checkFields]
  exact ⟨_, Outcome.bind_eq_ok.mpr ⟨first, hfirst, Outcome.bind_eq_ok.mpr ⟨others, hothers, rfl⟩⟩⟩

theorem checkFields_of_clean {fields : List (String × Presence × Validator)} {v : Value}
    (hfields : ∀ field ∈ fields, Outcome.IsClean (checkField field v)) :
    ∃ members, checkFields fields v = .ok ⟨[], members⟩ := by
  induction fields with
  | nil => exact ⟨[], by rw [checkFields]⟩
  | cons field rest ih =>
      obtain ⟨hfield, hrest⟩ := List.forall_mem_cons.mp hfields
      obtain ⟨taken, htaken⟩ := hfield
      obtain ⟨members, hmembers⟩ := ih hrest
      exact checkFields_cons htaken hmembers

theorem clean_of_checkFields {fields : List (String × Presence × Validator)} {v : Value}
    {checked : CheckedFields} (h : checkFields fields v = .ok checked)
    (hissues : checked.issues = []) {field : String × Presence × Validator}
    (hfield : field ∈ fields) : Outcome.IsClean (checkField field v) := by
  induction fields generalizing checked with
  | nil => simp at hfield
  | cons first rest ih =>
      obtain ⟨name, presence, validator⟩ := first
      rw [checkFields] at h
      obtain ⟨found, hfound, h⟩ := Outcome.bind_eq_ok.mp h
      obtain ⟨others, hothers, h⟩ := Outcome.bind_eq_ok.mp h
      obtain rfl := Outcome.pure_eq_ok.mp h
      obtain ⟨hfirst, hrest⟩ := List.append_eq_nil_iff.mp hissues
      rcases List.mem_cons.mp hfield with rfl | hmem
      · obtain ⟨issues, taken⟩ := found
        have hnone : issues = [] := List.map_eq_nil_iff.mp hfirst
        subst hnone
        exact ⟨taken, hfound⟩
      · exact ih hothers hrest hmem

/-- When all fields but one are clean, the issues are those of the one, under its name. -/
theorem checkFields_of_others_clean {fields : List (String × Presence × Validator)} {v : Value}
    (hnodup : (Record.names fields).Nodup) {field : String × Presence × Validator}
    (hfield : field ∈ fields) {found : Checked} (hfound : checkField field v = .ok found)
    (hothers : ∀ other ∈ fields, other.1 ≠ field.1 → Outcome.IsClean (checkField other v)) :
    ∃ members, checkFields fields v =
      .ok ⟨found.issues.map (Issue.within field.1), members⟩ := by
  induction fields with
  | nil => simp at hfield
  | cons first rest ih =>
      obtain ⟨hfresh, hrest⟩ := List.nodup_cons.mp hnodup
      obtain ⟨hfirst, hrestOthers⟩ := List.forall_mem_cons.mp hothers
      rcases List.mem_cons.mp hfield with rfl | hmem
      · -- the names of the rest are other names, so the rest is clean
        have hclean : ∀ other ∈ rest, Outcome.IsClean (checkField other v) := by
          intro other hother
          refine hrestOthers other hother fun hname => hfresh ?_
          exact hname ▸ List.mem_map_of_mem hother
        obtain ⟨members, hmembers⟩ := checkFields_of_clean hclean
        simpa using checkFields_cons hfound hmembers
      · have hne : first.1 ≠ field.1 := by
          intro hname
          exact hfresh (hname ▸ List.mem_map_of_mem hmem)
        obtain ⟨taken, htaken⟩ := hfirst hne
        obtain ⟨members, hmembers⟩ := ih hrest hmem hrestOthers
        exact checkFields_cons htaken hmembers

/-! ## Objects and lists -/

theorem Accepts.checkField_isClean {fields : List (String × Presence × Validator)} {bare : Bool}
    {members : Record Value} (h : (Validator.object fields).Accepts (.object bare members))
    {field : String × Presence × Validator} (hfield : field ∈ fields) :
    Outcome.IsClean (checkField field (.object bare members)) := by
  obtain ⟨taken, htaken⟩ := h
  rw [check] at htaken
  obtain ⟨checked, hchecked, htaken⟩ := Outcome.bind_eq_ok.mp htaken
  have hissues : checked.issues = [] := congrArg Checked.issues (Outcome.pure_eq_ok.mp htaken)
  exact clean_of_checkFields hchecked hissues hfield

theorem Accepts.item {validator : Validator} {items : List Value}
    (h : (Validator.list validator).Accepts (.list items)) {item : Value} (hitem : item ∈ items) :
    validator.Accepts item := by
  obtain ⟨taken, htaken⟩ := h
  rw [check] at htaken
  obtain ⟨checked, hchecked, htaken⟩ := Outcome.bind_eq_ok.mp htaken
  have hissues : checked.issues = [] := congrArg Checked.issues (Outcome.pure_eq_ok.mp htaken)
  exact clean_of_checkItems hchecked hissues hitem

/-- A field of an accepted object whose value is there accepts this value. -/
theorem Accepts.member {fields : List (String × Presence × Validator)} {bare : Bool}
    {members : Record Value} (h : (Validator.object fields).Accepts (.object bare members))
    {name : String} {presence : Presence} {validator : Validator}
    (hfield : (name, presence, validator) ∈ fields) {value : Value}
    (hvalue : Record.get? members name = some value) (hpresent : value.isNullish = false) :
    validator.Accepts value := by
  have hclean := h.checkField_isClean hfield
  unfold checkField at hclean
  rwa [Value.read_object_of_get? hvalue, Presence.check_of_present hpresent] at hclean

/-- When the entry of one field of an accepted object changes, the issues are those of this
field. -/
theorem Accepts.check_changed {fields : List (String × Presence × Validator)} {bare : Bool}
    {members others : Record Value}
    (h : (Validator.object fields).Accepts (.object bare members))
    (hnodup : (Record.names fields).Nodup) {field : String × Presence × Validator}
    (hfield : field ∈ fields)
    (hsame : ∀ name, name ≠ field.1 → Record.get? others name = Record.get? members name)
    {found : Checked} (hfound : checkField field (.object bare others) = .ok found) :
    ∃ taken, (Validator.object fields).check (.object bare others) =
      .ok ⟨found.issues.map (Issue.within field.1), taken⟩ := by
  have hothers : ∀ other ∈ fields, other.1 ≠ field.1 →
      Outcome.IsClean (checkField other (.object bare others)) := by
    intro other hother hne
    have hclean := h.checkField_isClean hother
    unfold checkField at hclean ⊢
    rwa [Value.read_object_congr (hsame other.1 hne)]
  obtain ⟨taken, htaken⟩ := checkFields_of_others_clean hnodup hfield hfound hothers
  refine ⟨.object false taken, ?_⟩
  rw [check]
  exact Outcome.bind_eq_ok.mpr ⟨_, htaken, rfl⟩

/-- When a field of an accepted object gets another value, the issues are those of this value. -/
theorem Accepts.check_overwrite {fields : List (String × Presence × Validator)} {bare : Bool}
    {members : Record Value} (h : (Validator.object fields).Accepts (.object bare members))
    (hnodup : (Record.names fields).Nodup) {name : String} {presence : Presence}
    {validator : Validator} (hfield : (name, presence, validator) ∈ fields)
    (hhas : Record.has members name = true) {value : Value} (hpresent : value.isNullish = false)
    {found : Checked} (hfound : validator.check value = .ok found) :
    ∃ taken, (Validator.object fields).check (.object bare (Record.overwrite members name value)) =
      .ok ⟨found.issues.map (Issue.within name), taken⟩ := by
  have hvalue : Record.get? (Record.overwrite members name value) name = some value := by
    rw [Record.get?_overwrite, if_pos ⟨rfl, hhas⟩]
  refine h.check_changed hnodup hfield (fun other hne => ?_) ?_
  · rw [Record.get?_overwrite, if_neg fun hother => hne hother.1]
  · unfold checkField
    rw [Value.read_object_of_get? hvalue, Presence.check_of_present hpresent]
    exact hfound

/-- When one item of an accepted list changes, the issues are those of this item. -/
theorem Accepts.check_set {validator : Validator} {items : List Value}
    (h : (Validator.list validator).Accepts (.list items)) {index : Nat}
    (hindex : index < items.length) {item : Value} {found : Checked}
    (hfound : validator.check item = .ok found) :
    ∃ taken, (Validator.list validator).check (.list (items.set index item)) =
      .ok ⟨found.issues.map (Issue.within (toString index)), taken⟩ := by
  obtain ⟨taken, htaken⟩ := checkItems_set hindex (fun other hother => h.item hother) hfound 0
  refine ⟨.list taken, ?_⟩
  rw [check]
  refine Outcome.bind_eq_ok.mpr ⟨_, htaken, ?_⟩
  simp only [Nat.zero_add]
  rfl

/-! ## Validators of rules -/

theorem mem_of_ofFields {rules : List Rule} {fields : List (String × Presence × Validator)}
    (h : ofFields rules = .ok fields) {rule : Rule} (hrule : rule ∈ rules) :
    ∃ validator, ofRule rule = .ok validator ∧
      (rule.name, Presence.ofHead rule.head, validator) ∈ fields := by
  induction rules generalizing fields with
  | nil => simp at hrule
  | cons first rest ih =>
      rw [ofFields] at h
      obtain ⟨validator, hvalidator, h⟩ := Outcome.bind_eq_ok.mp h
      obtain ⟨others, hothers, h⟩ := Outcome.bind_eq_ok.mp h
      obtain rfl := Outcome.pure_eq_ok.mp h
      rcases List.mem_cons.mp hrule with rfl | hmem
      · exact ⟨validator, hvalidator, List.mem_cons_self⟩
      · obtain ⟨found, hfound, hfield⟩ := ih hothers hmem
        exact ⟨found, hfound, List.mem_cons_of_mem _ hfield⟩

/-- The validator of rules of distinct names is an object with one field for each rule. -/
theorem ofRules_eq_ok {rules : List Rule} (hnodup : (Descriptor.names rules).Nodup)
    {validator : Validator} (h : ofRules rules = .ok validator) :
    ∃ fields, validator = .object fields ∧ (Record.names fields).Nodup ∧
      ∀ rule ∈ rules, ∃ inner, ofRule rule = .ok inner ∧
        (rule.name, Presence.ofHead rule.head, inner) ∈ fields := by
  rw [ofRules] at h
  obtain ⟨fields, hfields, h⟩ := Outcome.bind_eq_ok.mp h
  obtain rfl := Outcome.pure_eq_ok.mp h
  have hnames : (Record.names fields).Nodup := by
    rw [(ofFields_spec hfields).1]
    exact hnodup
  have hperm := Record.ofList_perm hnames
  refine ⟨Record.ofList fields, rfl, (hperm.map Prod.fst).symm.nodup hnames, ?_⟩
  intro rule hrule
  obtain ⟨inner, hinner, hfield⟩ := mem_of_ofFields hfields hrule
  exact ⟨inner, hinner, hperm.symm.mem_iff.mp hfield⟩

theorem ofRule_fields {head : RuleHead} {inner : List Rule} (htype : head.type = .map) :
    ofRule (.fields head inner) = ofRules inner := by
  rw [ofRule, htype]
  rfl

theorem ofRule_itemFields {head : RuleHead} {inner : List Rule} {validator : Validator}
    (htype : head.type = .array) (h : ofRule (.itemFields head inner) = .ok validator) :
    ∃ item, ofRules inner = .ok item ∧ validator = .list item := by
  rw [ofRule, htype] at h
  obtain ⟨item, hitem, h⟩ := Outcome.bind_eq_ok.mp h
  exact ⟨item, hitem, (Outcome.pure_eq_ok.mp h).symm⟩

end Validator

/-! ## Places -/

/-- Where a value is accepted, so is each object that the descriptor describes, by the rules at its
place; and when the members of such an object change, the check of the whole value finds what the
check of the object finds, below the place. -/
theorem Descriptor.Describes.check {d rules : Descriptor} {v object : Value} {place : Place}
    (h : d.Describes v place rules object) {properties : Record Node}
    (hblock : Node.BlockAgrees properties d) {validator : Validator}
    (hvalidator : d.validator = .ok validator) (haccepts : validator.Accepts v) :
    ∃ inner, Descriptor.validator rules = .ok inner ∧ inner.Accepts object ∧
      ∀ change found, inner.check (object.modifyAt change []) = .ok found →
        ∃ taken, validator.check (v.modifyAt change place) =
          .ok ⟨found.issues.map (Issue.below place.path), taken⟩ := by
  induction h generalizing properties validator with
  | root =>
      refine ⟨validator, hvalidator, haccepts, fun change found hfound => ⟨found.value, ?_⟩⟩
      rw [Place.path, List.map_nil, Issue.map_below_nil]
      exact hfound
  | @field d rules below head bare members place value object hrule hvalue h ih =>
      obtain ⟨fields, rfl, hnodup, hfields⟩ :=
        Validator.ofRules_eq_ok hblock.nodup_names hvalidator
      obtain ⟨next, hnext, hfield⟩ := hfields _ hrule
      obtain ⟨_, _, hagrees⟩ := hblock.2.2.of_mem hrule
      rw [Validator.ofRule_fields hagrees.type_eq_map] at hnext
      obtain ⟨_, _, _, _, hbelow⟩ := hagrees
      have hmember := haccepts.member hfield hvalue h.isNullish_eq_false
      obtain ⟨inner, hinner, hobject, hchange⟩ := ih hbelow hnext hmember
      refine ⟨inner, hinner, hobject, fun change found hfound => ?_⟩
      -- the changed value is as present as before, so its field is checked the same way
      obtain ⟨_, htaken⟩ := hchange change found hfound
      have hhas : Record.has members head.name = true := by simp [Record.has, hvalue]
      have hpresent : (value.modifyAt change place).isNullish = false := by
        rw [Value.isNullish_modifyAt, h.isNullish_eq_false]
      obtain ⟨whole, hwhole⟩ := haccepts.check_overwrite hnodup hfield hhas hpresent htaken
      rw [Issue.map_within_map_below] at hwhole
      refine ⟨whole, ?_⟩
      rw [Value.modifyAt, hvalue]
      exact hwhole
  | @element d rules below head bare members items position place value object hrule hvalue hitem h
      ih =>
      obtain ⟨fields, rfl, hnodup, hfields⟩ :=
        Validator.ofRules_eq_ok hblock.nodup_names hvalidator
      obtain ⟨_, hnext, hfield⟩ := hfields _ hrule
      obtain ⟨_, _, hagrees⟩ := hblock.2.2.of_mem hrule
      obtain ⟨item, hnextItem, rfl⟩ := Validator.ofRule_itemFields hagrees.type_eq_array hnext
      obtain ⟨_, _, _, _, _, _, _, hbelow⟩ := hagrees
      have hlist := haccepts.member hfield hvalue rfl
      obtain ⟨hposition, hget⟩ := List.getElem?_eq_some_iff.mp hitem
      have hmember := hlist.item (hget ▸ List.getElem_mem hposition)
      obtain ⟨inner, hinner, hobject, hchange⟩ := ih hbelow hnextItem hmember
      refine ⟨inner, hinner, hobject, fun change found hfound => ?_⟩
      obtain ⟨_, htaken⟩ := hchange change found hfound
      -- outwards through the list, and then through the field that holds it
      obtain ⟨_, hset⟩ := hlist.check_set hposition htaken
      have hhas : Record.has members head.name = true := by simp [Record.has, hvalue]
      obtain ⟨whole, hwhole⟩ := haccepts.check_overwrite hnodup hfield hhas rfl hset
      rw [Issue.map_within_map_below, Issue.map_within_map_below] at hwhole
      refine ⟨whole, ?_⟩
      simp only [Value.modifyAt, hvalue, hitem]
      exact hwhole

end FieldSchema
