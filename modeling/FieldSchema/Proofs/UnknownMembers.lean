import Mathlib
import FieldSchema.Proofs.Acceptance

/-!
# Members that no rule knows

A validator reads from an object the members that its rules name and no others. Two inputs that look
the same to the rules, at every depth, therefore have the same verdict, down to the messages and to
the failure of a check that gives up. An object that is taken over from an accepted input has
members of these names only. Defaults are taken over as they were declared, whatever they hold.
-/

namespace FieldSchema

/-- Two values are one value, or two objects, both bare or neither, whose members are related. -/
def Value.SameOrObjects (related : Record Value → Record Value → Prop) (v w : Value) : Prop :=
  v = w ∨ ∃ bare members others,
    v = .object bare members ∧ w = .object bare others ∧ related members others

mutual

/-- Two values look the same to a rule. Where the rule has rules for the fields inside the value, or
inside its elements, only what these see has to be the same; any other rule sees all of a value. -/
def Rule.SeesSame : Rule → Value → Value → Prop
  | .plain _, v, w => v = w
  | .items _ _, v, w => v = w
  | .fields _ inner, v, w => v.SameOrObjects (Rule.SeeSameMembers inner) w
  | .itemFields _ inner, v, w =>
      v = w ∨ ∃ items others, v = .list items ∧ w = .list others ∧
        List.Forall₂ (Value.SameOrObjects (Rule.SeeSameMembers inner)) items others

/-- The members of two objects look the same to rules: under the name of each rule both have a
value, which looks the same to the rule, or neither has one. -/
def Rule.SeeSameMembers : List Rule → Record Value → Record Value → Prop
  | [], _, _ => True
  | rule :: rest, members, others =>
      Option.Rel rule.SeesSame (Record.get? members rule.name) (Record.get? others rule.name) ∧
        Rule.SeeSameMembers rest members others

end

/-- Two inputs look the same to a descriptor. -/
def Descriptor.SeesSame (d : Descriptor) (v w : Value) : Prop :=
  v.SameOrObjects (Rule.SeeSameMembers d) w

/-- A descriptor takes an object over from an input: the object stands in the value that was made of
the input, at a place where the input itself has a value and where the descriptor has rules. -/
inductive Descriptor.TakesOver : Descriptor → Value → Value → Descriptor → Value → Prop
  /-- The value made of the whole input. -/
  | root {d : Descriptor} {input taken : Value} : TakesOver d input taken d taken
  /-- An object inside the value of a field. -/
  | field {d rules inner : Descriptor} {head : RuleHead} {input value object : Value} {bare : Bool}
      {members : Record Value} (hrule : .fields head inner ∈ d)
      (hpresent : (input.read head.name).isAbsent = false)
      (hvalue : Record.get? members head.name = some value)
      (h : TakesOver inner (input.read head.name) value rules object) :
      TakesOver d input (.object bare members) rules object
  /-- An object inside an element of the list of a field. -/
  | element {d rules inner : Descriptor} {head : RuleHead} {input given value object : Value}
      {bare : Bool} {members : Record Value} {items values : List Value} {position : Nat}
      (hrule : .itemFields head inner ∈ d) (hinput : input.read head.name = .list items)
      (hvalue : Record.get? members head.name = some (.list values))
      (hgiven : items[position]? = some given) (htaken : values[position]? = some value)
      (h : TakesOver inner given value rules object) :
      TakesOver d input (.object bare members) rules object

/-! ## Checks of values that look the same -/

theorem checkItems_congr {check : Value → Outcome Checked} {items others : List Value}
    (h : List.Forall₂ (fun item other => check item = check other) items others) (position : Nat) :
    checkItems check position items = checkItems check position others := by
  induction h generalizing position with
  | nil => rfl
  | cons hitem _ ih => rw [checkItems, checkItems, hitem, ih]

theorem Presence.check_congr (p : Presence) {inner : Value → Outcome Checked} {v w : Value}
    (hv : v.isNullish = false) (hw : w.isNullish = false) (h : inner v = inner w) :
    p.check inner v = p.check inner w := by
  rw [check_of_present hv, check_of_present hw, h]

namespace Validator

/-- What a field finds in two objects is the same, and whether they list it themselves too. -/
def FindsSame (field : String × Presence × Validator) (v w : Value) : Prop :=
  checkField field v = checkField field w ∧
    Record.has v.ownEntries field.1 = Record.has w.ownEntries field.1

theorem checkFields_congr {fields : List (String × Presence × Validator)} {v w : Value}
    (h : ∀ field ∈ fields, FindsSame field v w) : checkFields fields v = checkFields fields w := by
  induction fields with
  | nil => rw [checkFields, checkFields]
  | cons field rest ih =>
      obtain ⟨⟨hcheck, hhas⟩, hrest⟩ := List.forall_mem_cons.mp h
      obtain ⟨name, presence, validator⟩ := field
      unfold checkField at hcheck
      rw [checkFields, checkFields, hcheck, hhas, ih hrest]

/-- Objects in which every field finds the same are checked with the same result. -/
theorem check_object_congr {fields : List (String × Presence × Validator)} {bare : Bool}
    {members others : Record Value}
    (h : ∀ field ∈ fields, FindsSame field (.object bare members) (.object bare others)) :
    (Validator.object fields).check (.object bare members) =
      (Validator.object fields).check (.object bare others) := by
  rw [check, check, checkFields_congr h]
  rfl

/-- The check of a field depends on what is read under its name. -/
theorem findsSame_of_rel {field : String × Presence × Validator} {bare : Bool}
    {members others : Record Value} {R : Value → Value → Prop}
    (hrel : Option.Rel R (Record.get? members field.1) (Record.get? others field.1))
    (hcheck : ∀ v w, R v w →
      field.2.1.check field.2.2.check v = field.2.1.check field.2.2.check w) :
    FindsSame field (.object bare members) (.object bare others) := by
  unfold FindsSame checkField Record.has
  simp only [Value.ownEntries]
  cases hmember : Record.get? members field.1 with
  | none =>
      rw [hmember] at hrel
      cases hother : Record.get? others field.1 with
      | none => exact ⟨by rw [Value.read_object_congr (hmember.trans hother.symm)], rfl⟩
      | some w =>
          rw [hother] at hrel
          cases hrel
  | some v =>
      rw [hmember] at hrel
      cases hother : Record.get? others field.1 with
      | none =>
          rw [hother] at hrel
          cases hrel
      | some w =>
          rw [hother] at hrel
          cases hrel with
          | some hvw =>
              rw [Value.read_object_of_get? hmember, Value.read_object_of_get? hother]
              exact ⟨hcheck v w hvw, rfl⟩

mutual

/-- Values that look the same to a rule are checked with the same result. -/
theorem ofRule_check_congr (rule : Rule) {n : Node} (hagrees : n.Agrees rule) {validator : Validator}
    (hvalidator : ofRule rule = .ok validator) {v w : Value} (h : rule.SeesSame v w)
    (p : Presence) : p.check validator.check v = p.check validator.check w := by
  cases rule with
  | plain head =>
      rw [Rule.SeesSame] at h
      rw [h]
  | items head item =>
      rw [Rule.SeesSame] at h
      rw [h]
  | fields head inner =>
      rw [ofRule_fields hagrees.type_eq_map] at hvalidator
      obtain ⟨_, _, properties, _, _, _, heach⟩ := hagrees
      rw [Rule.SeesSame] at h
      rcases h with rfl | ⟨bare, members, others, rfl, rfl, hmembers⟩
      · rfl
      · apply p.check_congr rfl rfl
        exact ofRules_check_congr inner heach hvalidator hmembers
  | itemFields head inner =>
      obtain ⟨item, hitem, rfl⟩ := ofRule_itemFields hagrees.type_eq_array hvalidator
      obtain ⟨_, _, _, _, _, properties, _, _, _, heach⟩ := hagrees
      rw [Rule.SeesSame] at h
      rcases h with rfl | ⟨items, others, rfl, rfl, hitems⟩
      · rfl
      · apply p.check_congr rfl rfl
        rw [check, check]
        have hsame : List.Forall₂ (fun x y => item.check x = item.check y) items others := by
          refine hitems.imp ?_
          rintro x y (rfl | ⟨bare, members, others, rfl, rfl, hmembers⟩)
          · rfl
          · exact ofRules_check_congr inner heach hitem hmembers
        rw [checkItems_congr hsame]
termination_by (sizeOf rule, 0)

theorem ofRules_check_congr (rules : List Rule) {properties : Record Node}
    (heach : Node.EachAgrees properties rules) {validator : Validator}
    (hvalidator : ofRules rules = .ok validator) {bare : Bool} {members others : Record Value}
    (h : Rule.SeeSameMembers rules members others) :
    validator.check (.object bare members) = validator.check (.object bare others) := by
  rw [ofRules] at hvalidator
  obtain ⟨fields, hfields, hvalidator⟩ := Outcome.bind_eq_ok.mp hvalidator
  obtain rfl := Outcome.pure_eq_ok.mp hvalidator
  apply check_object_congr
  intro field hfield
  exact ofFields_findSame rules heach hfields h field (Record.mem_of_mem_ofList hfield)
termination_by (sizeOf rules, 1)

theorem ofFields_findSame (rules : List Rule) {properties : Record Node}
    (heach : Node.EachAgrees properties rules) {fields : List (String × Presence × Validator)}
    (hfields : ofFields rules = .ok fields) {bare : Bool} {members others : Record Value}
    (h : Rule.SeeSameMembers rules members others) :
    ∀ field ∈ fields, FindsSame field (.object bare members) (.object bare others) := by
  intro field hfield
  cases rules with
  | nil =>
      rw [ofFields] at hfields
      obtain rfl := Except.ok.inj hfields
      simp at hfield
  | cons rule rest =>
      rw [ofFields] at hfields
      obtain ⟨validator, hvalidator, hfields⟩ := Outcome.bind_eq_ok.mp hfields
      obtain ⟨later, hlater, hfields⟩ := Outcome.bind_eq_ok.mp hfields
      obtain rfl := Outcome.pure_eq_ok.mp hfields
      obtain ⟨⟨n, _, hagrees⟩, hrest⟩ := heach
      rw [Rule.SeeSameMembers] at h
      rcases List.mem_cons.mp hfield with rfl | hfield
      · apply findsSame_of_rel h.1
        intro v w hvw
        exact ofRule_check_congr rule hagrees hvalidator hvw _
      · exact ofFields_findSame rest hrest hlater h.2 field hfield
termination_by (sizeOf rules, 0)

end

end Validator

/-! ## What is taken over -/

/-- Where a check finds nothing wrong in a list, it finds nothing wrong in each item. -/
theorem clean_item_of_checkItems {check : Value → Outcome Checked} {items : List Value}
    {position : Nat} {checked : CheckedItems} (h : checkItems check position items = .ok checked)
    (hissues : checked.issues = []) {index : Nat} {item value : Value}
    (hitem : items[index]? = some item) (hvalue : checked.items[index]? = some value) :
    check item = .ok (.clean value) := by
  induction items generalizing position checked index with
  | nil => simp at hitem
  | cons first rest ih =>
      rw [checkItems] at h
      obtain ⟨found, hfound, h⟩ := Outcome.bind_eq_ok.mp h
      obtain ⟨others, hothers, h⟩ := Outcome.bind_eq_ok.mp h
      obtain rfl := Outcome.pure_eq_ok.mp h
      obtain ⟨hfirst, hrest⟩ := List.append_eq_nil_iff.mp hissues
      cases index with
      | zero =>
          obtain ⟨issues, taken⟩ := found
          obtain rfl : issues = [] := List.map_eq_nil_iff.mp hfirst
          obtain rfl : first = item := by simpa using hitem
          obtain rfl : taken = value := by simpa using hvalue
          exact hfound
      | succ index => exact ih hothers hrest (by simpa using hitem) (by simpa using hvalue)

/-- A value that is there is taken over by the check of the field's type, unless it is null. -/
theorem Presence.clean_of_check {p : Presence} {inner : Value → Outcome Checked} {v value : Value}
    (hpresent : v.isAbsent = false) (h : p.check inner v = .ok (.clean value)) :
    value = .null ∨ inner v = .ok (.clean value) := by
  unfold check at h
  split at h
  next => simp [Value.isAbsent] at hpresent
  next => simp [Value.isAbsent] at hpresent
  next =>
    split at h
    next => exact .inl (congrArg Checked.value (Except.ok.inj h)).symm
    next => exact .inr h
  next => exact .inr h

namespace Validator

/-- Where a check finds nothing wrong in an object, each member that it takes over is what a field
found nothing wrong with. -/
theorem clean_field_of_checkFields {fields : List (String × Presence × Validator)} {v : Value}
    {checked : CheckedFields} (h : checkFields fields v = .ok checked)
    (hissues : checked.issues = []) {name : String} {value : Value}
    (hmember : (name, value) ∈ checked.members) :
    ∃ field ∈ fields, field.1 = name ∧ checkField field v = .ok (.clean value) := by
  induction fields generalizing checked with
  | nil =>
      rw [checkFields] at h
      obtain rfl := Except.ok.inj h
      simp at hmember
  | cons field rest ih =>
      obtain ⟨other, presence, validator⟩ := field
      rw [checkFields] at h
      obtain ⟨found, hfound, h⟩ := Outcome.bind_eq_ok.mp h
      obtain ⟨others, hothers, h⟩ := Outcome.bind_eq_ok.mp h
      obtain rfl := Outcome.pure_eq_ok.mp h
      obtain ⟨hfirst, hrest⟩ := List.append_eq_nil_iff.mp hissues
      have hlater : (name, value) ∈ others.members →
          ∃ field ∈ (other, presence, validator) :: rest,
            field.1 = name ∧ checkField field v = .ok (.clean value) := by
        intro hmember
        obtain ⟨field, hfield, hname, hclean⟩ := ih hothers hrest hmember
        exact ⟨field, List.mem_cons_of_mem _ hfield, hname, hclean⟩
      dsimp only at hmember
      split at hmember
      next => exact hlater hmember
      next =>
        rcases List.mem_cons.mp hmember with heq | hmember
        · obtain ⟨rfl, rfl⟩ := Prod.mk.inj heq
          obtain ⟨issues, taken⟩ := found
          obtain rfl : issues = [] := List.map_eq_nil_iff.mp hfirst
          exact ⟨_, List.mem_cons_self, rfl, hfound⟩
        · exact hlater hmember

theorem eq_object_of_check_clean {fields : List (String × Presence × Validator)} {v taken : Value}
    (h : (Validator.object fields).check v = .ok (.clean taken)) :
    ∃ checked, checkFields fields v = .ok checked ∧ checked.issues = [] ∧
      taken = .object false checked.members := by
  rw [check] at h
  split at h
  next =>
    obtain ⟨checked, hchecked, h⟩ := Outcome.bind_eq_ok.mp h
    have hclean := Outcome.pure_eq_ok.mp h
    exact ⟨checked, hchecked, congrArg Checked.issues hclean, (congrArg Checked.value hclean).symm⟩
  next =>
    -- a value of another type has an issue
    obtain ⟨received, _, h⟩ := Outcome.bind_eq_ok.mp h
    cases congrArg Checked.issues (Outcome.pure_eq_ok.mp h)

theorem clean_item_of_check_list {item : Validator} {items values : List Value}
    (h : (Validator.list item).check (.list items) = .ok (.clean (.list values))) {index : Nat}
    {given value : Value} (hgiven : items[index]? = some given)
    (hvalue : values[index]? = some value) : item.check given = .ok (.clean value) := by
  rw [check] at h
  obtain ⟨checked, hchecked, h⟩ := Outcome.bind_eq_ok.mp h
  have hclean := Outcome.pure_eq_ok.mp h
  have hissues : checked.issues = [] := congrArg Checked.issues hclean
  have hvalues : checked.items = values := Value.list.inj (congrArg Checked.value hclean)
  exact clean_item_of_checkItems hchecked hissues hgiven (hvalues ▸ hvalue)

/-- The member taken over under the name of a rule is what the rule's validator found nothing wrong
with. -/
theorem clean_of_ofRules {rules : List Rule} (hnodup : (Descriptor.names rules).Nodup)
    {validator : Validator} (hvalidator : ofRules rules = .ok validator) {input : Value}
    {bare : Bool} {members : Record Value}
    (hclean : validator.check input = .ok (.clean (.object bare members))) {rule : Rule}
    (hrule : rule ∈ rules) {value : Value}
    (hvalue : Record.get? members rule.name = some value) :
    ∃ inner, ofRule rule = .ok inner ∧
      (Presence.ofHead rule.head).check inner.check (input.read rule.name) =
        .ok (.clean value) := by
  obtain ⟨fields, rfl, hfieldNames, hfields⟩ := ofRules_eq_ok hnodup hvalidator
  obtain ⟨inner, hinner, hmem⟩ := hfields rule hrule
  obtain ⟨checked, hchecked, hissues, htaken⟩ := eq_object_of_check_clean hclean
  obtain ⟨-, rfl⟩ := Value.object.inj htaken
  have hmember : (rule.name, value) ∈ checked.members := Record.mem_of_get? hvalue
  obtain ⟨field, hfield, hname, hfound⟩ := clean_field_of_checkFields hchecked hissues hmember
  -- names are distinct, so the field found is the one of the rule
  have hsame : field = (rule.name, Presence.ofHead rule.head, inner) := by
    have hget := Record.get?_of_mem hfieldNames hmem
    rw [← hname] at hget ⊢
    rw [Record.get?_of_mem hfieldNames hfield] at hget
    rw [← Option.some.inj hget]
  subst hsame
  exact ⟨inner, hinner, hfound⟩

end Validator

namespace Descriptor

/-- The members of a value that was taken over have names of rules. -/
theorem mem_names_of_clean {d : Descriptor} {validator : Validator}
    (hvalidator : d.validator = .ok validator) {input : Value} {bare : Bool}
    {members : Record Value}
    (hclean : validator.check input = .ok (.clean (.object bare members))) {name : String}
    (hname : name ∈ Record.names members) : name ∈ d.names := by
  obtain ⟨fields, rfl, hnames, _⟩ := validator_fields hvalidator
  obtain ⟨checked, hchecked, hissues, htaken⟩ := Validator.eq_object_of_check_clean hclean
  obtain ⟨-, rfl⟩ := Value.object.inj htaken
  obtain ⟨member, hmember, rfl⟩ := List.mem_map.mp hname
  obtain ⟨field, hfield, hfieldName, _⟩ :=
    Validator.clean_field_of_checkFields hchecked hissues hmember
  apply (hnames member.1).mp
  exact hfieldName ▸ List.mem_map_of_mem hfield

/-- Wherever a value is taken over from an accepted input, what stands there was accepted by the
rules there. -/
theorem TakesOver.clean {d rules : Descriptor} {input taken object : Value}
    (h : d.TakesOver input taken rules object) {properties : Record Node}
    (hblock : Node.BlockAgrees properties d) {validator : Validator}
    (hvalidator : d.validator = .ok validator)
    (hclean : validator.check input = .ok (.clean taken)) (hobject : object ≠ .null) :
    ∃ inner given, Descriptor.validator rules = .ok inner ∧
      inner.check given = .ok (.clean object) := by
  induction h generalizing properties validator with
  | root => exact ⟨validator, _, hvalidator, hclean⟩
  | @field d rules below head input value object bare members hrule hpresent hvalue h ih =>
      obtain ⟨next, hnext, hfound⟩ :=
        Validator.clean_of_ofRules hblock.nodup_names hvalidator hclean hrule hvalue
      obtain ⟨_, _, hagrees⟩ := hblock.2.2.of_mem hrule
      rw [Validator.ofRule_fields hagrees.type_eq_map] at hnext
      obtain ⟨_, _, _, _, hbelow⟩ := hagrees
      rcases Presence.clean_of_check hpresent hfound with rfl | hfound
      · -- nothing but null itself stands inside null
        cases h
        exact absurd rfl hobject
      · exact ih hbelow hnext hfound hobject
  | @element d rules below head input given value object bare members items values position hrule
      hinput hvalue hgiven htaken h ih =>
      obtain ⟨next, hnext, hfound⟩ :=
        Validator.clean_of_ofRules hblock.nodup_names hvalidator hclean hrule hvalue
      obtain ⟨_, _, hagrees⟩ := hblock.2.2.of_mem hrule
      obtain ⟨item, hitem, rfl⟩ := Validator.ofRule_itemFields hagrees.type_eq_array hnext
      obtain ⟨_, _, _, _, _, _, _, hbelow⟩ := hagrees
      rw [Rule.name, Rule.head, hinput, Presence.check_of_present rfl] at hfound
      exact ih hbelow hitem (Validator.clean_item_of_check_list hfound hgiven htaken) hobject

end Descriptor

/-! ## Compiled schemas -/

namespace Schema

/-- Members that no rule knows reach neither the verdict nor what is taken over: inputs that look
the same to a compiled descriptor have the same verdict, or the same failure, and an object that is
taken over from an accepted input has members of the names of its rules only. -/
theorem IsCompiled.judge_ignores_unknown {s : Schema} (hs : s.IsCompiled) :
    (∀ v w, s.descriptor.SeesSame v w → s.descriptor.judge v = s.descriptor.judge w) ∧
      ∀ input value, s.descriptor.judge input = .ok (.accepted value) →
        ∀ rules bare members, s.descriptor.TakesOver input value rules (.object bare members) →
          ∀ name ∈ Record.names members, name ∈ rules.names := by
  obtain ⟨_, _, properties, _, hblock⟩ := hs.agrees
  constructor
  · rintro v w (rfl | ⟨bare, members, others, rfl, rfl, hmembers⟩)
    · rfl
    · unfold Descriptor.judge
      cases hvalidator : s.descriptor.validator with
      | error failure => rfl
      | ok validator =>
          have hcheck : validator.check (.object bare members) =
              validator.check (.object bare others) :=
            Validator.ofRules_check_congr s.descriptor hblock.2.2 hvalidator hmembers
          change validator.judge _ = validator.judge _
          rw [Validator.judge, Validator.judge, hcheck]
  · intro input value haccepted rules bare members htaken name hname
    obtain ⟨validator, hvalidator, hjudge⟩ := Outcome.bind_eq_ok.mp haccepted
    have hclean := (validator.judge_accepted_iff input value).mp hjudge
    obtain ⟨inner, given, hinner, hfound⟩ := htaken.clean hblock hvalidator hclean (by simp)
    exact Descriptor.mem_names_of_clean hinner hfound hname

/-- An order has a list of lines, each with a code, and may name its buyer. -/
def buyersOrder : Value :=
  .list [
    .list [.text "required", .text "lines", .list [.text "array", .text "map"],
      .object false [("fields", .list [.list [.text "required", .text "code", .text "string"]])]],
    .list [.text "optional", .text "buyer", .text "object",
      .object false [("fields", .list [.list [.text "required", .text "name", .text "string"]])]]]

def codeRules : Descriptor := [.plain ⟨"code", .string, true, {}⟩]

def buyerRules : Descriptor := [.plain ⟨"name", .string, true, {}⟩]

def orderRules : Descriptor :=
  [.itemFields ⟨"lines", .array, true, {}⟩ codeRules, .fields ⟨"buyer", .map, false, {}⟩ buyerRules]

def adasLine : Value := .object false [("code", .text "AB")]

def adasOrder : Value :=
  .object false [("lines", .list [adasLine]), ("buyer", .object false [("name", .text "Ada")])]

def paddedLine : Value := .object false [("price", .number 3), ("code", .text "AB")]

/-- The same order with a member that no rule knows in each of its three objects. -/
def paddedOrder : Value :=
  .object false [
    ("lines", .list [paddedLine]),
    ("constructor", .null),
    ("buyer", .object false [("name", .text "Ada"), ("admin", .bool true)])]

theorem sees_paddedOrder : orderRules.SeesSame adasOrder paddedOrder := by
  have hline : Value.SameOrObjects (Rule.SeeSameMembers codeRules) adasLine paddedLine :=
    .inr ⟨_, _, _, rfl, rfl, .some rfl, trivial⟩
  have hbuyer : Value.SameOrObjects (Rule.SeeSameMembers buyerRules)
      (.object false [("name", .text "Ada")])
      (.object false [("name", .text "Ada"), ("admin", .bool true)]) :=
    .inr ⟨_, _, _, rfl, rfl, .some rfl, trivial⟩
  refine .inr ⟨_, _, _, rfl, rfl, .some ?_, .some hbuyer, trivial⟩
  exact .inr ⟨_, _, rfl, rfl, .cons hline .nil⟩

/-- The padded order is judged as the plain one and taken over as the plain one, line by line. -/
theorem judge_ignores_padding :
    ∃ s, compile "Order" buyersOrder alone = .ok (s, []) ∧ s.descriptor = orderRules ∧
      s.descriptor.SeesSame adasOrder paddedOrder ∧
      s.descriptor.judge adasOrder = s.descriptor.judge paddedOrder ∧
      s.descriptor.judge paddedOrder = .ok (.accepted adasOrder) ∧
      s.descriptor.TakesOver paddedOrder adasOrder codeRules adasLine ∧
      "code" ∈ codeRules.names := by
  obtain ⟨s, hs, hdescriptor⟩ : ∃ s, compile "Order" buyersOrder alone = .ok (s, []) ∧
      s.descriptor = orderRules := ⟨_, rfl, by cbv⟩
  have hcompiled : s.IsCompiled := .intro (by simp [alone]) hs
  have hsame : s.descriptor.SeesSame adasOrder paddedOrder := hdescriptor ▸ sees_paddedOrder
  have haccepted : s.descriptor.judge paddedOrder = .ok (.accepted adasOrder) := by
    have hvalidator : orderRules.validator = .ok (.object [
        ("lines", ⟨true, false, none⟩, .list (.object [("code", ⟨true, false, none⟩, .text {})])),
        ("buyer", ⟨false, false, none⟩, .object [("name", ⟨true, false, none⟩, .text {})])]) := by
      cbv
    rw [hdescriptor, Descriptor.judge_eq hvalidator]
    rfl
  have htaken : s.descriptor.TakesOver paddedOrder adasOrder codeRules adasLine := by
    rw [hdescriptor]
    have hfirst : [paddedLine][0]? = some paddedLine := rfl
    exact .element List.mem_cons_self rfl rfl hfirst rfl .root
  obtain ⟨hverdict, hnames⟩ := hcompiled.judge_ignores_unknown
  exact ⟨s, hs, hdescriptor, hsame, hverdict _ _ hsame, haccepted, htaken,
    hnames _ _ haccepted _ _ _ htaken _ List.mem_cons_self⟩

end Schema

end FieldSchema
