import FieldSchema.Validation.Verdict

/-!
# Checks that come to a result

A check gives up where it asks an object for its constructor or its length and cannot use what the
object states there. An input without such statements is always checked to the end, and every issue
of an object stands under one of its fields, or concerns the object as a whole.
-/

namespace FieldSchema

namespace Value

/-- A value stands inside another: it is that value, or stands inside an item or a member of it. -/
inductive Inside (v : Value) : Value → Prop where
  | self : Inside v v
  | item {items : List Value} {item : Value} (hmem : item ∈ items) (h : Inside v item) :
      Inside v (.list items)
  | member {bare : Bool} {members : Record Value} {name : String} {value : Value}
      (hmem : (name, value) ∈ members) (h : Inside v value) : Inside v (.object bare members)

/-- No object inside a value states a constructor or a length itself. -/
def IsTame (v : Value) : Prop :=
  ∀ bare members, Inside (.object bare members) v →
    Record.has members "constructor" = false ∧ Record.has members "length" = false

/-- Neither a list nor an object with members of its own. -/
def isLeaf : Value → Bool
  | .list _ | .object _ _ => false
  | _ => true

theorem IsTame.of_item {items : List Value} {item : Value} (h : IsTame (.list items))
    (hmem : item ∈ items) : item.IsTame :=
  fun bare members hinside => h bare members (.item hmem hinside)

theorem IsTame.of_member {bare : Bool} {members : Record Value} {name : String} {value : Value}
    (h : IsTame (.object bare members)) (hmem : (name, value) ∈ members) : value.IsTame :=
  fun bare members hinside => h bare members (.member hmem hinside)

theorem IsTame.get?_constructor {bare : Bool} {members : Record Value}
    (h : IsTame (.object bare members)) : Record.get? members "constructor" = none := by
  simpa [Record.has] using (h bare members .self).1

theorem IsTame.get?_length {bare : Bool} {members : Record Value}
    (h : IsTame (.object bare members)) : Record.get? members "length" = none := by
  simpa [Record.has] using (h bare members .self).2

theorem isTame_of_isLeaf {v : Value} (h : v.isLeaf) : v.IsTame := by
  intro bare members hinside
  cases hinside with
  | self => simp [isLeaf] at h
  | item => simp [isLeaf] at h
  | member => simp [isLeaf] at h

/-! ## What a tame value answers -/

theorem isLeaf_ownMembers (common : Ancestor) :
    ∀ entry ∈ common.ownMembers, entry.2.isLeaf = true := by
  rw [← List.all_eq_true]
  cases common with
  | ofObjects => rfl
  | ofDates => rfl
  | ofDecimals => rfl
  | ofHosts kind => cases kind <;> rfl

/-- Inherited members are functions, numbers, texts and flags. -/
theorem isLeaf_shared? {v : Value} {name : String} {value : Value}
    (h : v.shared? name = some value) : value.isLeaf := by
  have hmember : ∀ common : Ancestor, common.member? name = some value → value.isLeaf := by
    intro common hcommon
    rcases Option.or_eq_some_iff.mp hcommon with hown | ⟨_, hobject⟩
    · exact isLeaf_ownMembers common _ (Record.mem_of_get? hown)
    · exact isLeaf_ownMembers .ofObjects _ (Record.mem_of_get? hobject)
  unfold shared? at h
  split at h
  next common => exact hmember common h
  next =>
    obtain ⟨common, _, hcommon⟩ := Option.bind_eq_some_iff.mp h
    exact hmember common hcommon

theorem isLeaf_lineage (v : Value) : v.lineage.isLeaf := by
  unfold lineage
  split <;> rfl

/-- The members that a tame value lists are tame. -/
theorem IsTame.ownEntries {v : Value} (h : v.IsTame) {name : String} {value : Value}
    (hmem : (name, value) ∈ v.ownEntries) (hkeyed : v.isKeyed) : value.IsTame := by
  cases v with
  | object bare members => exact h.of_member hmem
  | decimal digits =>
      obtain ⟨-, rfl⟩ := Prod.mk.inj (List.mem_singleton.mp hmem)
      exact isTame_of_isLeaf rfl
  | host kind =>
      cases kind with
      | fixedField =>
          obtain ⟨-, rfl⟩ := Prod.mk.inj (List.mem_singleton.mp hmem)
          exact isTame_of_isLeaf rfl
      | map => simp [Value.ownEntries] at hmem
      | set => simp [Value.ownEntries] at hmem
      | promise => simp [Value.ownEntries] at hmem
      | regExp => simp [Value.ownEntries] at hmem
      | plain => simp [Value.ownEntries] at hmem
  | date ms => simp [Value.ownEntries] at hmem
  | ancestor common => simp [Value.ownEntries] at hmem
  | _ => simp [isKeyed] at hkeyed

/-- Whatever is read from a tame value, inherited or not, is tame. -/
theorem IsTame.read {v : Value} (h : v.IsTame) (hkeyed : v.isKeyed) (name : String) :
    (v.read name).IsTame := by
  unfold Value.read
  split
  next own hown => exact h.ownEntries (Record.mem_of_get? hown) hkeyed
  next =>
    split
    next => exact isTame_of_isLeaf v.isLeaf_lineage
    next =>
      cases hshared : v.shared? name with
      | none => exact isTame_of_isLeaf rfl
      | some value => exact isTame_of_isLeaf (isLeaf_shared? hshared)

theorem IsTame.receivedName_ok {v : Value} (h : v.IsTame) : ∃ name, v.receivedName = .ok name := by
  cases v with
  | object bare members =>
      cases bare with
      | false => exact ⟨_, rfl⟩
      | true =>
          refine ⟨"object", ?_⟩
          simp [receivedName, h.get?_constructor, isTruthy]
  | ancestor common => cases common <;> exact ⟨_, rfl⟩
  | _ => exact ⟨_, rfl⟩

end Value

theorem Checked.wrongType_ok {v : Value} (h : v.IsTame) (expected : Expected) :
    ∃ checked, wrongType expected v = .ok checked := by
  obtain ⟨name, hname⟩ := h.receivedName_ok
  exact ⟨_, Outcome.bind_eq_ok.mpr ⟨name, hname, rfl⟩⟩

/-! ## Checks of one value -/

namespace TextChecks

/-- A length that is a number can be compared with the bounds. -/
theorem measure_ok_of_number (c : TextChecks) {v : Value} {counted : Counted} {x : Float}
    (hlength : v.length? = some (counted, .number x)) : ∃ causes, c.measure v = .ok causes := by
  rw [measure, hlength]
  dsimp only
  split
  next => exact ⟨_, rfl⟩
  next => exact ⟨[], rfl⟩

theorem measure_ok (c : TextChecks) {v : Value} (h : v.IsTame) :
    ∃ causes, c.measure v = .ok causes := by
  cases v with
  | object bare members =>
      have hnone : (Value.object bare members).length? = none := by
        simp [Value.length?, h.get?_length]
      exact ⟨[], by rw [measure, hnone]⟩
  | text s => exact c.measure_ok_of_number rfl
  | list items => exact c.measure_ok_of_number rfl
  | function arity => exact c.measure_ok_of_number rfl
  | _ => exact ⟨[], rfl⟩

theorem check_ok (c : TextChecks) {v : Value} (h : v.IsTame) :
    ∃ checked, c.check v = .ok checked := by
  obtain ⟨causes, hcauses⟩ := c.measure_ok h
  obtain ⟨name, hname⟩ := h.receivedName_ok
  unfold check
  cases v with
  | text s => exact ⟨_, Outcome.bind_eq_ok.mpr ⟨causes, hcauses, rfl⟩⟩
  | _ => exact ⟨_, Outcome.bind_eq_ok.mpr
      ⟨causes, hcauses, Outcome.bind_eq_ok.mpr ⟨name, hname, rfl⟩⟩⟩

end TextChecks

theorem NumberChecks.check_ok (c : NumberChecks) {v : Value} (h : v.IsTame) :
    ∃ checked, c.check v = .ok checked := by
  unfold check
  split
  next =>
    split
    next => exact ⟨_, rfl⟩
    next => exact Checked.wrongType_ok h .number
  next => exact Checked.wrongType_ok h .number

theorem checkForm_ok (isForm : String → Bool) (otherwise : Cause) {v : Value} (h : v.IsTame) :
    ∃ checked, checkForm isForm otherwise v = .ok checked := by
  unfold checkForm
  split
  next => exact ⟨_, rfl⟩
  next => exact Checked.wrongType_ok h .string

theorem openMembers_ok {v : Value} (h : v.IsTame) : ∃ members, openMembers v = .ok members := by
  cases v with
  | object bare members => exact ⟨some members, by simp [openMembers, h.get?_constructor]; rfl⟩
  | ancestor common => cases common <;> exact ⟨_, rfl⟩
  | _ => exact ⟨none, rfl⟩

theorem checkOpenMap_ok {v : Value} (h : v.IsTame) : ∃ checked, checkOpenMap v = .ok checked := by
  obtain ⟨members?, hmembers⟩ := openMembers_ok h
  rw [checkOpenMap, hmembers]
  cases members? with
  | some members => exact ⟨_, rfl⟩
  | none => exact Checked.wrongType_ok h .record

theorem Presence.check_ok (p : Presence) {inner : Value → Outcome Checked} {v : Value}
    (hinner : ∃ checked, inner v = .ok checked) : ∃ checked, p.check inner v = .ok checked := by
  unfold check
  split
  next => exact ⟨_, rfl⟩
  next =>
    split
    next => exact hinner
    next => exact ⟨_, rfl⟩
  next =>
    split
    next => exact ⟨_, rfl⟩
    next => exact hinner
  next => exact hinner

/-! ## Checks of a whole input -/

theorem checkItems_ok {check : Value → Outcome Checked} {items : List Value}
    (hcheck : ∀ item ∈ items, ∃ checked, check item = .ok checked) (position : Nat) :
    ∃ checked, checkItems check position items = .ok checked := by
  induction items generalizing position with
  | nil => exact ⟨{}, rfl⟩
  | cons item rest ih =>
      obtain ⟨first, hfirst⟩ := hcheck item List.mem_cons_self
      obtain ⟨others, hothers⟩ :=
        ih (fun other hmem => hcheck other (List.mem_cons_of_mem _ hmem)) (position + 1)
      rw [checkItems, hfirst]
      exact ⟨_, Outcome.bind_eq_ok.mpr ⟨first, rfl, Outcome.bind_eq_ok.mpr ⟨others, hothers, rfl⟩⟩⟩

namespace Validator

mutual

/-- A tame value is checked to the end, whatever the validator. -/
theorem check_ok (validator : Validator) {v : Value} (h : v.IsTame) :
    ∃ checked, validator.check v = .ok checked := by
  cases validator with
  | text checks =>
      rw [check]
      exact checks.check_ok h
  | choice values =>
      rw [check]
      exact ⟨_, rfl⟩
  | number checks =>
      rw [check]
      exact checks.check_ok h
  | boolean =>
      cases v with
      | bool flag => exact ⟨_, by rw [check]⟩
      | _ => simpa only [check] using Checked.wrongType_ok h .boolean
  | date =>
      rw [check]
      exact checkForm_ok _ _ h
  | dateTime =>
      rw [check]
      exact checkForm_ok _ _ h
  | openMap =>
      rw [check]
      exact checkOpenMap_ok h
  | object fields =>
      rw [check]
      split
      next hkeyed =>
        -- a default is taken over unchecked, so only what is read has to be tame
        obtain ⟨checked, hchecked⟩ := checkFields_ok fields h hkeyed
        exact ⟨_, Outcome.bind_eq_ok.mpr ⟨checked, hchecked, rfl⟩⟩
      next => exact Checked.wrongType_ok h .object
  | list item =>
      cases v with
      | list items =>
          rw [check]
          obtain ⟨checked, hchecked⟩ :=
            checkItems_ok (fun value hmem => check_ok item (h.of_item hmem)) 0
          exact ⟨_, Outcome.bind_eq_ok.mpr ⟨checked, hchecked, rfl⟩⟩
      | _ => simpa only [check] using Checked.wrongType_ok h .array
  | anything =>
      rw [check]
      exact ⟨_, rfl⟩
termination_by sizeOf validator

theorem checkFields_ok (fields : List (String × Presence × Validator)) {v : Value} (h : v.IsTame)
    (hkeyed : v.isKeyed) : ∃ checked, checkFields fields v = .ok checked := by
  match fields with
  | [] => exact ⟨{}, by rw [checkFields]⟩
  | (name, presence, validator) :: rest =>
      obtain ⟨first, hfirst⟩ := presence.check_ok (check_ok validator (h.read hkeyed name))
      obtain ⟨others, hothers⟩ := checkFields_ok rest h hkeyed
      rw [checkFields]
      exact ⟨_, Outcome.bind_eq_ok.mpr
        ⟨first, hfirst, Outcome.bind_eq_ok.mpr ⟨others, hothers, rfl⟩⟩⟩
termination_by sizeOf fields

end

/-- The issues of an object stand under its fields, each as the field's own check found it. -/
theorem mem_issues_checkFields {fields : List (String × Presence × Validator)} {v : Value}
    {checked : CheckedFields} (h : checkFields fields v = .ok checked) {i : Issue} :
    i ∈ checked.issues ↔ ∃ name presence validator found inner,
      (name, presence, validator) ∈ fields ∧
        presence.check (check validator) (v.read name) = .ok found ∧
        inner ∈ found.issues ∧ i = inner.within name := by
  induction fields generalizing checked with
  | nil =>
      rw [checkFields] at h
      obtain rfl := Except.ok.inj h
      simp
  | cons field rest ih =>
      obtain ⟨name, presence, validator⟩ := field
      rw [checkFields] at h
      obtain ⟨first, hfirst, h⟩ := Outcome.bind_eq_ok.mp h
      obtain ⟨others, hothers, h⟩ := Outcome.bind_eq_ok.mp h
      obtain rfl := Outcome.pure_eq_ok.mp h
      rw [List.mem_append, ih hothers]
      constructor
      · rintro (hfound | ⟨other, p, w, found, inner, hmem, hrest⟩)
        · obtain ⟨inner, hinner, rfl⟩ := List.mem_map.mp hfound
          exact ⟨name, presence, validator, first, inner, List.mem_cons_self, hfirst, hinner, rfl⟩
        · exact ⟨other, p, w, found, inner, List.mem_cons_of_mem _ hmem, hrest⟩
      · rintro ⟨other, p, w, found, inner, hmem, hfound, hinner, rfl⟩
        rcases List.mem_cons.mp hmem with heq | hmem
        · obtain ⟨rfl, rfl, rfl⟩ : other = name ∧ p = presence ∧ w = validator := by simpa using heq
          obtain rfl := Except.ok.inj (hfirst.symm.trans hfound)
          exact .inl (List.mem_map_of_mem hinner)
        · exact .inr ⟨other, p, w, found, inner, hmem, hfound, hinner, rfl⟩

end Validator

end FieldSchema
