import Mathlib
import FieldSchema.Proofs.Deletion
import FieldSchema.Proofs.UnknownMembers

/-!
# Checking a value again

A value that was taken over from an accepted input is accepted as it is: a second check changes
nothing. What the first check left out stays missing, null stays null, and what it took over is taken
over again. Defaults are the exception, for they are put in unchecked. They have to be values that
their own rules accept. A member that was left out must also stay missing when it is read again, so
that no field may have a name that every object inherits.
-/

namespace FieldSchema

/-- A rule stands in a descriptor, at any depth. -/
inductive Descriptor.HoldsRule : Descriptor → Rule → Prop
  /-- One of its own rules. -/
  | here {d : Descriptor} {rule : Rule} (hrule : rule ∈ d) : HoldsRule d rule
  /-- A rule for a field inside the value, or inside the elements, of one of its rules. -/
  | inside {d inner : Descriptor} {outer rule : Rule} (houter : outer ∈ d)
      (hinner : outer.inner? = some inner) (h : HoldsRule inner rule) : HoldsRule d rule

/-- What a rule puts in place of a missing value is accepted by the rule itself, unchanged. -/
def Rule.AcceptsItsDefault (rule : Rule) : Prop :=
  ∀ validator default, Validator.ofRule rule = .ok validator →
    (Presence.ofHead rule.head).default = some default →
      (Presence.ofHead rule.head).check validator.check default = .ok (.clean default)

/-- A rule has a name that is not inherited, and accepts its default. -/
structure Rule.IsRepeatable (rule : Rule) : Prop where
  isInheritedName_eq_false : Value.isInheritedName rule.name = false
  acceptsItsDefault : rule.AcceptsItsDefault

/-- A check takes over again what it took over once, unchanged. -/
def Settles (check : Value → Outcome Checked) : Prop :=
  ∀ v taken, check v = .ok (.clean taken) → check taken = .ok (.clean taken)

/-! ## Checks that take values over as they are -/

/-- A check that comes to a result takes over the value that it was given. -/
def KeepsValue (check : Value → Outcome Checked) : Prop :=
  ∀ v checked, check v = .ok checked → checked.value = v

theorem KeepsValue.settles {check : Value → Outcome Checked} (h : KeepsValue check) :
    Settles check := by
  intro v taken hclean
  obtain rfl : taken = v := h v _ hclean
  exact hclean

theorem keepsValue_wrongType (expected : Expected) : KeepsValue (Checked.wrongType expected) := by
  intro v checked h
  obtain ⟨received, _, h⟩ := Outcome.bind_eq_ok.mp h
  obtain rfl := Outcome.pure_eq_ok.mp h
  rfl

theorem TextChecks.keepsValue (c : TextChecks) : KeepsValue c.check := by
  intro v checked h
  obtain ⟨lengths, _, h⟩ := Outcome.bind_eq_ok.mp h
  split at h
  next =>
    obtain rfl := Outcome.pure_eq_ok.mp h
    rfl
  next =>
    obtain ⟨received, _, h⟩ := Outcome.bind_eq_ok.mp h
    obtain rfl := Outcome.pure_eq_ok.mp h
    rfl

theorem NumberChecks.keepsValue (c : NumberChecks) : KeepsValue c.check := by
  intro v checked h
  unfold check at h
  split at h
  next x =>
    split at h
    next =>
      obtain rfl := Except.ok.inj h
      rfl
    next => exact keepsValue_wrongType _ _ _ h
  next => exact keepsValue_wrongType _ _ _ h

theorem keepsValue_checkForm (isForm : String → Bool) (otherwise : Cause) :
    KeepsValue (checkForm isForm otherwise) := by
  intro v checked h
  unfold checkForm at h
  split at h
  next s =>
    obtain rfl := Except.ok.inj h
    split <;> rfl
  next => exact keepsValue_wrongType _ _ _ h

theorem checkChoice_value (values : List String) (v : Value) : (checkChoice values v).value = v := by
  unfold checkChoice
  split
  next s => split <;> rfl
  next => rfl

namespace Validator

/-- Whether a validator checks a value as a whole. -/
def isWhole : Validator → Bool
  | .openMap | .object _ | .list _ => false
  | _ => true

theorem keepsValue_check {validator : Validator} (h : validator.isWhole = true) :
    KeepsValue validator.check := by
  intro v checked hcheck
  cases validator with
  | text checks =>
      rw [check] at hcheck
      exact checks.keepsValue v checked hcheck
  | choice values =>
      rw [check] at hcheck
      obtain rfl := Except.ok.inj hcheck
      exact checkChoice_value values v
  | number checks =>
      rw [check] at hcheck
      exact checks.keepsValue v checked hcheck
  | boolean =>
      cases v with
      | bool flag =>
          rw [check] at hcheck
          obtain rfl := Except.ok.inj hcheck
          rfl
      | _ =>
          rw [check] at hcheck
          · exact keepsValue_wrongType _ _ _ hcheck
          · simp
  | date =>
      rw [check] at hcheck
      exact keepsValue_checkForm _ _ _ _ hcheck
  | dateTime =>
      rw [check] at hcheck
      exact keepsValue_checkForm _ _ _ _ hcheck
  | anything =>
      rw [check] at hcheck
      obtain rfl := Except.ok.inj hcheck
      rfl
  | openMap => simp [isWhole] at h
  | object fields => simp [isWhole] at h
  | list item => simp [isWhole] at h

theorem settles_of_isWhole {validator : Validator} (h : validator.isWhole = true) :
    Settles validator.check :=
  (keepsValue_check h).settles

end Validator

/-! ## Objects with any members -/

/-- Whether an object may have any members hinges on its own constructor. -/
theorem openMembers_object (bare : Bool) (members : Record Value) :
    openMembers (.object bare members) =
      (((Record.get? members "constructor").elim (.ok true) isPlainConstructor) >>= fun plain =>
        pure (if plain then some members else none)) := by
  unfold openMembers
  dsimp only
  cases Record.get? members "constructor" <;> rfl

/-- What is taken over of an object with any members may have any members again: the constructor is
not the member that is lost. -/
theorem openMembers_erase_reservedName {v : Value} {members : Record Value}
    (h : openMembers v = .ok (some members)) :
    openMembers (.object false (Record.erase members Record.reservedName)) =
      .ok (some (Record.erase members Record.reservedName)) := by
  rw [openMembers_object, Record.get?_erase, if_neg (by decide)]
  cases v with
  | object bare found =>
      rw [openMembers_object] at h
      obtain ⟨plain, hplain, h⟩ := Outcome.bind_eq_ok.mp h
      have hsome := Outcome.pure_eq_ok.mp h
      cases plain with
      | false => simp at hsome
      | true =>
          obtain rfl : found = members := by simpa using hsome
          exact Outcome.bind_eq_ok.mpr ⟨true, hplain, rfl⟩
  | ancestor common =>
      cases common with
      | ofObjects =>
          obtain rfl : [] = members := Option.some.inj (Except.ok.inj h)
          rfl
      | _ => cases h
  | _ => cases h

theorem settles_checkOpenMap : Settles checkOpenMap := by
  intro v taken h
  unfold checkOpenMap at h
  obtain ⟨opened, hopened, h⟩ := Outcome.bind_eq_ok.mp h
  cases opened with
  | none =>
      obtain ⟨received, _, h⟩ := Outcome.bind_eq_ok.mp h
      cases congrArg Checked.issues (Outcome.pure_eq_ok.mp h)
  | some members =>
      obtain rfl := congrArg Checked.value (Outcome.pure_eq_ok.mp h)
      refine Outcome.bind_eq_ok.mpr ⟨_, openMembers_erase_reservedName hopened, ?_⟩
      simp only [Record.erase_erase]
      rfl

/-! ## Fields and items -/

namespace Presence

theorem check_null (p : Presence) (inner : Value → Outcome Checked) :
    p.check inner .null = if p.nullable then .ok (.clean .null) else inner .null := rfl

/-- What a check takes over is taken over where null and missing values are allowed too. -/
theorem check_of_clean {p : Presence} {inner : Value → Outcome Checked} {taken : Value}
    (hpresent : taken ≠ .absent) (h : inner taken = .ok (.clean taken)) :
    p.check inner taken = .ok (.clean taken) := by
  cases taken with
  | absent => exact absurd rfl hpresent
  | null =>
      rw [check_null]
      split
      · rfl
      · exact h
  | _ => exact h

/-- A field settles when the check of its type does, this check rejects a missing value, and a
default is taken over again. -/
theorem settles {p : Presence} {inner : Value → Outcome Checked} (hinner : Settles inner)
    (hrejects : ∀ taken, inner .absent ≠ .ok (.clean taken))
    (hdefault : ∀ default, p.default = some default →
      p.check inner default = .ok (.clean default)) :
    Settles (p.check inner) := by
  have hchecked : ∀ v taken, inner v = .ok (.clean taken) →
      p.check inner taken = .ok (.clean taken) := by
    intro v taken h
    have hagain := hinner v taken h
    apply check_of_clean _ hagain
    rintro rfl
    exact hrejects _ hagain
  intro v taken h
  unfold check at h
  split at h
  next default hsome =>
    obtain rfl : default = taken := congrArg Checked.value (Except.ok.inj h)
    exact hdefault default hsome
  next hnone =>
    split at h
    next => exact absurd h (hrejects taken)
    next hrequired =>
      obtain rfl : Value.absent = taken := congrArg Checked.value (Except.ok.inj h)
      unfold check
      rw [hnone]
      simp [hrequired]
  next =>
    split at h
    next hnullable =>
      obtain rfl : Value.null = taken := congrArg Checked.value (Except.ok.inj h)
      rw [check_null, if_pos hnullable]
    next => exact hchecked _ _ h
  next => exact hchecked _ _ h

end Presence

/-- Where nothing is wrong with any item, each is taken over. -/
theorem checkItems_cons_clean {check : Value → Outcome Checked} {position : Nat} {item : Value}
    {rest taken : List Value} (h : checkItems check position (item :: rest) = .ok ⟨[], taken⟩) :
    ∃ first others, check item = .ok (.clean first) ∧
      checkItems check (position + 1) rest = .ok ⟨[], others⟩ ∧ taken = first :: others := by
  rw [checkItems] at h
  obtain ⟨⟨issues, first⟩, hfirst, h⟩ := Outcome.bind_eq_ok.mp h
  obtain ⟨⟨restIssues, others⟩, hothers, h⟩ := Outcome.bind_eq_ok.mp h
  obtain ⟨hissues, hitems⟩ := CheckedItems.mk.inj (Outcome.pure_eq_ok.mp h)
  obtain ⟨hnone, rfl⟩ := List.append_eq_nil_iff.mp hissues
  obtain rfl : issues = [] := List.map_eq_nil_iff.mp hnone
  exact ⟨first, others, hfirst, hothers, hitems.symm⟩

theorem checkItems_settles {check : Value → Outcome Checked} (hsettles : Settles check)
    {items : List Value} {position : Nat} {taken : List Value}
    (h : checkItems check position items = .ok ⟨[], taken⟩) :
    checkItems check position taken = .ok ⟨[], taken⟩ := by
  induction items generalizing position taken with
  | nil =>
      rw [checkItems] at h
      cases h
      rfl
  | cons item rest ih =>
      obtain ⟨first, others, hfirst, hothers, rfl⟩ := checkItems_cons_clean h
      rw [checkItems]
      refine Outcome.bind_eq_ok.mpr ⟨_, hsettles item first hfirst, ?_⟩
      exact Outcome.bind_eq_ok.mpr ⟨_, ih hothers, rfl⟩

/-- A name that an object does not list leads to nothing, unless it is inherited. -/
theorem Value.read_eq_absent {bare : Bool} {members : Record Value} {name : String}
    (hname : isInheritedName name = false) (hnone : Record.get? members name = none) :
    (object bare members).read name = .absent := by
  rw [← @read_erase bare members name hname]
  apply read_object_congr
  rw [hnone, Record.get?_erase, if_pos rfl]

namespace Validator

/-- A field takes over again what it took over, and its name is not one that is inherited. -/
structure FieldSettles (field : String × Presence × Validator) : Prop where
  isInheritedName_eq_false : Value.isInheritedName field.1 = false
  settles : Settles (field.2.1.check field.2.2.check)

/-- Where nothing is wrong with any field, the first one takes over a value. The value is lost where
the field is left out. -/
theorem checkFields_cons_clean {name : String} {presence : Presence} {validator : Validator}
    {rest : List (String × Presence × Validator)} {v : Value} {members : Record Value}
    (h : checkFields ((name, presence, validator) :: rest) v = .ok ⟨[], members⟩) :
    ∃ taken others, presence.check validator.check (v.read name) = .ok (.clean taken) ∧
      checkFields rest v = .ok ⟨[], others⟩ ∧
      members = if name = Record.reservedName ||
          presence.leavesOut (Record.has v.ownEntries name) taken
        then others else (name, taken) :: others := by
  rw [checkFields] at h
  obtain ⟨⟨issues, taken⟩, hfirst, h⟩ := Outcome.bind_eq_ok.mp h
  obtain ⟨⟨restIssues, others⟩, hothers, h⟩ := Outcome.bind_eq_ok.mp h
  obtain ⟨hissues, hmembers⟩ := CheckedFields.mk.inj (Outcome.pure_eq_ok.mp h)
  obtain ⟨hnone, rfl⟩ := List.append_eq_nil_iff.mp hissues
  obtain rfl : issues = [] := List.map_eq_nil_iff.mp hnone
  exact ⟨taken, others, hfirst, hothers, hmembers.symm⟩

theorem checkFields_cons_of_clean {name : String} {presence : Presence} {validator : Validator}
    {rest : List (String × Presence × Validator)} {v taken : Value} {others : Record Value}
    (hfirst : presence.check validator.check (v.read name) = .ok (.clean taken))
    (hothers : checkFields rest v = .ok ⟨[], others⟩) :
    checkFields ((name, presence, validator) :: rest) v =
      .ok ⟨[], if name = Record.reservedName ||
          presence.leavesOut (Record.has v.ownEntries name) taken
        then others else (name, taken) :: others⟩ := by
  rw [checkFields]
  exact Outcome.bind_eq_ok.mpr ⟨_, hfirst, Outcome.bind_eq_ok.mpr ⟨_, hothers, rfl⟩⟩

theorem FieldSettles.ne_reservedName {field : String × Presence × Validator}
    (h : FieldSettles field) : field.1 ≠ Record.reservedName := by
  intro heq
  have hname := h.isInheritedName_eq_false
  rw [heq] at hname
  exact absurd hname (by decide)

/-- A member that was left out is missing, and is left out again. -/
theorem FieldSettles.leftOut_again {name : String} {presence : Presence} {validator : Validator}
    (h : FieldSettles (name, presence, validator)) {taken : Value} {own : Bool}
    (hleft : presence.leavesOut own taken = true) {whole : Record Value}
    (hnone : Record.get? whole name = none) :
    presence.check validator.check ((Value.object false whole).read name) = .ok (.clean taken) ∧
      presence.leavesOut (Record.has whole name) taken = true := by
  have hhas : Record.has whole name = false := by simp [Record.has, hnone]
  obtain ⟨⟨hoptional, habsent⟩, -⟩ : (presence.isOptional = true ∧ taken.isAbsent = true) ∧
      own = false := by simpa [Presence.leavesOut] using hleft
  obtain rfl : taken = .absent := by
    cases taken with
    | absent => rfl
    | _ => simp [Value.isAbsent] at habsent
  rw [Value.read_eq_absent h.isInheritedName_eq_false hnone]
  obtain ⟨hrequired, hdefault⟩ : presence.required = false ∧ presence.default = none := by
    simpa [Presence.isOptional] using hoptional
  constructor
  · simp [Presence.check, hrequired, hdefault]
  · simp [Presence.leavesOut, hoptional, habsent, hhas]

/-- A member that was taken over is read back, and is taken over again. -/
theorem FieldSettles.kept_again {name : String} {presence : Presence} {validator : Validator}
    (h : FieldSettles (name, presence, validator)) {given taken : Value}
    (htaken : presence.check validator.check given = .ok (.clean taken)) {whole : Record Value}
    (hsome : Record.get? whole name = some taken) :
    presence.check validator.check ((Value.object false whole).read name) = .ok (.clean taken) ∧
      presence.leavesOut (Record.has whole name) taken = false := by
  have hhas : Record.has whole name = true := by simp [Record.has, hsome]
  rw [Value.read_object_of_get? hsome]
  exact ⟨h.settles _ _ htaken, by simp [Presence.leavesOut, hhas]⟩

/-- Fields of distinct names take over the same members again from any object that has them. -/
theorem checkFields_settles {fields : List (String × Presence × Validator)} {v : Value}
    {members whole : Record Value} (hnodup : (Record.names fields).Nodup)
    (hfields : ∀ field ∈ fields, FieldSettles field)
    (h : checkFields fields v = .ok ⟨[], members⟩)
    (hwhole : ∀ field ∈ fields, Record.get? whole field.1 = Record.get? members field.1) :
    checkFields fields (.object false whole) = .ok ⟨[], members⟩ := by
  induction fields generalizing members with
  | nil => simpa [checkFields] using h
  | cons field rest ih =>
      obtain ⟨name, presence, validator⟩ := field
      obtain ⟨hfresh, hrest⟩ := List.nodup_cons.mp hnodup
      obtain ⟨hfield, hsettle⟩ := List.forall_mem_cons.mp hfields
      obtain ⟨taken, others, htaken, hothers, rfl⟩ := checkFields_cons_clean h
      have hreserved : name ≠ Record.reservedName := hfield.ne_reservedName
      simp only [hreserved, decide_false, Bool.false_or] at hwhole ⊢
      obtain ⟨hget, hgetRest⟩ := List.forall_mem_cons.mp hwhole
      -- the members of the later fields have other names
      have hnone : Record.get? others name = none := by
        rw [Record.get?_eq_none_iff]
        intro hmem
        obtain ⟨member, hmember, rfl⟩ := List.mem_map.mp hmem
        obtain ⟨later, hlater, hname, _⟩ := clean_field_of_checkFields hothers rfl hmember
        exact hfresh (hname ▸ List.mem_map_of_mem hlater)
      cases hleft : presence.leavesOut (Record.has v.ownEntries name) taken with
      | true =>
          simp only [hleft, if_true] at hget hgetRest ⊢
          obtain ⟨hcheck, hagain⟩ := hfield.leftOut_again hleft (hget.trans hnone)
          have hlast := checkFields_cons_of_clean hcheck (ih hrest hsettle hothers hgetRest)
          simpa [hreserved, Value.ownEntries, hagain] using hlast
      | false =>
          simp only [hleft] at hget hgetRest ⊢
          have hsome : Record.get? whole name = some taken := by simpa [Record.get?_cons] using hget
          have hsame : ∀ later ∈ rest, Record.get? whole later.1 = Record.get? others later.1 := by
            intro later hlater
            have hmem : later.1 ∈ Record.names rest := List.mem_map_of_mem hlater
            have hne : later.1 ≠ name := fun heq => hfresh (heq ▸ hmem)
            simpa [Record.get?_cons, hne] using hgetRest later hlater
          obtain ⟨hcheck, hagain⟩ := hfield.kept_again htaken hsome
          have hlast := checkFields_cons_of_clean hcheck (ih hrest hsettle hothers hsame)
          simpa [hreserved, Value.ownEntries, hagain] using hlast

theorem settles_object {fields : List (String × Presence × Validator)}
    (hnodup : (Record.names fields).Nodup) (hfields : ∀ field ∈ fields, FieldSettles field) :
    Settles (Validator.object fields).check := by
  intro v taken h
  obtain ⟨⟨issues, members⟩, hchecked, hissues, rfl⟩ := eq_object_of_check_clean h
  obtain rfl : issues = [] := hissues
  have hagain : checkFields fields (.object false members) = .ok ⟨[], members⟩ :=
    checkFields_settles hnodup hfields hchecked fun _ _ => rfl
  rw [check]
  exact Outcome.bind_eq_ok.mpr ⟨_, hagain, rfl⟩

theorem settles_list {item : Validator} (hitem : Settles item.check) :
    Settles (Validator.list item).check := by
  intro v taken h
  cases v with
  | list items =>
      rw [check] at h
      obtain ⟨⟨issues, values⟩, hchecked, h⟩ := Outcome.bind_eq_ok.mp h
      have hclean := Outcome.pure_eq_ok.mp h
      obtain rfl : issues = [] := congrArg Checked.issues hclean
      obtain rfl : .list values = taken := congrArg Checked.value hclean
      rw [check]
      exact Outcome.bind_eq_ok.mpr ⟨_, checkItems_settles hitem hchecked, rfl⟩
  | _ =>
      rw [check] at h
      · obtain ⟨received, _, h⟩ := Outcome.bind_eq_ok.mp h
        cases congrArg Checked.issues (Outcome.pure_eq_ok.mp h)
      · simp

theorem settles_openMap : Settles Validator.openMap.check := by
  intro v taken h
  rw [check] at h ⊢
  exact settles_checkOpenMap v taken h

/-! ## Validators of rules -/

theorem settles_ofItem (item : ItemType) : Settles (ofItem item).check := by
  cases item with
  | string => exact settles_of_isWhole rfl
  | integer => exact settles_of_isWhole rfl
  | map => exact settles_openMap

theorem settles_ofType {type : RuleType} {c : Constraints} {map item : Outcome Validator}
    (hmap : ∀ found, map = .ok found → Settles found.check)
    (hitem : ∀ found, item = .ok found → Settles found.check) {validator : Validator}
    (h : ofType type c map item = .ok validator) : Settles validator.check := by
  cases type with
  | map => exact hmap validator h
  | array =>
      obtain ⟨found, hfound, h⟩ := Outcome.bind_eq_ok.mp h
      obtain rfl := Outcome.pure_eq_ok.mp h
      exact settles_list (hitem found hfound)
  | string =>
      unfold ofType at h
      dsimp only at h
      split at h
      next =>
        obtain rfl := Except.ok.inj h
        exact settles_of_isWhole rfl
      next =>
        obtain ⟨checks, _, h⟩ := Outcome.bind_eq_ok.mp h
        obtain rfl := Outcome.pure_eq_ok.mp h
        exact settles_of_isWhole rfl
  | _ =>
      obtain rfl := Except.ok.inj h
      exact settles_of_isWhole rfl

/-- Each field that rules describe stems from one of them. -/
theorem exists_rule_of_mem_ofFields {rules : List Rule}
    {fields : List (String × Presence × Validator)} (h : ofFields rules = .ok fields)
    {field : String × Presence × Validator} (hfield : field ∈ fields) :
    ∃ rule ∈ rules, ofRule rule = .ok field.2.2 ∧ field.1 = rule.name ∧
      field.2.1 = Presence.ofHead rule.head := by
  induction rules generalizing fields with
  | nil =>
      rw [ofFields] at h
      obtain rfl := Except.ok.inj h
      simp at hfield
  | cons first rest ih =>
      rw [ofFields] at h
      obtain ⟨validator, hvalidator, h⟩ := Outcome.bind_eq_ok.mp h
      obtain ⟨others, hothers, h⟩ := Outcome.bind_eq_ok.mp h
      obtain rfl := Outcome.pure_eq_ok.mp h
      rcases List.mem_cons.mp hfield with rfl | hmem
      · exact ⟨first, List.mem_cons_self, hvalidator, rfl, rfl⟩
      · obtain ⟨rule, hrule, hspec⟩ := ih hothers hmem
        exact ⟨rule, List.mem_cons_of_mem _ hrule, hspec⟩

theorem fieldSettles_ofRule {rule : Rule} (hrule : rule.IsRepeatable) {validator : Validator}
    (hvalidator : ofRule rule = .ok validator) (hsettles : Settles validator.check) :
    FieldSettles (rule.name, Presence.ofHead rule.head, validator) where
  isInheritedName_eq_false := hrule.isInheritedName_eq_false
  settles := by
    apply Presence.settles hsettles
    · intro taken htaken
      obtain ⟨cause, hcause⟩ := check_absent (ofRule_ne_anything hvalidator)
      rw [hcause] at htaken
      cases congrArg Checked.issues (Except.ok.inj htaken)
    · intro default hdefault
      exact hrule.acceptsItsDefault validator default hvalidator hdefault

mutual

/-- The validator of a rule settles where the rules inside it can be repeated. -/
theorem settles_ofRule (rule : Rule)
    (hinner : ∀ inner, rule.inner? = some inner → ∀ below, Descriptor.HoldsRule inner below →
      below.IsRepeatable)
    {validator : Validator} (h : ofRule rule = .ok validator) : Settles validator.check := by
  have hopen : ∀ found, (Except.ok Validator.openMap : Outcome Validator) = .ok found →
      Settles found.check := by
    intro found hfound
    obtain rfl := Except.ok.inj hfound
    exact settles_openMap
  cases rule with
  | plain head =>
      rw [ofRule] at h
      refine settles_ofType hopen ?_ h
      intro found hfound
      obtain rfl := Except.ok.inj hfound
      exact settles_of_isWhole rfl
  | fields head inner =>
      rw [ofRule] at h
      refine settles_ofType ?_ ?_ h
      · intro found hfound
        exact settles_ofRules inner (hinner inner rfl) hfound
      · intro found hfound
        obtain rfl := Except.ok.inj hfound
        exact settles_of_isWhole rfl
  | items head item =>
      rw [ofRule] at h
      refine settles_ofType hopen ?_ h
      intro found hfound
      obtain rfl := Except.ok.inj hfound
      exact settles_ofItem item
  | itemFields head inner =>
      rw [ofRule] at h
      refine settles_ofType hopen ?_ h
      intro found hfound
      exact settles_ofRules inner (hinner inner rfl) hfound
termination_by sizeOf rule

/-- The validator of rules settles where each rule, at any depth, can be repeated. -/
theorem settles_ofRules (rules : List Rule)
    (hrules : ∀ rule, Descriptor.HoldsRule rules rule → rule.IsRepeatable)
    {validator : Validator} (h : ofRules rules = .ok validator) : Settles validator.check := by
  rw [ofRules] at h
  obtain ⟨fields, hfields, h⟩ := Outcome.bind_eq_ok.mp h
  obtain rfl := Outcome.pure_eq_ok.mp h
  apply settles_object
  · exact Record.nodup_names_ofList fields
  · intro field hfield
    obtain ⟨rule, hrule, hvalidator, hname, hpresence⟩ :=
      exists_rule_of_mem_ofFields hfields (Record.mem_of_mem_ofList hfield)
    have hsmaller := List.sizeOf_lt_of_mem hrule
    have hsettles : Settles field.2.2.check := by
      refine settles_ofRule rule (fun inner hinner below hbelow => ?_) hvalidator
      exact hrules below (.inside hrule hinner hbelow)
    have hfieldSettles := fieldSettles_ofRule (hrules rule (.here hrule)) hvalidator hsettles
    rwa [← hname, ← hpresence] at hfieldSettles
termination_by sizeOf rules

end

end Validator

/-! ## Verdicts -/

namespace Descriptor

theorem HoldsRule.head_mem_headsOfAll {d : Descriptor} {rule : Rule} (h : d.HoldsRule rule) :
    rule.head ∈ Rule.headsOfAll d := by
  induction h with
  | here hrule => exact Rule.head_mem_headsOfAll hrule
  | @inside d inner outer rule houter hinner _ ih =>
      refine Rule.mem_headsOfAll houter ?_
      cases outer with
      | fields head rules =>
          obtain rfl := Option.some.inj hinner
          exact List.mem_cons_of_mem _ ih
      | itemFields head rules =>
          obtain rfl := Option.some.inj hinner
          exact List.mem_cons_of_mem _ ih
      | plain head => cases hinner
      | items head item => cases hinner

/-- Validation is idempotent: where every default is accepted by the rule that states it, and no
field has a name that every object inherits, the value taken over from an accepted input is accepted
and taken over as it is. -/
theorem judge_idempotent {d : Descriptor} (havoids : d.AvoidsInherited)
    (hdefaults : ∀ rule, d.HoldsRule rule → rule.AcceptsItsDefault) {input value : Value}
    (h : d.judge input = .ok (.accepted value)) : d.judge value = .ok (.accepted value) := by
  obtain ⟨validator, hvalidator, hjudge⟩ := Outcome.bind_eq_ok.mp h
  have hclean := (validator.judge_accepted_iff input value).mp hjudge
  have hsettles : Settles validator.check := by
    refine Validator.settles_ofRules d (fun rule hrule => ?_) hvalidator
    exact ⟨havoids rule.head hrule.head_mem_headsOfAll, hdefaults rule hrule⟩
  rw [judge_eq hvalidator]
  exact (validator.judge_accepted_iff value value).mpr (hsettles input value hclean)

end Descriptor

namespace Schema

/-- A shop with a default title, a note that may be null, a place and lists of tags. -/
def titledShop : Value :=
  .list [
    .list [.text "required", .text "title", .text "string",
      .object false [("default", .text "Untitled"), ("maxLength", .number 20)]],
    .list [.text "optional", .text "note", .text "string",
      .object false [("nullable", .bool true)]],
    .list [.text "optional", .text "place", .text "object",
      .object false [("fields", .list [.list [.text "optional", .text "city", .text "string"]])]],
    .list [.text "optional", .text "tags", .list [.text "array", .text "string"]]]

def placeRules : Descriptor := [.plain ⟨"city", .string, false, {}⟩]

def titledShopRules : Descriptor := [
  .plain ⟨"title", .string, true, { maxLength := some 20, default := some (.text "Untitled") }⟩,
  .plain ⟨"note", .string, false, { nullable := some true }⟩,
  .fields ⟨"place", .map, false, {}⟩ placeRules,
  .items ⟨"tags", .array, false, {}⟩ .string]

/-- Nothing but a note that is null, and a place with an unknown member and a city that is absent. -/
def partialShop : Value :=
  .object false [
    ("admin", .bool true),
    ("note", .null),
    ("place", .object false [("zip", .number 3), ("city", .absent)])]

def partialShopTaken : Value :=
  .object false [
    ("title", .text "Untitled"),
    ("note", .null),
    ("place", .object false [("city", .absent)])]

theorem placeRules_acceptDefaults {rule : Rule} (h : placeRules.HoldsRule rule) :
    rule.AcceptsItsDefault := by
  cases h with
  | here hrule =>
      obtain rfl := List.mem_singleton.mp hrule
      intro validator default _ hdefault
      cases hdefault
  | inside houter hinner _ =>
      obtain rfl := List.mem_singleton.mp houter
      cases hinner

theorem titledShopRules_acceptDefaults {rule : Rule} (h : titledShopRules.HoldsRule rule) :
    rule.AcceptsItsDefault := by
  simp only [titledShopRules] at h
  cases h with
  | here hrule =>
      intro validator default hvalidator hdefault
      rcases List.mem_cons.mp hrule with rfl | hrule
      · -- the default title is a text of at most twenty characters
        obtain rfl : Validator.text { maxLength := some 20 } = validator := by
          have htitle : Validator.ofRule (.plain ⟨"title", .string, true,
              { maxLength := some 20, default := some (.text "Untitled") }⟩) =
                .ok (.text { maxLength := some 20 }) := by cbv
          exact Except.ok.inj (htitle.symm.trans hvalidator)
        obtain rfl : Value.text "Untitled" = default := Option.some.inj hdefault
        rfl
      · simp only [List.mem_cons, List.not_mem_nil, or_false] at hrule
        rcases hrule with rfl | rfl | rfl <;> cases hdefault
  | inside houter hinner h =>
      simp only [List.mem_cons, List.not_mem_nil, or_false] at houter
      rcases houter with rfl | rfl | rfl | rfl
      · cases hinner
      · cases hinner
      · obtain rfl := Option.some.inj hinner
        exact placeRules_acceptDefaults h
      · cases hinner

/-- What is taken over of the partial shop, its default title included, is taken over again. -/
theorem judge_partialShop_again :
    ∃ s, compile "Shop" titledShop alone = .ok (s, []) ∧ s.descriptor = titledShopRules ∧
      s.descriptor.AvoidsInherited ∧
      (∀ rule, s.descriptor.HoldsRule rule → rule.AcceptsItsDefault) ∧
      s.descriptor.judge partialShop = .ok (.accepted partialShopTaken) ∧
      s.descriptor.judge partialShopTaken = .ok (.accepted partialShopTaken) := by
  obtain ⟨s, hs, hdescriptor⟩ : ∃ s, compile "Shop" titledShop alone = .ok (s, []) ∧
      s.descriptor = titledShopRules := ⟨_, rfl, by cbv⟩
  have havoids : s.descriptor.AvoidsInherited := by
    rw [hdescriptor]
    simp only [Descriptor.AvoidsInherited, titledShopRules, placeRules, Rule.headsOfAll, Rule.heads]
    decide
  have hdefaults : ∀ rule, s.descriptor.HoldsRule rule → rule.AcceptsItsDefault := by
    rw [hdescriptor]
    exact fun rule => titledShopRules_acceptDefaults
  have haccepted : s.descriptor.judge partialShop = .ok (.accepted partialShopTaken) := by
    have hvalidator : titledShopRules.validator = .ok (.object [
        ("title", ⟨true, false, some (.text "Untitled")⟩, .text { maxLength := some 20 }),
        ("note", ⟨false, true, none⟩, .text {}),
        ("place", ⟨false, false, none⟩, .object [("city", ⟨false, false, none⟩, .text {})]),
        ("tags", ⟨false, false, none⟩, .list (.text {}))]) := by cbv
    rw [hdescriptor, Descriptor.judge_eq hvalidator]
    rfl
  exact ⟨s, hs, hdescriptor, havoids, hdefaults, haccepted,
    Descriptor.judge_idempotent havoids hdefaults haccepted⟩

end Schema

end FieldSchema
