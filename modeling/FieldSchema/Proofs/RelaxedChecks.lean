import FieldSchema.Proofs.Failures
import FieldSchema.Proofs.Idempotence
import FieldSchema.Proofs.RelaxedSchemas

/-!
# Checks of a relaxed field

A field that need not be there accepts what the required one accepts and takes over the same. Where
the field is there, or has a default, it accepts nothing else. Both pass outwards through the
objects and the lists that hold the field.
-/

namespace FieldSchema

open Outcome

/-- The names of the members that a place leads through. -/
def Place.names (place : Place) : List String :=
  place.filterMap fun selector =>
    match selector with
    | .member name => some name
    | .item _ => none

/-- Each object that the rules describe, at the places with these names of members, has a member of
a name of its own, unless the rule of that name states a default. -/
def Descriptor.Gives (d : Descriptor) (outer : List String) (name : String) (x : Value) : Prop :=
  ∀ place rules object, d.Describes x place rules object → place.names = outer →
    ∀ rule ∈ rules, rule.name = name →
      (Presence.ofHead rule.head).default.isSome = true ∨ Record.has object.ownEntries name = true

/-- The rules inside a rule give the name in the value, or in the elements, that the rule is about.
-/
def Rule.GivesInside (rule : Rule) (outer : List String) (name : String) (v : Value) : Prop :=
  match rule with
  | .fields _ inner => Descriptor.Gives inner outer name v
  | .itemFields _ inner =>
      ∀ items, v = .list items → ∀ item ∈ items, Descriptor.Gives inner outer name item
  | _ => True

/-- A loose validator accepts what the strict one accepts, and takes over the same. Given a
condition on the value, the strict one accepts what the loose one accepts. -/
structure Validator.RelaxesTo (Given : Value → Prop) (strict loose : Validator) : Prop where
  keeps : ∀ v taken, strict.check v = .ok (.clean taken) → loose.check v = .ok (.clean taken)
  returns : ∀ v, v.IsJson → Given v → loose.Accepts v → strict.Accepts v

/-- The same for a field of an object, where the condition is on the object. -/
structure Validator.FieldRelaxesTo (Given : Value → Prop)
    (strict loose : String × Presence × Validator) : Prop where
  name_eq : loose.1 = strict.1
  keeps : ∀ v taken, strict.2.1.check strict.2.2.check v = .ok (.clean taken) →
    loose.2.1.check loose.2.2.check v = .ok (.clean taken) ∧
      ∀ own, loose.2.1.leavesOut own taken = strict.2.1.leavesOut own taken
  returns : ∀ bare members, (Value.object bare members).IsJson → Given (.object bare members) →
    IsClean (checkField loose (.object bare members)) →
      IsClean (checkField strict (.object bare members))

namespace Value.IsJson

theorem isAbsent_eq_false {v : Value} (h : v.IsJson) : v.isAbsent = false := by
  cases h <;> rfl

theorem member {bare : Bool} {members : Record Value} (h : (Value.object bare members).IsJson)
    {name : String} {value : Value} (hvalue : Record.get? members name = some value) :
    value.IsJson := by
  cases h with
  | object heach => exact heach _ (Record.mem_of_get? hvalue)

theorem item {items : List Value} (h : (Value.list items).IsJson) {item : Value}
    (hitem : item ∈ items) : item.IsJson := by
  cases h with
  | list heach => exact heach item hitem

end Value.IsJson

/-! ## Conditions inside -/

namespace Descriptor.Gives

variable {d : Descriptor} {outer : List String} {name : String} {bare : Bool}
  {members : Record Value}

theorem inside {rule : Rule} (h : d.Gives (rule.name :: outer) name (.object bare members))
    (hrule : rule ∈ d) {v : Value} (hvalue : Record.get? members rule.name = some v) :
    rule.GivesInside outer name v := by
  cases rule with
  | plain head => trivial
  | items head item => trivial
  | fields head inner =>
      intro place rules object hdescribes hnames
      refine h (.member head.name :: place) rules object (.field hrule hvalue hdescribes) ?_
      exact congrArg (head.name :: ·) hnames
  | itemFields head inner =>
      rintro items rfl item hitem place rules object hdescribes hnames
      obtain ⟨position, hposition, rfl⟩ := List.mem_iff_getElem.mp hitem
      have hget : items[position]? = some items[position] := List.getElem?_eq_getElem hposition
      refine h (.member head.name :: .item position :: place) rules object
        (.element hrule hvalue hget hdescribes) ?_
      exact congrArg (head.name :: ·) hnames

theorem default_or_has {rule : Rule} (h : d.Gives [] rule.name (.object bare members))
    (hrule : rule ∈ d) :
    (Presence.ofHead rule.head).default.isSome = true ∨ Record.has members rule.name = true :=
  h [] d _ .root rfl rule hrule rfl

end Descriptor.Gives

/-! ## Presence -/

namespace Presence

/-- A check of a value that may be missing either is the inner check or does not ask for it. -/
theorem check_cases (p : Presence) (v : Value) :
    (∀ inner, p.check inner v = inner v) ∨
      ∀ inner other : Value → Outcome Checked, p.check inner v = p.check other v := by
  cases v with
  | absent =>
      cases hdefault : p.default with
      | some default => exact .inr fun _ _ => by simp [check, hdefault]
      | none =>
          cases hrequired : p.required with
          | true => exact .inl fun _ => by simp [check, hdefault, hrequired]
          | false => exact .inr fun _ _ => by simp [check, hdefault, hrequired]
  | null =>
      cases hnullable : p.nullable with
      | true => exact .inr fun _ _ => by simp [check, hnullable]
      | false => exact .inl fun _ => by simp [check, hnullable]
  | _ => exact .inl fun _ => rfl

/-- Whether a field is required matters for a missing value without a default only. -/
theorem check_optional (p : Presence) (inner : Value → Outcome Checked) {v : Value}
    (h : p.default.isSome = true ∨ v.isAbsent = false) :
    { p with required := false }.check inner v = p.check inner v := by
  cases v with
  | absent =>
      rcases h with hdefault | hpresent
      · obtain ⟨default, hdefault⟩ := Option.isSome_iff_exists.mp hdefault
        simp [check, hdefault]
      · cases hpresent
  | _ => rfl

end Presence

namespace Validator

/-- What is taken over of a value that is there is there. -/
theorem isAbsent_of_check {validator : Validator} {v : Value} {checked : Checked}
    (h : validator.check v = .ok checked) (hpresent : v.isAbsent = false) :
    checked.value.isAbsent = false := by
  cases hwhole : validator.isWhole with
  | true =>
      rw [keepsValue_check hwhole v checked h]
      exact hpresent
  | false =>
      cases validator with
      | openMap =>
          rw [check, checkOpenMap] at h
          obtain ⟨members, _, h⟩ := bind_eq_ok.mp h
          cases members with
          | some members =>
              obtain rfl := pure_eq_ok.mp h
              rfl
          | none =>
              rw [keepsValue_wrongType _ v checked h]
              exact hpresent
      | object fields =>
          rw [check] at h
          split at h
          next =>
            obtain ⟨_, _, h⟩ := bind_eq_ok.mp h
            obtain rfl := pure_eq_ok.mp h
            rfl
          next =>
            rw [keepsValue_wrongType _ v checked h]
            exact hpresent
      | list item =>
          cases v with
          | list items =>
              rw [check] at h
              obtain ⟨_, _, h⟩ := bind_eq_ok.mp h
              obtain rfl := pure_eq_ok.mp h
              rfl
          | _ =>
              rw [check] at h
              · rw [keepsValue_wrongType _ _ checked h]
                exact hpresent
              · simp
      | _ => cases hwhole

theorem not_accepts_absent {validator : Validator} (hne : validator ≠ .anything) :
    ¬validator.Accepts .absent := by
  rintro ⟨taken, htaken⟩
  obtain ⟨cause, hcause⟩ := check_absent hne
  cases hcause.symm.trans htaken

/-- What a field takes over of a value that is there is there. -/
theorem isAbsent_of_presence {validator : Validator} {p : Presence} {v taken : Value}
    (h : p.check validator.check v = .ok (.clean taken)) (hpresent : v.isAbsent = false) :
    taken.isAbsent = false := by
  cases hnull : v.isNullish with
  | false =>
      rw [Presence.check_of_present hnull] at h
      exact isAbsent_of_check h hpresent
  | true =>
      obtain rfl : v = .null := by
        cases v with
        | absent => cases hpresent
        | null => rfl
        | _ => cases hnull
      rw [Presence.check] at h
      split at h
      next =>
        cases h
        rfl
      next => exact isAbsent_of_check h hpresent

/-! ## Fields, objects and lists -/

variable {Given : Value → Prop} {strict loose : Validator}

theorem RelaxesTo.refl (validator : Validator) : RelaxesTo Given validator validator where
  keeps _ _ h := h
  returns _ _ _ h := h

theorem FieldRelaxesTo.refl (field : String × Presence × Validator) :
    FieldRelaxesTo Given field field where
  name_eq := rfl
  keeps _ _ h := ⟨h, fun _ => rfl⟩
  returns _ _ _ _ h := h

/-- A field that need not be there relaxes the one that is required. -/
theorem FieldRelaxesTo.optional {name : String} {p : Presence} {validator : Validator}
    (hne : validator ≠ .anything)
    (hgiven : ∀ bare members, Given (.object bare members) →
      p.default.isSome = true ∨ Record.has members name = true) :
    FieldRelaxesTo Given (name, p, validator) (name, { p with required := false }, validator) where
  name_eq := rfl
  keeps v taken h := by
    dsimp only at h ⊢
    by_cases hmissing : p.default.isSome = true ∨ v.isAbsent = false
    · refine ⟨(p.check_optional validator.check hmissing).trans h, fun own => ?_⟩
      rcases hmissing with hdefault | hpresent
      · have hnone : p.default.isNone = false := by simp [← Option.not_isSome, hdefault]
        simp [Presence.leavesOut, Presence.isOptional, hnone]
      · simp [Presence.leavesOut, isAbsent_of_presence h hpresent]
    · -- a required field without a default does not take a missing value
      obtain ⟨hdefault, habsent⟩ := not_or.mp hmissing
      cases v with
      | absent =>
          cases hrequired : p.required with
          | false =>
              have hsame : { p with required := false } = p := by rw [← hrequired]
              rw [hsame]
              exact ⟨h, fun _ => rfl⟩
          | true =>
              rw [Presence.check_absent_required _ hrequired (by simpa using hdefault)] at h
              exact absurd ⟨taken, h⟩ (not_accepts_absent hne)
      | _ => exact absurd rfl habsent
  returns bare members hjson hgive h := by
    unfold checkField at h ⊢
    dsimp only at h ⊢
    rw [← p.check_optional]
    · exact h
    · refine (hgiven bare members hgive).imp_right fun hhas => ?_
      obtain ⟨value, hvalue⟩ := Option.isSome_iff_exists.mp hhas
      rw [Value.read_object_of_get? hvalue]
      exact (hjson.member hvalue).isAbsent_eq_false

/-- A field around a relaxed validator is relaxed, unless its name is inherited. -/
theorem FieldRelaxesTo.inner {Inside : Value → Prop} {name : String} {p : Presence}
    (hname : Value.isInheritedName name = false) (hne : loose ≠ .anything)
    (h : RelaxesTo Inside strict loose)
    (hinside : ∀ bare members value, Given (.object bare members) →
      Record.get? members name = some value → Inside value) :
    FieldRelaxesTo Given (name, p, strict) (name, p, loose) where
  name_eq := rfl
  keeps v taken hclean := by
    refine ⟨?_, fun _ => rfl⟩
    rcases p.check_cases v with hinner | hsame
    · exact (hinner loose.check).trans (h.keeps v taken ((hinner strict.check).symm.trans hclean))
    · exact (hsame loose.check strict.check).trans hclean
  returns bare members hjson hgive hclean := by
    unfold checkField at hclean ⊢
    dsimp only at hclean ⊢
    rcases p.check_cases ((Value.object bare members).read name) with hinner | hsame
    · rw [hinner] at hclean ⊢
      cases hvalue : Record.get? members name with
      | none =>
          rw [Value.read_eq_absent hname hvalue] at hclean
          exact absurd hclean (not_accepts_absent hne)
      | some value =>
          rw [Value.read_object_of_get? hvalue] at hclean ⊢
          exact h.returns value (hjson.member hvalue) (hinside _ _ _ hgive hvalue) hclean
    · rwa [hsame strict.check loose.check]

theorem checkFields_of_relaxes {fields others : List (String × Presence × Validator)}
    (h : List.Forall₂ (FieldRelaxesTo Given) fields others) {v : Value} {members : Record Value}
    (hclean : checkFields fields v = .ok ⟨[], members⟩) :
    checkFields others v = .ok ⟨[], members⟩ := by
  induction h generalizing members with
  | nil => exact hclean
  | @cons field other _ _ hfield _ ih =>
      obtain ⟨name, p, validator⟩ := field
      obtain ⟨_, q, relaxed⟩ := other
      obtain rfl := hfield.name_eq
      obtain ⟨taken, rest, hfirst, hrest, rfl⟩ := checkFields_cons_clean hclean
      obtain ⟨htaken, hleaves⟩ := hfield.keeps _ _ hfirst
      dsimp only at htaken hleaves
      rw [checkFields_cons_of_clean htaken (ih hrest), hleaves]

theorem isClean_of_relaxes {fields others : List (String × Presence × Validator)}
    (h : List.Forall₂ (FieldRelaxesTo Given) fields others) {bare : Bool} {members : Record Value}
    (hjson : (Value.object bare members).IsJson) (hgive : Given (.object bare members))
    (hclean : ∀ other ∈ others, IsClean (checkField other (.object bare members))) :
    ∀ field ∈ fields, IsClean (checkField field (.object bare members)) := by
  induction h with
  | nil => simp
  | cons hfield _ ih =>
      obtain ⟨hfirst, hrest⟩ := List.forall_mem_cons.mp hclean
      exact List.forall_mem_cons.mpr ⟨hfield.returns bare members hjson hgive hfirst, ih hrest⟩

/-- An object whose fields are relaxed is relaxed. -/
theorem RelaxesTo.object {fields others : List (String × Presence × Validator)}
    (h : List.Forall₂ (FieldRelaxesTo Given) fields others) :
    RelaxesTo Given (.object fields) (.object others) where
  keeps v taken hclean := by
    rw [check] at hclean ⊢
    split at hclean
    next hkeyed =>
      rw [if_pos hkeyed]
      obtain ⟨⟨issues, members⟩, hfields, hclean⟩ := bind_eq_ok.mp hclean
      obtain ⟨rfl, rfl⟩ := Checked.mk.inj (pure_eq_ok.mp hclean)
      exact bind_eq_ok.mpr ⟨_, checkFields_of_relaxes h hfields, rfl⟩
    next hother =>
      rw [if_neg hother]
      exact hclean
  returns v hjson hgive hclean := by
    cases hjson with
    | @object bare members hmembers =>
        have heach : ∀ field ∈ fields, IsClean (checkField field (.object bare members)) :=
          isClean_of_relaxes h (.object hmembers) hgive fun other hother =>
            hclean.checkField_isClean hother
        obtain ⟨taken, htaken⟩ := checkFields_of_clean heach
        refine ⟨.object false taken, ?_⟩
        rw [check]
        exact bind_eq_ok.mpr ⟨_, htaken, rfl⟩
    | _ =>
        unfold Accepts at hclean ⊢
        rw [check, if_neg (by simp [Value.isKeyed])] at hclean ⊢
        exact hclean

theorem checkItems_of_relaxes (h : RelaxesTo Given strict loose) {items taken : List Value}
    {position : Nat} (hclean : checkItems strict.check position items = .ok ⟨[], taken⟩) :
    checkItems loose.check position items = .ok ⟨[], taken⟩ := by
  induction items generalizing position taken with
  | nil => exact hclean
  | cons item rest ih =>
      rw [checkItems] at hclean
      obtain ⟨⟨issues, value⟩, hfirst, hclean⟩ := bind_eq_ok.mp hclean
      obtain ⟨⟨restIssues, values⟩, hothers, hclean⟩ := bind_eq_ok.mp hclean
      obtain ⟨hissues, rfl⟩ := CheckedItems.mk.inj (pure_eq_ok.mp hclean)
      obtain ⟨hfirstIssues, hrest⟩ := List.append_eq_nil_iff.mp hissues
      obtain rfl : issues = [] := List.map_eq_nil_iff.mp hfirstIssues
      obtain rfl : restIssues = [] := hrest
      rw [checkItems]
      exact bind_eq_ok.mpr ⟨_, h.keeps item value hfirst, bind_eq_ok.mpr ⟨_, ih hothers, rfl⟩⟩

/-- A list whose elements are relaxed is relaxed. -/
theorem RelaxesTo.list (h : RelaxesTo Given strict loose) :
    RelaxesTo (fun v => ∀ items, v = .list items → ∀ item ∈ items, Given item) (.list strict)
      (.list loose) where
  keeps v taken hclean := by
    cases v with
    | list items =>
        rw [check] at hclean ⊢
        obtain ⟨⟨issues, values⟩, hitems, hclean⟩ := bind_eq_ok.mp hclean
        obtain ⟨rfl, rfl⟩ := Checked.mk.inj (pure_eq_ok.mp hclean)
        exact bind_eq_ok.mpr ⟨_, checkItems_of_relaxes h hitems, rfl⟩
    | _ => simpa only [check] using hclean
  returns v hjson hgive hclean := by
    cases hjson with
    | @list items hitems =>
        have heach : ∀ item ∈ items, strict.Accepts item := fun item hitem =>
          h.returns item (hitems item hitem) (hgive items rfl item hitem) (hclean.item hitem)
        obtain ⟨taken, htaken⟩ := checkItems_of_clean heach 0
        refine ⟨.list taken, ?_⟩
        rw [check]
        exact bind_eq_ok.mpr ⟨_, htaken, rfl⟩
    | _ => simpa only [Accepts, check] using hclean

end Validator

/-! ## Rules -/

theorem Outcome.Alike.imp {α β : Type} {R S : α → β → Prop} {x : Outcome α} {y : Outcome β}
    (h : Alike R x y) (himp : ∀ a b, x = .ok a → y = .ok b → R a b → S a b) : Alike S x y := by
  cases h with
  | ok hab => exact .ok (himp _ _ rfl rfl hab)
  | error failure => exact .error failure

namespace Rule

theorem ofRule_relaxed (rule : Rule) : Validator.ofRule rule.relaxed = Validator.ofRule rule := by
  cases rule <;> rw [relaxed, Validator.ofRule, Validator.ofRule] <;> rfl

theorem name_relaxedAt (way : List String) (rule : Rule) :
    (rule.relaxedAt way).name = rule.name := by
  cases way <;> cases rule <;> rfl

/-- Relaxing inside leaves what a rule itself says. -/
theorem head_relaxedAt {way : List String} (hway : way ≠ []) (rule : Rule) :
    (rule.relaxedAt way).head = rule.head := by
  cases way with
  | nil => exact absurd rfl hway
  | cons name way => cases rule <;> rfl

theorem ofType_alike {R : Validator → Validator → Prop} (hrefl : ∀ validator, R validator validator)
    {type : RuleType} {c : Constraints} {map item otherMap otherItem : Outcome Validator}
    (hmap : Alike R map otherMap)
    (hitem : Alike R (do return .list (← item)) (do return .list (← otherItem))) :
    Alike R (Validator.ofType type c map item) (Validator.ofType type c otherMap otherItem) := by
  cases type with
  | map => exact hmap
  | array => exact hitem
  | _ => exact .of_refl hrefl _

variable {outer : List String} {name : String} {way : List String} (hway : way ≠ [])

include hway

/-- A rule around an inner descriptor that is relaxed is relaxed. -/
theorem ofRule_relaxedAt (hinner : ∀ inner : Descriptor,
      Alike (Validator.RelaxesTo (inner.Gives outer name)) inner.validator
        (inner.withRelaxed way).validator) (rule : Rule) :
    Alike (Validator.RelaxesTo (rule.GivesInside outer name)) (Validator.ofRule rule)
      (Validator.ofRule (rule.relaxedAt way)) := by
  cases way with
  | nil => exact absurd rfl hway
  | cons next way =>
      cases rule with
      | plain head => exact .of_refl Validator.RelaxesTo.refl _
      | items head item => exact .of_refl Validator.RelaxesTo.refl _
      | fields head inner =>
          change Alike _ _ (Validator.ofRule (.fields head
            (Descriptor.withRelaxed (next :: way) inner)))
          rw [Validator.ofRule, Validator.ofRule]
          refine ofType_alike Validator.RelaxesTo.refl (hinner inner) ?_
          exact .of_refl Validator.RelaxesTo.refl _
      | itemFields head inner =>
          change Alike _ _ (Validator.ofRule (.itemFields head
            (Descriptor.withRelaxed (next :: way) inner)))
          rw [Validator.ofRule, Validator.ofRule]
          refine ofType_alike Validator.RelaxesTo.refl (.of_refl Validator.RelaxesTo.refl _) ?_
          exact (hinner inner).bind fun _ _ h => .ok h.list

end Rule

namespace Descriptor

/-- Fields are relaxed when those of the name are. -/
theorem ofFields_modify {Given : Value → Prop} {name : String} {f : Rule → Rule}
    (hname : ∀ rule, (f rule).name = rule.name) {d : Descriptor}
    (hone : ∀ rule ∈ d, rule.name = name →
      Alike (fun strict loose => Validator.FieldRelaxesTo Given
          (rule.name, Presence.ofHead rule.head, strict)
          (rule.name, Presence.ofHead (f rule).head, loose))
        (Validator.ofRule rule) (Validator.ofRule (f rule))) :
    Alike (List.Forall₂ (Validator.FieldRelaxesTo Given)) (Validator.ofFields d)
      (Validator.ofFields (d.modify name f)) := by
  induction d with
  | nil => exact .of_refl (fun _ => List.forall₂_same.mpr fun _ _ => .refl _) _
  | cons rule rest ih =>
      have hrest := ih fun other hother => hone other (List.mem_cons_of_mem _ hother)
      have hfirst : Alike (fun strict loose => Validator.FieldRelaxesTo Given
          (rule.name, Presence.ofHead rule.head, strict)
          ((if rule.name = name then f rule else rule).name,
            Presence.ofHead (if rule.name = name then f rule else rule).head, loose))
          (Validator.ofRule rule)
          (Validator.ofRule (if rule.name = name then f rule else rule)) := by
        split
        next hnamed =>
          rw [hname]
          exact hone rule List.mem_cons_self hnamed
        next => exact .of_refl (fun _ => .refl _) _
      change Alike _ _ (Validator.ofFields ((if rule.name = name then f rule else rule) ::
        Descriptor.modify rest name f))
      rw [Validator.ofFields, Validator.ofFields]
      exact hfirst.bind fun _ _ hfield => hrest.bind fun _ _ hfields => .ok (.cons hfield hfields)

theorem validator_modify {Given : Value → Prop} {d others : Descriptor}
    (h : Alike (List.Forall₂ (Validator.FieldRelaxesTo Given)) (Validator.ofFields d)
      (Validator.ofFields others)) :
    Alike (Validator.RelaxesTo Given) d.validator others.validator := by
  rw [validator, validator, Validator.ofRules, Validator.ofRules]
  refine h.bind fun _ _ hfields => .ok (Validator.RelaxesTo.object ?_)
  exact Record.forall₂_ofList (fun _ _ hfield => hfield.name_eq) hfields

/-- The validator of a descriptor with the rule at a position relaxed accepts what the validator of
the descriptor accepts; and nothing else where the field is given. -/
theorem validator_withRelaxed {outer : List String} {name : String}
    (havoids : ∀ other ∈ outer, Value.isInheritedName other = false) (d : Descriptor) :
    Alike (Validator.RelaxesTo (d.Gives outer name)) d.validator
      (d.withRelaxed (outer ++ [name])).validator := by
  -- on the names around the field, from the outside in
  induction outer generalizing d with
  | nil =>
      refine validator_modify (ofFields_modify (Rule.name_relaxedAt []) fun rule hrule hname => ?_)
      subst hname
      change Alike _ _ (Validator.ofRule rule.relaxed)
      rw [Rule.ofRule_relaxed]
      cases hvalidator : Validator.ofRule rule with
      | error failure => exact .error failure
      | ok validator =>
          have hhead : Presence.ofHead (rule.relaxedAt []).head =
              { Presence.ofHead rule.head with required := false } := by cases rule <;> rfl
          rw [hhead]
          exact .ok (.optional (Validator.ofRule_ne_anything hvalidator) fun bare members hgives =>
            hgives.default_or_has hrule)
  | cons next outer ih =>
      obtain ⟨hnext, hrest⟩ := List.forall_mem_cons.mp havoids
      have hway : outer ++ [name] ≠ [] := by simp
      have hstep : withRelaxed ((next :: outer) ++ [name]) d =
          d.modify next (Rule.relaxedAt (outer ++ [name])) := rfl
      rw [hstep]
      refine validator_modify (ofFields_modify (Rule.name_relaxedAt _) fun rule hrule hname => ?_)
      subst hname
      rw [Rule.head_relaxedAt hway]
      refine (Rule.ofRule_relaxedAt hway (ih hrest) rule).imp fun strict loose _ hloose h => ?_
      exact .inner hnext (Validator.ofRule_ne_anything hloose) h
        fun _ _ _ hgives hvalue => hgives.inside hrule hvalue

section Verdicts

variable {outer : List String} {name : String}
  (havoids : ∀ other ∈ outer, Value.isInheritedName other = false) {d : Descriptor}
  {x value : Value}

include havoids

/-- What is accepted stays accepted, with the same value taken over. -/
theorem judge_withRelaxed (h : d.judge x = .ok (.accepted value)) :
    (d.withRelaxed (outer ++ [name])).judge x = .ok (.accepted value) := by
  obtain ⟨strict, hstrict, hjudge⟩ := bind_eq_ok.mp h
  have halike := @validator_withRelaxed outer name havoids d
  generalize hloose : (d.withRelaxed (outer ++ [name])).validator = relaxed at halike
  rw [hstrict] at halike
  cases halike with
  | @ok _ loose hrelaxes =>
      rw [judge_eq hloose, loose.judge_accepted_iff]
      exact hrelaxes.keeps _ _ ((strict.judge_accepted_iff _ _).mp hjudge)

/-- What is newly accepted does not give the field. -/
theorem judge_of_withRelaxed (hjson : x.IsJson) (hgives : d.Gives outer name x)
    (h : (d.withRelaxed (outer ++ [name])).judge x = .ok (.accepted value)) :
    d.judge x = .ok (.accepted value) := by
  obtain ⟨loose, hloose, hjudge⟩ := bind_eq_ok.mp h
  have halike := @validator_withRelaxed outer name havoids d
  generalize hstrict : d.validator = required at halike
  rw [hloose] at halike
  cases halike with
  | @ok strict _ hrelaxes =>
      have hclean := (loose.judge_accepted_iff _ _).mp hjudge
      obtain ⟨taken, htaken⟩ := hrelaxes.returns x hjson hgives ⟨value, hclean⟩
      obtain rfl : taken = value := by
        cases (hrelaxes.keeps _ _ htaken).symm.trans hclean
        rfl
      rw [judge_eq hstrict, strict.judge_accepted_iff]
      exact htaken

end Verdicts

end Descriptor

end FieldSchema
