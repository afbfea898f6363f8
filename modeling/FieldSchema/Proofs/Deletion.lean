import Mathlib
import FieldSchema.Proofs.Acceptance
import FieldSchema.Proofs.Publishing

/-!
# Deleting a field

When a field is deleted from an accepted input, the new input is rejected exactly when the schema
that is published for the object lists the field as required and gives it no default. The one
complaint then stands under the path of the deleted field. No field may have a name that every
object inherits, for such a name still leads to something when it is deleted.
-/

namespace FieldSchema

/-- No field, at any depth, has a name that every object inherits. -/
def Descriptor.AvoidsInherited (d : Descriptor) : Prop :=
  ∀ head ∈ Rule.headsOfAll d, Value.isInheritedName head.name = false

/-- The value without one member of the object at a place. -/
def Value.withoutMember (v : Value) (place : Place) (name : String) : Value :=
  v.modifyAt (Record.erase · name) place

/-- A deleted name leads to nothing, unless it is inherited. -/
theorem Value.read_erase {bare : Bool} {members : Record Value} {name : String}
    (h : isInheritedName name = false) :
    (object bare (Record.erase members name)).read name = .absent := by
  obtain ⟨hreserved, hshared⟩ : name ≠ Record.reservedName ∧
      Record.get? Ancestor.objectMembers name = none := by
    simpa [isInheritedName, Record.has] using h
  unfold read
  simp only [ownEntries, Record.get?_erase, if_true, if_neg hreserved]
  cases bare <;> simp [shared?, ancestor?, Ancestor.member?, Ancestor.ownMembers, hshared]

/-! ## Checks of a missing value -/

namespace Validator

/-- A missing value has one thing wrong with it, for every validator but the one that takes
anything. -/
theorem check_absent {validator : Validator} (hne : validator ≠ .anything) :
    ∃ cause, validator.check .absent = .ok (.withCauses .absent [cause]) := by
  cases validator with
  | choice values => exact ⟨_, by rw [check]; rfl⟩
  | anything => exact absurd rfl hne
  | boolean =>
      refine ⟨.wrongType .boolean "undefined", ?_⟩
      rw [check]
      · rfl
      · simp
  | list item =>
      refine ⟨.wrongType .array "undefined", ?_⟩
      rw [check]
      · rfl
      · simp
  | _ => exact ⟨_, by rw [check]; rfl⟩

end Validator

namespace Presence

/-- A rule leaves a missing value missing, or replaces it, unless it is required without a
default. -/
theorem check_absent_clean {p : Presence} {inner : Value → Outcome Checked}
    (h : ¬(p.required = true ∧ p.default = none)) : Outcome.IsClean (p.check inner .absent) := by
  unfold check
  cases hdefault : p.default with
  | some default => exact ⟨default, rfl⟩
  | none =>
      have hrequired : p.required = false := by simpa [hdefault] using h
      exact ⟨.absent, by simp [hrequired]⟩

theorem check_absent_required {p : Presence} (inner : Value → Outcome Checked)
    (hrequired : p.required = true) (hdefault : p.default = none) :
    p.check inner .absent = inner .absent := by
  simp [check, hdefault, hrequired]

theorem default_ofHead_eq_none_iff (head : RuleHead) :
    (ofHead head).default = none ↔ (head.constraints.default.getD .absent).isAbsent = true := by
  cases hdefault : head.constraints.default with
  | none => simp [ofHead, hdefault, Value.isAbsent]
  | some default =>
      cases default <;> simp [ofHead, hdefault, defaultOf, Value.toOption, Value.isAbsent]

end Presence

/-! ## What is published for a rule -/

namespace Node

theorem SaysSameAs.required_eq {n : Node} {head : RuleHead} (h : n.SaysSameAs head) :
    n.required = head.required := by
  simpa [published?_required] using h.required

theorem SaysSameAs.published?_default {n : Node} {head : RuleHead} (h : n.SaysSameAs head) :
    n.published? "default" = head.constraints.default := by
  rw [h.keyword "default" (by simp [sharedKeywords])]
  simp [Constraints.entries, Record.get?_append, Record.get?_ofOption]

end Node

open Publication

/-- An object's published schema demands a field exactly when the rule for the field requires a
value and has no default. -/
theorem Node.demands_publicForm_iff {n : Node} {properties : Record Node} {rules : Descriptor}
    (hproperties : n.properties? = some properties) (hblock : Node.BlockAgrees properties rules)
    {rule : Rule} (hrule : rule ∈ rules) :
    Demands n.publicForm rule.name ↔
      (Presence.ofHead rule.head).required = true ∧ (Presence.ofHead rule.head).default = none := by
  obtain ⟨property, hget, hagrees⟩ := hblock.2.2.of_mem hrule
  have hsame := hagrees.saysSameAs
  have hdefault : property.publicForm.member "default" =
      rule.head.constraints.default.getD .absent := by
    rw [member_publicForm _ (by simp [structuralNames]), hsame.published?_default]
  rw [Demands, requires_publicForm_iff hproperties hblock.1,
    member_publicForm_property hproperties hblock.1 hget, hdefault,
    Presence.default_ofHead_eq_none_iff]
  simp [hget, hsame.required_eq, Presence.ofHead]

/-! ## Verdicts -/

/-- A single issue is all that is reported. -/
theorem Validator.judge_single {validator : Validator} {input taken : Value} {i : Issue}
    (hcheck : validator.check input = .ok ⟨[i], taken⟩) (hfree : ¬i.IsUnderInherited) :
    validator.judge input = .ok (.rejected [(i.key, [i.cause.message])]) := by
  have hkey : Value.isInheritedName i.key = false := by
    rw [Bool.eq_false_iff, ne_eq, i.isInheritedName_key_iff]
    exact hfree
  have hissues : FieldErrors.ofIssues [i] = .ok [(i.key, [i.cause.message])] := by
    refine Outcome.bind_eq_ok.mpr ⟨_, ?_, rfl⟩
    simp [FieldErrors.add, hkey]
  rw [judge, hcheck]
  exact Outcome.bind_eq_ok.mpr ⟨_, rfl, Outcome.bind_eq_ok.mpr ⟨_, hissues, rfl⟩⟩

namespace Descriptor.Describes

variable {d rules : Descriptor} {v object : Value} {place : Place}

/-- When a field of an accepted input is deleted, the check finds what it finds for the missing
value of that field, under the path of the field. -/
theorem check_withoutMember (h : d.Describes v place rules object) {properties : Record Node}
    (hblock : Node.BlockAgrees properties d) (hnodup : rules.names.Nodup) {validator : Validator}
    (hvalidator : d.validator = .ok validator) (haccepts : validator.Accepts v) {rule : Rule}
    (hrule : rule ∈ rules) (hname : Value.isInheritedName rule.name = false) :
    ∃ field, Validator.ofRule rule = .ok field ∧
      ∀ found, (Presence.ofHead rule.head).check field.check .absent = .ok found →
        ∃ taken, validator.check (v.withoutMember place rule.name) =
          .ok ⟨found.issues.map (Issue.below (place.path ++ [rule.name])), taken⟩ := by
  obtain ⟨inner, hinner, hobject, hchange⟩ := h.check hblock hvalidator haccepts
  obtain ⟨bare, members, rfl⟩ := h.object_isObject
  obtain ⟨fields, rfl, hfieldNames, hfields⟩ := Validator.ofRules_eq_ok hnodup hinner
  obtain ⟨field, hfield, hmem⟩ := hfields rule hrule
  refine ⟨field, hfield, fun found hfound => ?_⟩
  have hsame : ∀ name, name ≠ rule.name →
      Record.get? (Record.erase members rule.name) name = Record.get? members name := by
    intro name hne
    rw [Record.get?_erase, if_neg hne]
  have hmissing : Validator.checkField (rule.name, Presence.ofHead rule.head, field)
      (.object bare (Record.erase members rule.name)) = .ok found := by
    rw [Validator.checkField, Value.read_erase hname]
    exact hfound
  obtain ⟨left, hleft⟩ := hobject.check_changed hfieldNames hmem hsame hmissing
  obtain ⟨taken, htaken⟩ := hchange (Record.erase · rule.name) _ hleft
  refine ⟨taken, ?_⟩
  rw [Value.withoutMember, htaken, List.map_map]
  congr 2
  refine List.map_congr_left fun i _ => ?_
  simp [Issue.below, Issue.within]

end Descriptor.Describes

namespace Schema

/-- Deleting a field from an accepted input gives a rejected one exactly when the published schema
of the object that held the field lists it as required and gives it no default. The errors then have
one entry, under the path of the field. -/
theorem IsCompiled.judge_withoutMember {s : Schema} (hs : s.IsCompiled)
    (havoids : s.descriptor.AvoidsInherited) {x value : Value}
    (haccepted : s.descriptor.judge x = .ok (.accepted value)) {place : Place}
    {rules : Descriptor} {object : Value} (h : s.descriptor.Describes x place rules object)
    {rule : Rule} (hrule : rule ∈ rules) :
    ∃ published, schemaObject s.documentation.toValue = .ok published ∧
      (Demands (schemaAt published place) rule.name →
        ∃ messages, s.descriptor.judge (x.withoutMember place rule.name) =
          .ok (.rejected [(String.intercalate "." (place.path ++ [rule.name]), messages)])) ∧
      (¬Demands (schemaAt published place) rule.name →
        ∃ taken, s.descriptor.judge (x.withoutMember place rule.name) =
          .ok (.accepted taken)) := by
  obtain ⟨_, _, properties, hproperties, hblock⟩ := hs.agrees
  obtain ⟨validator, hvalidator, haccepts⟩ := Descriptor.accepts_of_judge haccepted
  obtain ⟨node, inner, _, hpublished, hinner, hinnerBlock⟩ := h.documented hproperties hblock
  have hname := havoids rule.head (h.mem_headsOfAll (Rule.head_mem_headsOfAll hrule))
  obtain ⟨field, hfield, hcheck⟩ := h.check_withoutMember hblock hinnerBlock.nodup_names hvalidator
    haccepts hrule hname
  refine ⟨_, Node.schemaObject_toValue s.documentation, ?_⟩
  rw [hpublished, Node.demands_publicForm_iff hinner hinnerBlock hrule,
    Descriptor.judge_eq hvalidator]
  constructor
  · rintro ⟨hrequired, hdefault⟩
    obtain ⟨cause, hcause⟩ := Validator.check_absent (Validator.ofRule_ne_anything hfield)
    have hmissing := Presence.check_absent_required field.check hrequired hdefault
    obtain ⟨taken, htaken⟩ := hcheck _ (hmissing.trans hcause)
    -- the field is not an inherited one, so its complaint is not lost
    have hfree : ¬Issue.IsUnderInherited ⟨place.path ++ [rule.name], cause⟩ := by
      rintro ⟨other, hpath, hinherited⟩
      obtain ⟨-, rfl⟩ : place.path = [] ∧ rule.name = other := by
        simpa [List.append_eq_singleton_iff] using hpath
      simp [Rule.name, hname] at hinherited
    have hkey : Issue.key ⟨place.path ++ [rule.name], cause⟩ =
        String.intercalate "." (place.path ++ [rule.name]) := by simp [Issue.key]
    have hsingle : validator.check (x.withoutMember place rule.name) =
        .ok ⟨[⟨place.path ++ [rule.name], cause⟩], taken⟩ := by
      simpa [Checked.withCauses, Issue.below] using htaken
    exact ⟨[cause.message], hkey ▸ Validator.judge_single hsingle hfree⟩
  · intro hdemands
    obtain ⟨left, hleft⟩ := Presence.check_absent_clean hdemands
    obtain ⟨taken, htaken⟩ := hcheck _ hleft
    exact ⟨taken, (validator.judge_accepted_iff _ _).mpr htaken⟩

/-- A basket of lines, each with a code. -/
def basketLines : Value :=
  .list [.list [.text "required", .text "lines", .list [.text "array", .text "map"],
    .object false [("fields", .list [.list [.text "required", .text "code", .text "string"]])]]]

def lineRules : Descriptor := [.plain ⟨"code", .string, true, {}⟩]

def basketRules : Descriptor := [.itemFields ⟨"lines", .array, true, {}⟩ lineRules]

def codedLine : Value := .object false [("code", .text "AB")]

def basket : Value := .object false [("lines", .list [codedLine])]

/-- The code of the first line of a basket may be deleted. -/
theorem judge_withoutMember_code :
    ∃ s, compile "Basket" basketLines alone = .ok (s, []) ∧ s.descriptor = basketRules ∧
      s.descriptor.AvoidsInherited ∧ s.descriptor.judge basket = .ok (.accepted basket) ∧
      s.descriptor.Describes basket [.member "lines", .item 0] lineRules codedLine ∧
      ∃ published, schemaObject s.documentation.toValue = .ok published ∧
        (Demands (schemaAt published [.member "lines", .item 0]) "code" →
          ∃ messages, s.descriptor.judge
              (basket.withoutMember [.member "lines", .item 0] "code") =
            .ok (.rejected [("lines.0.code", messages)])) ∧
        (¬Demands (schemaAt published [.member "lines", .item 0]) "code" →
          ∃ taken, s.descriptor.judge
              (basket.withoutMember [.member "lines", .item 0] "code") =
            .ok (.accepted taken)) := by
  obtain ⟨s, hs, hdescriptor⟩ : ∃ s, compile "Basket" basketLines alone = .ok (s, []) ∧
      s.descriptor = basketRules := ⟨_, rfl, by cbv⟩
  have hcompiled : s.IsCompiled := .intro (by simp [alone]) hs
  have havoids : s.descriptor.AvoidsInherited := by
    rw [hdescriptor]
    simp only [Descriptor.AvoidsInherited, basketRules, lineRules, Rule.headsOfAll, Rule.heads]
    decide
  have haccepted : s.descriptor.judge basket = .ok (.accepted basket) := by
    have hvalidator : basketRules.validator = .ok (.object [("lines", ⟨true, false, none⟩,
        .list (.object [("code", ⟨true, false, none⟩, .text {})]))]) := by cbv
    rw [hdescriptor, Descriptor.judge_eq hvalidator]
    rfl
  have hplace : s.descriptor.Describes basket [.member "lines", .item 0] lineRules codedLine := by
    rw [hdescriptor]
    exact .element List.mem_cons_self rfl rfl .root
  exact ⟨s, hs, hdescriptor, havoids, haccepted, hplace,
    hcompiled.judge_withoutMember havoids haccepted hplace List.mem_cons_self⟩

end Schema

end FieldSchema
