import Mathlib
import FieldSchema.Proofs.Agreement

/-!
# Validators of compiled schemas

Making a descriptor ready for checks can stop at one kind of rule only: a rule for a text without
listed values. Its pattern has to be well formed and its length bounds must not exclude each other,
and the compiler asks for neither. A schema has a validator exactly when every such rule, at every
depth, can be turned into checks.
-/

namespace FieldSchema

/-- A rule for a text without listed values. Its lengths and its pattern are checked. -/
def RuleHead.IsFreeText (head : RuleHead) : Prop :=
  head.type = .string ∧ head.constraints.included.getD [] = []

/-- The length bounds leave some length, and the pattern is well formed. -/
def Constraints.IsMatchable (c : Constraints) : Prop :=
  TextChecks.boundsConflict c.minLength c.maxLength = false ∧
    ∀ source, c.pattern = some source → (Pattern.ofSource? source).isSome

mutual

/-- The heads of a rule and of the rules inside it. -/
def Rule.heads : Rule → List RuleHead
  | .plain head => [head]
  | .fields head inner => head :: headsOfAll inner
  | .items head _ => [head]
  | .itemFields head inner => head :: headsOfAll inner

/-- The heads of rules and of the rules inside them. -/
def Rule.headsOfAll : List Rule → List RuleHead
  | [] => []
  | rule :: rest => rule.heads ++ headsOfAll rest

end

/-- Every rule for a free text, at every depth, can be turned into checks. -/
def RuleHead.AllCheckable (heads : List RuleHead) : Prop :=
  ∀ head ∈ heads, head.IsFreeText → head.constraints.IsMatchable

/-- Every rule for a free text, at every depth of the descriptor, can be turned into checks. -/
def Descriptor.IsCheckable (d : Descriptor) : Prop :=
  RuleHead.AllCheckable (Rule.headsOfAll d)

/-- An outcome that is a result under a condition, and else ends for want of a matcher. -/
def Outcome.HingesOn {α : Type} (x : Outcome α) (condition : Prop) : Prop :=
  (condition ∧ ∃ a, x = .ok a) ∨ (¬condition ∧ x = .error .badPattern)

namespace Outcome.HingesOn

variable {α β : Type} {x : Outcome α} {p q : Prop}

theorem of_ok {a : α} (hx : x = .ok a) (hp : p) : x.HingesOn p :=
  .inl ⟨hp, a, hx⟩

theorem congr (h : x.HingesOn p) (hiff : p ↔ q) : x.HingesOn q := by
  rwa [← propext hiff]

/-- What is done with a result, when it hinges on a further condition. -/
theorem bind {f : α → Outcome β} (hx : x.HingesOn p) (hf : ∀ a, (f a).HingesOn q) :
    (x >>= f).HingesOn (p ∧ q) := by
  rcases hx with ⟨hp, a, rfl⟩ | ⟨hp, rfl⟩
  · rcases hf a with ⟨hq, b, hb⟩ | ⟨hq, hb⟩
    · exact .inl ⟨⟨hp, hq⟩, b, hb⟩
    · exact .inr ⟨fun h => hq h.2, hb⟩
  · exact .inr ⟨fun h => hp h.1, rfl⟩

theorem map {f : α → β} (hx : x.HingesOn p) : (x >>= fun a => pure (f a)).HingesOn p :=
  (hx.bind fun _ => of_ok rfl trivial).congr (and_iff_left trivial)

theorem exists_ok_iff (h : x.HingesOn p) : (∃ a, x = .ok a) ↔ p := by
  rcases h with ⟨hp, hx⟩ | ⟨hp, rfl⟩
  · exact iff_of_true hx hp
  · exact iff_of_false (by simp) hp

theorem eq_error_iff (h : x.HingesOn p) {failure : Failure} :
    x = .error failure ↔ ¬p ∧ failure = .badPattern := by
  rcases h with ⟨hp, a, rfl⟩ | ⟨hp, rfl⟩
  · simp [hp]
  · simp [hp, eq_comm]

end Outcome.HingesOn

namespace RuleHead

theorem allCheckable_cons {head : RuleHead} {heads : List RuleHead} :
    AllCheckable (head :: heads) ↔
      (head.IsFreeText → head.constraints.IsMatchable) ∧ AllCheckable heads :=
  List.forall_mem_cons

theorem allCheckable_append {heads others : List RuleHead} :
    AllCheckable (heads ++ others) ↔ AllCheckable heads ∧ AllCheckable others :=
  List.forall_mem_append

theorem not_isFreeText {head : RuleHead} (htype : head.type ≠ .string) : ¬head.IsFreeText :=
  fun h => htype h.1

end RuleHead

/-! ## One rule -/

theorem TextChecks.ofConstraints_hingesOn (c : Constraints) :
    (TextChecks.ofConstraints c).HingesOn c.IsMatchable := by
  unfold ofConstraints Constraints.IsMatchable
  cases hbounds : boundsConflict c.minLength c.maxLength with
  | true => exact .inr ⟨by simp, rfl⟩
  | false =>
      cases hpattern : c.pattern with
      | none => exact .of_ok rfl (by simp)
      | some source =>
          cases hsource : Pattern.ofSource? source with
          | none => exact .inr ⟨by simp [hsource], by simp [hsource]⟩
          | some pattern => exact .of_ok (by simp only [hsource]; rfl) (by simp [hsource])

namespace Validator

/-- A rule whose inner values have a validator hinges on its own checks. -/
theorem ofType_hingesOn (head : RuleHead) (map item : Validator) :
    (ofType head.type head.constraints (.ok map) (.ok item)).HingesOn
      (head.IsFreeText → head.constraints.IsMatchable) := by
  cases htype : head.type with
  | string =>
      unfold ofType
      dsimp only
      split
      next first rest hincluded =>
        exact .of_ok rfl fun hfree => absurd hfree.2 (by simp [hincluded])
      next hother =>
        have hfree : head.IsFreeText := by
          refine ⟨htype, ?_⟩
          cases hincluded : head.constraints.included with
          | none => rfl
          | some values =>
              cases values with
              | nil => rfl
              | cons first rest => exact absurd hincluded (hother first rest)
        exact (TextChecks.ofConstraints_hingesOn head.constraints).map.congr
          (by simp [hfree])
  | _ => exact .of_ok rfl fun hfree => absurd htype (by simp [hfree.1])

end Validator

/-! ## A whole descriptor -/

namespace Node

theorem SaysSameAs.typeName_eq {n : Node} {head : RuleHead} (h : n.SaysSameAs head) :
    n.typeName = head.type.publishedName := by
  simpa [published?_type] using h.type

/-- A rule with known fields that agrees with a node is a map. -/
theorem Agrees.type_eq_map {n : Node} {head : RuleHead} {inner : List Rule}
    (h : n.Agrees (.fields head inner)) : head.type = .map := by
  obtain ⟨hsame, _, properties, hproperties, _⟩ := h
  have htype := hsame.typeName_eq
  cases n <;> cases hproperties
  cases hhead : head.type <;> simp [hhead, typeName, RuleType.publishedName] at htype ⊢

/-- A rule for elements with known fields that agrees with a node is an array. -/
theorem Agrees.type_eq_array {n : Node} {head : RuleHead} {inner : List Rule}
    (h : n.Agrees (.itemFields head inner)) : head.type = .array := by
  obtain ⟨hsame, _, items, hitems, _⟩ := h
  have htype := hsame.typeName_eq
  cases n <;> cases hitems
  cases hhead : head.type <;> simp [hhead, typeName, RuleType.publishedName] at htype ⊢

end Node

namespace Validator

mutual

/-- A rule that agrees with a node has a validator exactly when its texts can be checked. -/
theorem ofRule_hingesOn (rule : Rule) {n : Node} (h : n.Agrees rule) :
    (ofRule rule).HingesOn (RuleHead.AllCheckable rule.heads) := by
  cases rule with
  | plain head =>
      rw [ofRule]
      exact (ofType_hingesOn head _ _).congr (by simp [Rule.heads, RuleHead.AllCheckable])
  | items head item =>
      rw [ofRule]
      exact (ofType_hingesOn head _ _).congr (by simp [Rule.heads, RuleHead.AllCheckable])
  | fields head inner =>
      have htype : head.type = .map := h.type_eq_map
      have hfree : ¬head.IsFreeText := RuleHead.not_isFreeText (by simp [htype])
      obtain ⟨_, _, properties, _, _, _, heach⟩ := h
      rw [ofRule, ofRules, htype, Rule.heads]
      -- only the inner rules are left to ask for a matcher
      refine (ofFields_hingesOn inner heach).map.congr ?_
      simp [RuleHead.allCheckable_cons, hfree]
  | itemFields head inner =>
      have htype : head.type = .array := h.type_eq_array
      have hfree : ¬head.IsFreeText := RuleHead.not_isFreeText (by simp [htype])
      obtain ⟨_, _, items, _, _, properties, _, _, _, heach⟩ := h
      rw [ofRule, ofRules, htype, Rule.heads]
      refine (ofFields_hingesOn inner heach).map.map.congr ?_
      simp [RuleHead.allCheckable_cons, hfree]
termination_by sizeOf rule

theorem ofFields_hingesOn (rules : List Rule) {properties : Record Node}
    (h : Node.EachAgrees properties rules) :
    (ofFields rules).HingesOn (RuleHead.AllCheckable (Rule.headsOfAll rules)) := by
  cases rules with
  | nil =>
      rw [ofFields]
      exact .of_ok rfl (by simp [Rule.headsOfAll, RuleHead.AllCheckable])
  | cons rule rest =>
      obtain ⟨⟨n, _, hrule⟩, hrest⟩ := h
      rw [ofFields]
      have hfirst := ofRule_hingesOn rule hrule
      have hothers := ofFields_hingesOn rest hrest
      refine (hfirst.bind fun _ => hothers.map).congr ?_
      rw [Rule.headsOfAll, RuleHead.allCheckable_append]
termination_by sizeOf rules

end

end Validator

/-! ## Compiled schemas -/

namespace Schema

theorem IsCompiled.validator_hingesOn {s : Schema} (h : s.IsCompiled) :
    s.descriptor.validator.HingesOn s.descriptor.IsCheckable := by
  obtain ⟨_, _, properties, _, _, _, heach⟩ := h.agrees
  rw [Descriptor.validator, Validator.ofRules]
  exact (Validator.ofFields_hingesOn s.descriptor heach).map

/-- A schema that compiles has a validator exactly when every text in it that lists no values can be
checked. Building the validator fails in one way only. -/
theorem compile_validator_iff (name : String) (raw : Value) (around : Surroundings) {s : Schema}
    {notices : List Notice}
    (hlookup : ∀ reference target, around.lookup reference = some target → target.IsCompiled)
    (h : compile name raw around = .ok (s, notices)) :
    ((∃ validator, s.descriptor.validator = .ok validator) ↔ s.descriptor.IsCheckable) ∧
      ∀ failure, s.descriptor.validator = .error failure ↔
        ¬s.descriptor.IsCheckable ∧ failure = .badPattern := by
  have hhinges := (IsCompiled.intro hlookup h).validator_hingesOn
  exact ⟨hhinges.exists_ok_iff, fun _ => hhinges.eq_error_iff⟩

/-- Surroundings without schemas to embed and without overrides. -/
def alone : Surroundings := ⟨fun _ => none, .builtIn, []⟩

/-- An order with a list of lines, each with a code of two letters. -/
def orderLines : Value :=
  .list [.list [.text "required", .text "lines", .list [.text "array", .text "map"],
    .object false [("fields",
      .list [.list [.text "required", .text "code", .text "string",
        .object false [("pattern", .text "^[A-Z]{2}$"), ("maxLength", .number 2)]]])]]]

theorem compile_orderLines_validator_iff :
    ∃ s, compile "Order" orderLines alone = .ok (s, []) ∧
      ((∃ validator, s.descriptor.validator = .ok validator) ↔ s.descriptor.IsCheckable) ∧
        ∀ failure, s.descriptor.validator = .error failure ↔
          ¬s.descriptor.IsCheckable ∧ failure = .badPattern :=
  ⟨_, rfl, compile_validator_iff "Order" orderLines alone (by simp [alone]) rfl⟩

/-- A single code whose pattern is an open group. -/
def openGroup : Value :=
  .list [.list [.text "optional", .text "code", .text "string",
    .object false [("pattern", .text "(")]]]

/-- The open group compiles without a notice and has no validator. -/
theorem compile_openGroup_without_validator :
    ∃ s, compile "Coded" openGroup alone = .ok (s, []) ∧
      s.descriptor.validator = .error .badPattern :=
  ⟨_, rfl, by cbv⟩

end Schema

end FieldSchema
