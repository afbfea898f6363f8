import FieldSchema.Proofs.Agreement
import FieldSchema.Proofs.Validators

/-!
# Places inside values

A place leads from a value to a value inside it, member by member and item by item. A descriptor
describes objects at some places of an input: the input itself, the value of a field whose inner
rules are known, and the elements of a list of maps. The documentation that agrees with a descriptor
has a node at each of these places, and its properties agree with the rules there.
-/

namespace FieldSchema

/-- A step into a value: to a member of an object, or to an item of a list. -/
inductive Selector where
  | member (name : String)
  | item (position : Nat)
deriving Repr, DecidableEq

/-- A way into a value, from the outside in. -/
abbrev Place := List Selector

/-- The word for a step in the path of an issue. -/
def Selector.word : Selector → String
  | .member name => name
  | .item position => toString position

/-- The path of the issues that stand at a place. -/
def Place.path (place : Place) : List String :=
  place.map Selector.word

/-- Change the members of the object at a place. Where the value has no such place nothing
changes. -/
def Value.modifyAt (change : Record Value → Record Value) : Place → Value → Value
  | [], .object bare members => .object bare (change members)
  | .member name :: rest, .object bare members =>
      match Record.get? members name with
      | some inner => .object bare (Record.overwrite members name (modifyAt change rest inner))
      | none => .object bare members
  | .item position :: rest, .list items =>
      match items[position]? with
      | some inner => .list (items.set position (modifyAt change rest inner))
      | none => .list items
  | _, v => v

/-- The node at a place: under the properties of an object, and as the items of an array. -/
def Node.at? : Node → Place → Option Node
  | n, [] => some n
  | n, .member name :: rest => do
      let properties ← n.properties?
      let property ← properties.get? name
      property.at? rest
  | n, .item _ :: rest => do
      let items ← n.items?
      items.at? rest

/-- A descriptor describes an object at a place of a value by a list of rules. -/
inductive Descriptor.Describes : Descriptor → Value → Place → Descriptor → Value → Prop
  /-- The value itself. -/
  | root {d : Descriptor} {bare : Bool} {members : Record Value} :
      Describes d (.object bare members) [] d (.object bare members)
  /-- An object inside the value of a field. -/
  | field {d rules inner : Descriptor} {head : RuleHead} {bare : Bool} {members : Record Value}
      {place : Place} {value object : Value} (hrule : .fields head inner ∈ d)
      (hvalue : Record.get? members head.name = some value)
      (h : Describes inner value place rules object) :
      Describes d (.object bare members) (.member head.name :: place) rules object
  /-- An object inside an element of the list of a field. -/
  | element {d rules inner : Descriptor} {head : RuleHead} {bare : Bool} {members : Record Value}
      {items : List Value} {position : Nat} {place : Place} {value object : Value}
      (hrule : .itemFields head inner ∈ d)
      (hvalue : Record.get? members head.name = some (.list items))
      (hitem : items[position]? = some value) (h : Describes inner value place rules object) :
      Describes d (.object bare members) (.member head.name :: .item position :: place) rules object

namespace Value

/-- A changed value is as present as it was. -/
theorem isNullish_modifyAt (change : Record Value → Record Value) (place : Place) (v : Value) :
    (v.modifyAt change place).isNullish = v.isNullish := by
  unfold modifyAt
  split
  next => rfl
  next =>
    split
    next => rfl
    next => rfl
  next =>
    split
    next => rfl
    next => rfl
  next => rfl

/-- What an object answers under a name depends on its entry of that name only. -/
theorem read_object_congr {bare : Bool} {members others : Record Value} {name : String}
    (h : Record.get? others name = Record.get? members name) :
    (object bare others).read name = (object bare members).read name := by
  have hlineage : (object bare others).lineage = (object bare members).lineage := by
    cases bare <;> rfl
  have hshared : (object bare others).shared? name = (object bare members).shared? name := by
    cases bare <;> rfl
  unfold read
  simp only [ownEntries, h, hlineage, hshared]

theorem read_object_of_get? {bare : Bool} {members : Record Value} {name : String} {value : Value}
    (h : Record.get? members name = some value) : (object bare members).read name = value := by
  unfold read
  simp only [ownEntries, h]

end Value

/-! ## Rules and nodes at a place -/

namespace Rule

theorem head_mem_heads (rule : Rule) : rule.head ∈ rule.heads := by
  cases rule with
  | plain head => exact List.mem_singleton.mpr rfl
  | items head item => exact List.mem_singleton.mpr rfl
  | fields head inner =>
      rw [heads]
      exact List.mem_cons_self
  | itemFields head inner =>
      rw [heads]
      exact List.mem_cons_self

section Heads

variable {P : RuleHead → Prop} {head : RuleHead} {inner : List Rule}

theorem forall_heads_plain (h : P head) : ∀ found ∈ (plain head).heads, P found := by
  rw [heads]
  exact List.forall_mem_singleton.mpr h

theorem forall_heads_items {item : ItemType} (h : P head) :
    ∀ found ∈ (items head item).heads, P found := by
  rw [heads]
  exact List.forall_mem_singleton.mpr h

theorem forall_heads_fields (h : P head) (hinner : ∀ found ∈ headsOfAll inner, P found) :
    ∀ found ∈ (fields head inner).heads, P found := by
  rw [heads]
  exact List.forall_mem_cons.mpr ⟨h, hinner⟩

theorem forall_heads_itemFields (h : P head) (hinner : ∀ found ∈ headsOfAll inner, P found) :
    ∀ found ∈ (itemFields head inner).heads, P found := by
  rw [heads]
  exact List.forall_mem_cons.mpr ⟨h, hinner⟩

end Heads

theorem mem_headsOfAll {rules : List Rule} {rule : Rule} (hrule : rule ∈ rules) {head : RuleHead}
    (hhead : head ∈ rule.heads) : head ∈ headsOfAll rules := by
  induction rules with
  | nil => simp at hrule
  | cons first rest ih =>
      rw [headsOfAll]
      rcases List.mem_cons.mp hrule with rfl | hrest
      · exact List.mem_append_left _ hhead
      · exact List.mem_append_right _ (ih hrest)

theorem head_mem_headsOfAll {rules : List Rule} {rule : Rule} (hrule : rule ∈ rules) :
    rule.head ∈ headsOfAll rules :=
  mem_headsOfAll hrule rule.head_mem_heads

end Rule

namespace Node

theorem Agrees.saysSameAs {n : Node} {rule : Rule} (h : n.Agrees rule) :
    n.SaysSameAs rule.head := by
  cases rule <;> exact h.1

theorem EachAgrees.of_mem {properties : Record Node} {d : Descriptor}
    (h : EachAgrees properties d) {rule : Rule} (hrule : rule ∈ d) :
    ∃ n, properties.get? rule.name = some n ∧ n.Agrees rule := by
  induction d with
  | nil => simp at hrule
  | cons first rest ih =>
      obtain ⟨hfirst, hothers⟩ := h
      rcases List.mem_cons.mp hrule with rfl | hrest
      · exact hfirst
      · exact ih hothers hrest

theorem at?_append (n : Node) (place rest : Place) :
    n.at? (place ++ rest) = (n.at? place).bind fun found => found.at? rest := by
  induction place generalizing n with
  | nil => rfl
  | cons selector place ih =>
      cases selector with
      | member name => simp [at?, ih, Option.bind_assoc]
      | item position => simp [at?, ih, Option.bind_assoc]

theorem BlockAgrees.nodup_names {properties : Record Node} {d : Descriptor}
    (h : BlockAgrees properties d) : d.names.Nodup :=
  h.2.1.nodup h.1

end Node

namespace Descriptor.Describes

theorem isObject {d rules : Descriptor} {v object : Value} {place : Place}
    (h : Describes d v place rules object) : ∃ bare members, v = .object bare members := by
  cases h with
  | root => exact ⟨_, _, rfl⟩
  | field => exact ⟨_, _, rfl⟩
  | element => exact ⟨_, _, rfl⟩

theorem isNullish_eq_false {d rules : Descriptor} {v object : Value} {place : Place}
    (h : Describes d v place rules object) : v.isNullish = false := by
  obtain ⟨bare, members, rfl⟩ := h.isObject
  rfl

theorem object_isObject {d rules : Descriptor} {v object : Value} {place : Place}
    (h : Describes d v place rules object) : ∃ bare members, object = .object bare members := by
  induction h with
  | root => exact ⟨_, _, rfl⟩
  | field _ _ _ ih => exact ih
  | element _ _ _ _ ih => exact ih

/-- The rules at a place stand somewhere in the descriptor. -/
theorem mem_headsOfAll {d rules : Descriptor} {v object : Value} {place : Place}
    (h : Describes d v place rules object) {head : RuleHead}
    (hhead : head ∈ Rule.headsOfAll rules) :
    head ∈ Rule.headsOfAll d := by
  induction h with
  | root => exact hhead
  | field hrule _ _ ih =>
      refine Rule.mem_headsOfAll hrule ?_
      rw [Rule.heads]
      exact List.mem_cons_of_mem _ (ih hhead)
  | element hrule _ _ _ ih =>
      refine Rule.mem_headsOfAll hrule ?_
      rw [Rule.heads]
      exact List.mem_cons_of_mem _ (ih hhead)

end Descriptor.Describes

end FieldSchema
