import FieldSchema.Json.Reader
import FieldSchema.Proofs.DeclaredOrder
import FieldSchema.Proofs.Failures

/-!
# Values read from JSON

What a JSON text spells is JSON data. All objects in it are ordinary ones, and each has distinct
names in the order in which an object enumerates them. The reader keeps this of the values that it
has completed and of the lists and objects that are still open.
-/

namespace FieldSchema

namespace Record

/-- Distinct names in the order in which an object enumerates them. -/
structure AreEnumerated (names : List String) : Prop where
  distinct : names.Nodup
  ordered : names.Pairwise EnumeratedBefore

theorem AreEnumerated.nil : AreEnumerated [] :=
  ⟨.nil, .nil⟩

theorem AreEnumerated.set {α : Type} {r : Record α} (h : AreEnumerated r.names) (name : String)
    (value : α) : AreEnumerated (r.set name value).names where
  distinct := nodup_names_set h.distinct name value
  ordered := by
    by_cases hname : name ∈ r.names
    · rw [Record.set, if_pos ((has_iff_mem_names r name).mpr hname), names_overwrite]
      exact h.ordered
    · rw [set_of_fresh hname]
      exact pairwise_insertNew h.ordered hname value

end Record

namespace Value

/-! ## The objects in a value -/

/-- A value stands in another: it is the other itself, or stands in an item or a member of it. -/
inductive Contains : Value → Value → Prop
  | self (v : Value) : Contains v v
  | item {items : List Value} {item v : Value} (hitem : item ∈ items) (h : Contains item v) :
      Contains (.list items) v
  | member {bare : Bool} {members : Record Value} {entry : String × Value} {v : Value}
      (hentry : entry ∈ members) (h : Contains entry.2 v) : Contains (.object bare members) v

/-- Every object in a value satisfies a condition on its being bare and on its names. -/
def EveryObject (P : Bool → List String → Prop) (v : Value) : Prop :=
  ∀ bare (members : Record Value), v.Contains (.object bare members) → P bare members.names

/-- A value with nothing in it. -/
def isSingle : Value → Bool
  | .list _ => false
  | .object _ _ => false
  | _ => true

variable {P : Bool → List String → Prop}

theorem everyObject_of_isSingle {v : Value} (h : v.isSingle = true) : v.EveryObject P := by
  intro bare members hcontains
  cases hcontains <;> cases h

theorem everyObject_list_iff {items : List Value} :
    EveryObject P (.list items) ↔ ∀ item ∈ items, item.EveryObject P := by
  constructor
  · intro h item hitem bare members hcontains
    exact h bare members (.item hitem hcontains)
  · intro h bare members hcontains
    cases hcontains with
    | item hitem hcontains => exact h _ hitem bare members hcontains

theorem everyObject_object_iff {bare : Bool} {members : Record Value} :
    EveryObject P (.object bare members) ↔
      P bare members.names ∧ ∀ entry ∈ members, entry.2.EveryObject P := by
  constructor
  · intro h
    refine ⟨h bare members (.self _), ?_⟩
    intro entry hentry inner others hcontains
    exact h inner others (.member hentry hcontains)
  · rintro ⟨here, hmembers⟩ inner others hcontains
    cases hcontains with
    | self => exact here
    | member hentry hcontains => exact hmembers _ hentry inner others hcontains

theorem EveryObject.mono {Q : Bool → List String → Prop} {v : Value} (h : v.EveryObject P)
    (hmono : ∀ bare names, P bare names → Q bare names) : v.EveryObject Q := by
  intro bare members hcontains
  exact hmono bare members.names (h bare members hcontains)

theorem EveryObject.and {Q : Bool → List String → Prop} {v : Value} (h : v.EveryObject P)
    (hother : v.EveryObject Q) : v.EveryObject fun bare names => P bare names ∧ Q bare names := by
  intro bare members hcontains
  exact ⟨h bare members hcontains, hother bare members hcontains⟩

/-- Every object in a value enumerates its names as objects do. -/
def IsEnumerated (v : Value) : Prop :=
  v.EveryObject fun _ names => Record.AreEnumerated names

/-- Every object in a value inherits what ordinary objects inherit. -/
def IsOrdinary (v : Value) : Prop :=
  v.EveryObject fun bare _ => bare = false

/-- JSON data as a reader makes it. -/
structure IsPlainJson (v : Value) : Prop where
  json : v.IsJson
  objects : v.EveryObject fun bare names => bare = false ∧ Record.AreEnumerated names

namespace IsPlainJson

theorem isOrdinary {v : Value} (h : v.IsPlainJson) : v.IsOrdinary :=
  h.objects.mono fun _ _ h => h.1

theorem isEnumerated {v : Value} (h : v.IsPlainJson) : v.IsEnumerated :=
  h.objects.mono fun _ _ h => h.2

theorem list {items : List Value} (h : ∀ item ∈ items, item.IsPlainJson) :
    IsPlainJson (.list items) where
  json := .list fun item hitem => (h item hitem).json
  objects := everyObject_list_iff.mpr fun item hitem => (h item hitem).objects

theorem object {members : Record Value} (hnames : Record.AreEnumerated members.names)
    (h : ∀ entry ∈ members, entry.2.IsPlainJson) : IsPlainJson (.object false members) where
  json := .object fun entry hentry => (h entry hentry).json
  objects := everyObject_object_iff.mpr
    ⟨⟨rfl, hnames⟩, fun entry hentry => (h entry hentry).objects⟩

end IsPlainJson

end Value

namespace Json

/-! ## Reading -/

theorem isPlainJson_of_scalar {token : Token} {v : Value} (h : token.scalar? = some v) :
    v.IsPlainJson := by
  cases token <;> cases h
  case text s => exact ⟨.text s, Value.everyObject_of_isSingle rfl⟩
  case number x => exact ⟨.number x, Value.everyObject_of_isSingle rfl⟩
  case true => exact ⟨.bool true, Value.everyObject_of_isSingle rfl⟩
  case false => exact ⟨.bool false, Value.everyObject_of_isSingle rfl⟩
  case null => exact ⟨.null, Value.everyObject_of_isSingle rfl⟩

/-- The members of an object so far: their names are enumerated, and their values are data. -/
structure HoldsPlainJson (members : Record Value) : Prop where
  names : Record.AreEnumerated members.names
  values : ∀ entry ∈ members, entry.2.IsPlainJson

theorem HoldsPlainJson.nil : HoldsPlainJson [] :=
  ⟨.nil, by simp⟩

theorem HoldsPlainJson.set {members : Record Value} (h : HoldsPlainJson members) {v : Value}
    (hv : v.IsPlainJson) (name : String) : HoldsPlainJson (members.set name v) where
  names := h.names.set name v
  values := by
    intro entry hentry
    rcases Record.mem_of_mem_set hentry with rfl | hkept
    · exact hv
    · exact h.values entry hkept

def OpenValue.IsPlainJson : OpenValue → Prop
  | .list items => ∀ item ∈ items, item.IsPlainJson
  | .object members _ => HoldsPlainJson members

/-- What the reader has completed so far is JSON data as a reader makes it. -/
def Expecting.IsPlainJson : Expecting → Prop
  | .value outer => ∀ unclosed ∈ outer, unclosed.IsPlainJson
  | .firstItem outer => ∀ unclosed ∈ outer, unclosed.IsPlainJson
  | .firstName outer => ∀ unclosed ∈ outer, unclosed.IsPlainJson
  | .name outer members => (∀ unclosed ∈ outer, unclosed.IsPlainJson) ∧ HoldsPlainJson members
  | .colon outer members _ => (∀ unclosed ∈ outer, unclosed.IsPlainJson) ∧ HoldsPlainJson members
  | .separator outer done => (∀ unclosed ∈ outer, unclosed.IsPlainJson) ∧ done.IsPlainJson

theorem beginValue?_isPlainJson {outer : List OpenValue} {token : Token} {next : Expecting}
    (houter : ∀ unclosed ∈ outer, unclosed.IsPlainJson)
    (h : beginValue? outer token = some next) : next.IsPlainJson := by
  unfold beginValue? at h
  split at h
  next => cases h; exact houter
  next => cases h; exact houter
  next =>
    obtain ⟨v, hv, rfl⟩ := Option.map_eq_some_iff.mp h
    exact ⟨houter, isPlainJson_of_scalar hv⟩

/-- One token keeps what is completed JSON data. -/
theorem readStep?_isPlainJson {state next : Expecting} {token : Token}
    (hstate : state.IsPlainJson) (h : readStep? state token = some next) : next.IsPlainJson := by
  unfold readStep? at h
  split at h
  next outer token => exact beginValue?_isPlainJson hstate h
  next outer =>
    cases h
    exact ⟨hstate, .list (by simp)⟩
  next outer token _ =>
    apply beginValue?_isPlainJson ?_ h
    exact List.forall_mem_cons.mpr ⟨by simp [OpenValue.IsPlainJson], hstate⟩
  next outer =>
    cases h
    exact ⟨hstate, .object .nil (by simp)⟩
  next outer name =>
    cases h
    exact ⟨hstate, .nil⟩
  next => cases h
  next outer members name =>
    cases h
    exact hstate
  next => cases h
  next outer members name =>
    cases h
    exact List.forall_mem_cons.mpr ⟨hstate.2, hstate.1⟩
  next => cases h
  -- a completed value joins the list or object around it, which goes on or is closed
  next items outer done =>
    cases h
    obtain ⟨hopen, hdone⟩ := hstate
    obtain ⟨hitems, houter⟩ := List.forall_mem_cons.mp hopen
    exact List.forall_mem_cons.mpr ⟨List.forall_mem_cons.mpr ⟨hdone, hitems⟩, houter⟩
  next items outer done =>
    cases h
    obtain ⟨hopen, hdone⟩ := hstate
    obtain ⟨hitems, houter⟩ := List.forall_mem_cons.mp hopen
    refine ⟨houter, .list fun item hitem => ?_⟩
    exact List.forall_mem_cons.mpr ⟨hdone, hitems⟩ item (List.mem_reverse.mp hitem)
  next members name outer done =>
    cases h
    obtain ⟨hopen, hdone⟩ := hstate
    obtain ⟨hmembers, houter⟩ := List.forall_mem_cons.mp hopen
    exact ⟨houter, hmembers.set hdone name⟩
  next members name outer done =>
    cases h
    obtain ⟨hopen, hdone⟩ := hstate
    obtain ⟨hmembers, houter⟩ := List.forall_mem_cons.mp hopen
    have hclosed := hmembers.set hdone name
    exact ⟨houter, .object hclosed.names hclosed.values⟩
  next => cases h

theorem readFrom?_isPlainJson {state : Expecting} (hstate : state.IsPlainJson)
    {tokens : List Token} {v : Value} (h : readFrom? state tokens = some v) : v.IsPlainJson := by
  induction tokens generalizing state with
  | nil =>
      rw [readFrom?] at h
      unfold Expecting.result? at h
      split at h
      next =>
        cases h
        exact hstate.2
      next => cases h
  | cons token rest ih =>
      rw [readFrom?] at h
      split at h
      next next hnext => exact ih (readStep?_isPlainJson hstate hnext) h
      next => cases h

/-- The value that a JSON text spells is JSON data, with ordinary objects only and with their names
in enumeration order. -/
theorem read?_isPlainJson {s : String} {v : Value} (h : read? s = some v) : v.IsPlainJson := by
  obtain ⟨tokens, _, h⟩ := Option.bind_eq_some_iff.mp h
  have hstart : Expecting.IsPlainJson (.value []) := fun _ hmem => absurd hmem List.not_mem_nil
  exact readFrom?_isPlainJson hstart h

end Json

end FieldSchema
