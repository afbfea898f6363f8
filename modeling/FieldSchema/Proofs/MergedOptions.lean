import FieldSchema.Proofs.ExtendedOptions
import FieldSchema.Proofs.Literals

/-!
# Merged options

What merging the options of a field comes to, mistakes included. A decimal field is refused for the
first of its numbers that is of arbitrary precision, whatever else is wrong. Any field is refused
for the first option that is not literal, also when an override shadows that option. Otherwise each
option has the literal of the override, or else of the declaration, or else the default of the type.
-/

namespace FieldSchema

/-- The first item of a list that has a property. -/
def IsFirst {α : Type} (p : α → Prop) (items : List α) (x : α) : Prop :=
  ∃ before after, items = before ++ x :: after ∧ p x ∧ ∀ y ∈ before, ¬p y

namespace IsFirst

variable {α : Type} {p : α → Prop} {item x : α} {items others : List α}

theorem cons_iff :
    IsFirst p (item :: items) x ↔ (p item ∧ x = item) ∨ (¬p item ∧ IsFirst p items x) := by
  constructor
  · rintro ⟨before, after, heq, hx, hbefore⟩
    cases before with
    | nil =>
        obtain ⟨rfl, _⟩ := List.cons.inj heq
        exact .inl ⟨hx, rfl⟩
    | cons first before =>
        obtain ⟨rfl, rfl⟩ := List.cons.inj heq
        obtain ⟨hfirst, hrest⟩ := List.forall_mem_cons.mp hbefore
        exact .inr ⟨hfirst, before, after, rfl, hx, hrest⟩
  · rintro (⟨hitem, rfl⟩ | ⟨hitem, before, after, rfl, hx, hbefore⟩)
    · exact ⟨[], items, rfl, hitem, by simp⟩
    · exact ⟨item :: before, after, rfl, hx, List.forall_mem_cons.mpr ⟨hitem, hbefore⟩⟩

theorem append_iff :
    IsFirst p (items ++ others) x ↔
      IsFirst p items x ∨ ((∀ y ∈ items, ¬p y) ∧ IsFirst p others x) := by
  induction items with
  | nil =>
      have hnil : ¬IsFirst p [] x := by
        rintro ⟨before, after, heq, _⟩
        exact absurd heq (by simp)
      simp [hnil]
  | cons first rest ih =>
      rw [List.cons_append, cons_iff, cons_iff, ih, List.forall_mem_cons]
      tauto

theorem of_exists (h : ∃ y ∈ items, p y) : ∃ x, IsFirst p items x := by
  induction items with
  | nil => simp at h
  | cons item rest ih =>
      by_cases hitem : p item
      · exact ⟨item, cons_iff.mpr (.inl ⟨hitem, rfl⟩)⟩
      · obtain ⟨y, hy, hpy⟩ := h
        rcases List.mem_cons.mp hy with rfl | hmem
        · exact absurd hpy hitem
        · obtain ⟨x, hx⟩ := ih ⟨y, hmem, hpy⟩
          exact ⟨x, cons_iff.mpr (.inr ⟨hitem, hx⟩)⟩

end IsFirst

namespace Outcome

variable {α β : Type} {p : α → Prop} {failure : Failure} {x : α}

/-- Going through items ends as the first one that cannot be handled ends. -/
theorem mapM_eq_error {f : α → Outcome β} {items : List α}
    (hpass : ∀ item, ¬p item → ∃ result, f item = .ok result) (hx : f x = .error failure)
    (h : IsFirst p items x) : items.mapM f = .error failure := by
  obtain ⟨before, after, rfl, _, hbefore⟩ := h
  obtain ⟨results, hresults⟩ := exists_mapM_eq_ok fun item hitem => hpass item (hbefore item hitem)
  rw [List.mapM_append, hresults, List.mapM_cons, hx]
  rfl

end Outcome

open Outcome

namespace OptionSet

/-- The options that entries give under some keys, in the order of the keys. -/
def givenAmong (keys : List OptionKey) (entries : Record Value) : OptionSet :=
  keys.filterMap fun key => (entries.get? key.name).map (key, ·)

/-- The options under some keys in the order in which they are examined: the declared ones, and then
those of the override. -/
def examined (keys : List OptionKey) (declared override : Record Value) : OptionSet :=
  givenAmong keys declared ++ givenAmong keys override

theorem mem_givenAmong {keys : List OptionKey} {entries : Record Value} {key : OptionKey}
    {v : Value} :
    (key, v) ∈ givenAmong keys entries ↔ key ∈ keys ∧ entries.get? key.name = some v := by
  rw [givenAmong, List.mem_filterMap]
  constructor
  · rintro ⟨other, hother, h⟩
    obtain ⟨found, hfound, heq⟩ := Option.map_eq_some_iff.mp h
    obtain ⟨rfl, rfl⟩ := Prod.mk.inj heq
    exact ⟨hother, hfound⟩
  · rintro ⟨hkey, hget⟩
    exact ⟨key, hkey, by rw [hget]; rfl⟩

/-! ## Numbers that are too precise -/

/-- The option is a number of arbitrary precision. -/
def TooPrecise (option : OptionKey × Value) : Prop :=
  option.2.isArbitraryPrecision = true

/-- The refusal of a number of arbitrary precision. -/
def RefusedAsPrecise (key : OptionKey) (path : Option String) (v : Value) (x : Outcome Unit) :
    Prop :=
  ∃ text, v.describe = .ok text ∧ x = .error (.defect (.decimalValue key.name text path))

theorem requirePlainDecimals_refused {entries : Record Value} {path : Option String}
    {key : OptionKey} {v : Value}
    (h : IsFirst TooPrecise (givenAmong OptionKey.decimalNumbers entries) (key, v)) :
    RefusedAsPrecise key path v ((ofEntries entries).requirePlainDecimals path) := by
  unfold requirePlainDecimals
  simp only [lookup_ofEntries]
  -- the check goes through the keys, of which only the given ones matter
  generalize OptionKey.decimalNumbers = keys at h ⊢
  induction keys with
  | nil =>
      obtain ⟨before, after, heq, _⟩ := h
      exact absurd heq (by simp [givenAmong])
  | cons first rest ih =>
      rw [List.forM]
      cases hget : entries.get? first.name with
      | none =>
          have hskip : givenAmong (first :: rest) entries = givenAmong rest entries := by
            simp [givenAmong, hget]
          exact ih (hskip ▸ h)
      | some value =>
          have htake : givenAmong (first :: rest) entries =
              (first, value) :: givenAmong rest entries := by
            simp [givenAmong, hget]
          rw [htake, IsFirst.cons_iff] at h
          rcases h with ⟨hprecise, heq⟩ | ⟨hplain, hrest⟩
          · obtain ⟨rfl, rfl⟩ := Prod.mk.inj heq
            have hnot : ¬v.HasNoText := by
              rintro (_ | _ | _) <;> simp [TooPrecise, Value.isArbitraryPrecision] at hprecise
            obtain ⟨text, htext⟩ := Value.describe_eq_ok hnot
            refine ⟨text, htext, ?_⟩
            dsimp only
            rw [if_pos (show v.isArbitraryPrecision = true from hprecise), htext]
            rfl
          · dsimp only
            rw [if_neg (show ¬value.isArbitraryPrecision = true from hplain)]
            exact ih hrest

theorem requirePlainDecimals_ofEntries {entries : Record Value} {path : Option String}
    (h : ∀ option ∈ givenAmong OptionKey.decimalNumbers entries, ¬TooPrecise option) :
    (ofEntries entries).requirePlainDecimals path = .ok () := by
  rw [requirePlainDecimals_eq_ok]
  intro key hkey v hv
  rw [lookup_ofEntries] at hv
  simpa [TooPrecise] using h (key, v) (mem_givenAmong.mpr ⟨hkey, hv⟩)

end OptionSet

namespace Compilation

variable {type : FieldType} {options : OptionSet} {path : Option String}

/-! ## Options that are not literal -/

/-- The option is not literal, dates of a date field apart. -/
def Unresolved (type : FieldType) (option : OptionKey × Value) : Prop :=
  ¬(preparedValue type option.1 option.2).IsLiteral

theorem resolve_prepared_eq (type : FieldType) (options : OptionSet) (path : Option String) :
    (prepared type options).resolve path = options.mapM fun option => do
      return (option.1, ← (preparedValue type option.1 option.2).literal option.1.name path) := by
  rw [prepared_eq_map, OptionSet.resolve, List.mapM_map]
  rfl

theorem resolve_prepared_refused {key : OptionKey} {v bad : Value}
    (h : IsFirst (Unresolved type) options (key, v))
    (hbad : (preparedValue type key v).offender? = some bad) :
    Value.Refused key.name path bad ((prepared type options).resolve path) := by
  obtain ⟨text, htext, hrefused⟩ := Value.literal_refused key.name path _ hbad
  refine ⟨text, htext, ?_⟩
  rw [resolve_prepared_eq]
  refine mapM_eq_error ?_ ?_ h
  · intro option hoption
    have hliteral := (not_not.mp hoption).literal_eq option.1.name path
    exact ⟨_, by rw [hliteral]; rfl⟩
  · rw [hrefused]
    rfl

/-- Options with their literals, dates of a date field cut to calendar days. -/
def literals (type : FieldType) (options : OptionSet) : OptionSet :=
  options.map fun option => (option.1, (preparedValue type option.1 option.2).resolved)

theorem resolve_prepared_ok (path : Option String)
    (h : ∀ option ∈ options, ¬Unresolved type option) :
    (prepared type options).resolve path = .ok (literals type options) := by
  rw [resolve_prepared_eq]
  induction options with
  | nil => rfl
  | cons option rest ih =>
      obtain ⟨hoption, hrest⟩ := List.forall_mem_cons.mp h
      rw [List.mapM_cons, (not_not.mp hoption).literal_eq, ih hrest]
      rfl

/-! ## Merging -/

section Merging

variable {declared override : Record Value} {defaults : OptionSet} {path : String}

open OptionSet

/-- The literal that an override gives for an option, or else the declaration. -/
def givenLiteral? (type : FieldType) (declared override : Record Value) (key : OptionKey) :
    Option Value :=
  ((override.get? key.name).or (declared.get? key.name)).map fun v =>
    (preparedValue type key v).resolved

theorem requirePlain_refused {key : OptionKey} {v : Value} (path : Option String)
    (h : IsFirst TooPrecise (examined OptionKey.decimalNumbers declared override) (key, v)) :
    RefusedAsPrecise key path v
      (requirePlain (.scalar .decimal) (ofEntries declared) (ofEntries override) path) := by
  rw [requirePlain, if_pos rfl]
  rcases IsFirst.append_iff.mp h with hdeclared | ⟨hplain, hoverride⟩
  · obtain ⟨text, htext, herror⟩ := requirePlainDecimals_refused hdeclared
    exact ⟨text, htext, by rw [herror]; rfl⟩
  · rw [requirePlainDecimals_ofEntries hplain]
    exact requirePlainDecimals_refused hoverride

theorem requirePlain_ok {path : Option String}
    (h : type = .scalar .decimal →
      ∀ option ∈ examined OptionKey.decimalNumbers declared override, ¬TooPrecise option) :
    requirePlain type (ofEntries declared) (ofEntries override) path = .ok () := by
  unfold requirePlain
  split
  next htype =>
    obtain ⟨hdeclared, hoverride⟩ := List.forall_mem_append.mp (h htype)
    rw [requirePlainDecimals_ofEntries hdeclared]
    exact requirePlainDecimals_ofEntries hoverride
  next => rfl

theorem mergeOptions_refusedAsPrecise {key : OptionKey} {v : Value}
    (h : IsFirst TooPrecise (examined OptionKey.decimalNumbers declared override) (key, v)) :
    ∃ text, v.describe = .ok text ∧
      mergeOptions (.scalar .decimal) (ofEntries declared) (ofEntries override) defaults path =
        .error (.defect (.decimalValue key.name text (some path))) := by
  obtain ⟨text, htext, herror⟩ := requirePlain_refused (some path) h
  exact ⟨text, htext, by rw [mergeOptions_eq, herror]; rfl⟩

variable (hplain : type = .scalar .decimal →
  ∀ option ∈ examined OptionKey.decimalNumbers declared override, ¬TooPrecise option)

include hplain

theorem mergeOptions_refused {key : OptionKey} {v bad : Value}
    (h : IsFirst (Unresolved type) (examined OptionKey.all declared override) (key, v))
    (hbad : (preparedValue type key v).offender? = some bad) :
    Value.Refused key.name (some path) bad
      (mergeOptions type (ofEntries declared) (ofEntries override) defaults path) := by
  rw [mergeOptions_eq, requirePlain_ok hplain]
  -- the declared options are resolved before those of the override
  rcases IsFirst.append_iff.mp h with hdeclared | ⟨hliteral, hoverride⟩
  · exact (resolve_prepared_refused hdeclared hbad).bind _
  · have hlower := resolve_prepared_ok (some path) hliteral
    rw [show givenAmong OptionKey.all declared = ofEntries declared from rfl] at hlower
    rw [hlower]
    exact (resolve_prepared_refused hoverride hbad).bind _

theorem mergeOptions_ok
    (hliteral : ∀ option ∈ examined OptionKey.all declared override, ¬Unresolved type option) :
    mergeOptions type (ofEntries declared) (ofEntries override) defaults path =
      .ok ((literals type (ofEntries override)).onTopOf
        ((literals type (ofEntries declared)).onTopOf defaults)) := by
  obtain ⟨hdeclared, hoverride⟩ := List.forall_mem_append.mp hliteral
  rw [mergeOptions_eq, requirePlain_ok hplain]
  have hlower := resolve_prepared_ok (some path) hdeclared
  have hupper := resolve_prepared_ok (some path) hoverride
  rw [show givenAmong OptionKey.all declared = ofEntries declared from rfl] at hlower
  rw [show givenAmong OptionKey.all override = ofEntries override from rfl] at hupper
  rw [hlower, hupper]
  rfl

omit hplain

/-- Options merge where they are plain and literal, and in no other case. -/
theorem mergeOptions_eq_ok_iff {options : OptionSet} :
    mergeOptions type (ofEntries declared) (ofEntries override) defaults path = .ok options ↔
      (type = .scalar .decimal →
        ∀ option ∈ examined OptionKey.decimalNumbers declared override, ¬TooPrecise option) ∧
      (∀ option ∈ examined OptionKey.all declared override, ¬Unresolved type option) ∧
      options = (literals type (ofEntries override)).onTopOf
        ((literals type (ofEntries declared)).onTopOf defaults) := by
  constructor
  · intro h
    have hplain : type = .scalar .decimal →
        ∀ option ∈ examined OptionKey.decimalNumbers declared override, ¬TooPrecise option := by
      rintro rfl option hoption hprecise
      obtain ⟨⟨key, v⟩, hfirst⟩ := IsFirst.of_exists ⟨option, hoption, hprecise⟩
      obtain ⟨text, _, herror⟩ := mergeOptions_refusedAsPrecise hfirst
      rw [herror] at h
      cases h
    have hliteral : ∀ option ∈ examined OptionKey.all declared override,
        ¬Unresolved type option := by
      intro option hoption hunresolved
      obtain ⟨⟨key, v⟩, hfirst⟩ := IsFirst.of_exists ⟨option, hoption, hunresolved⟩
      have ⟨_, _, _, hkey, _⟩ := hfirst
      obtain ⟨bad, hbad⟩ := Value.not_isLiteral_iff.mp hkey
      obtain ⟨text, _, herror⟩ := mergeOptions_refused hplain hfirst hbad
      rw [herror] at h
      cases h
    rw [mergeOptions_ok hplain hliteral] at h
    exact ⟨hplain, hliteral, (Except.ok.inj h).symm⟩
  · rintro ⟨hplain, hliteral, rfl⟩
    exact mergeOptions_ok hplain hliteral

theorem lookup_literals (type : FieldType) (entries : Record Value) (key : OptionKey) :
    List.lookup key (literals type (ofEntries entries)) =
      (entries.get? key.name).map fun v => (preparedValue type key v).resolved := by
  rw [literals, lookup_map fun key v => (preparedValue type key v).resolved, lookup_ofEntries]

/-- A merged option is that of the override, or else of the declaration, or else of the type. -/
theorem lookup_merged (type : FieldType) (declared override : Record Value) (defaults : OptionSet)
    (key : OptionKey) :
    List.lookup key ((literals type (ofEntries override)).onTopOf
        ((literals type (ofEntries declared)).onTopOf defaults)) =
      (givenLiteral? type declared override key).or (List.lookup key defaults) := by
  rw [onTopOf, onTopOf, List.lookup_append, List.lookup_append, lookup_literals, lookup_literals,
    ← Option.or_assoc, ← Option.map_or, givenLiteral?]

end Merging

/-- The entries of the override at a path. -/
def entriesAt (overrides : Record Value) (path : String) : Record Value :=
  ((overrides.get? path).getD .absent).ownEntries

/-- The context of a field holds its merged options. -/
theorem fieldContext_eq_ok_iff {around : Surroundings} {parent : String} {head : FieldHead}
    {ctx : FieldContext} :
    fieldContext around parent head = .ok ctx ↔
      ∃ options, mergeOptions head.type (OptionSet.ofEntries head.options)
          (OptionSet.ofEntries (entriesAt around.overrides (joinPath parent head.name)))
          (defaultsFor around.typeDefaults head.type) (joinPath parent head.name) = .ok options ∧
        ⟨head.name, joinPath parent head.name, head.kind = .required, options⟩ = ctx := by
  simp only [fieldContext, OptionSet.ofValue, bind_eq_ok, pure_eq_ok, entriesAt]

end Compilation

end FieldSchema
