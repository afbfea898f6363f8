import FieldSchema.Proofs.RuleOptions

/-!
# Failures of a compilation

What can end the functions that a compilation runs without a result. Resolving and checking options
reports a mistake at the path of the field. Only values that JSON cannot hold, lists of symbols and
objects that cannot write themselves have no text; literals are JSON data and always have one.
-/

namespace FieldSchema

namespace Outcome

variable {α β : Type}

/-- Whatever failure the outcome is, it is one of these. -/
def FailsOnlyWith (P : Failure → Prop) (x : Outcome α) : Prop :=
  ∀ failure, x = .error failure → P failure

namespace FailsOnlyWith

variable {P Q : Failure → Prop}

@[simp] theorem of_ok (a : α) : FailsOnlyWith P (.ok a) := fun _ h => nomatch h

@[simp] theorem of_pure (a : α) : FailsOnlyWith P (pure a : Outcome α) := fun _ h => nomatch h

theorem of_error {failure : Failure} (h : P failure) :
    FailsOnlyWith P (.error failure : Outcome α) := by
  rintro _ ⟨⟩
  exact h

theorem mono {x : Outcome α} (hx : FailsOnlyWith P x) (h : ∀ failure, P failure → Q failure) :
    FailsOnlyWith Q x := fun failure hfailure => h failure (hx failure hfailure)

theorem bind {x : Outcome α} {f : α → Outcome β} (hx : FailsOnlyWith P x)
    (hf : ∀ a, x = .ok a → FailsOnlyWith P (f a)) : FailsOnlyWith P (x >>= f) := by
  intro failure h
  rcases bind_eq_error.mp h with h | ⟨a, ha, h⟩
  · exact hx failure h
  · exact hf a ha failure h

theorem mapM {f : α → Outcome β} (items : List α) (hf : ∀ a, FailsOnlyWith P (f a)) :
    FailsOnlyWith P (items.mapM f) := by
  induction items with
  | nil => exact of_pure _
  | cons item rest ih =>
      rw [List.mapM_cons]
      exact (hf item).bind fun _ _ => ih.bind fun _ _ => of_pure _

theorem forM {f : α → Outcome PUnit} (items : List α) (hf : ∀ a, FailsOnlyWith P (f a)) :
    FailsOnlyWith P (items.forM f) := by
  induction items with
  | nil => exact of_pure _
  | cons item rest ih => exact (hf item).bind fun _ _ => ih

end FailsOnlyWith

/-- The outcome is a text, or made of texts, unless some value has none under a condition. -/
def LacksText (p : Prop) (x : Outcome α) : Prop :=
  ∀ failure, x = .error failure ↔ failure = .noText ∧ p

namespace LacksText

variable {p q : Prop} {x : Outcome α}

theorem of_ok {a : α} (h : ¬p) : LacksText p (.ok a : Outcome α) := fun _ =>
  iff_of_false nofun fun hp => h hp.2

theorem of_pure {a : α} (h : ¬p) : LacksText p (pure a : Outcome α) := of_ok h

theorem of_noText (h : p) : LacksText p (.error .noText : Outcome α) := by
  intro failure
  constructor
  · rintro ⟨⟩
    exact ⟨rfl, h⟩
  · rintro ⟨rfl, _⟩
    rfl

theorem congr (hx : LacksText p x) (h : p ↔ q) : LacksText q x := by
  rwa [← propext h]

theorem bind {f : α → Outcome β} (hx : LacksText p x) (hf : ∀ a, LacksText q (f a)) :
    LacksText (p ∨ q) (x >>= f) := by
  intro failure
  cases x with
  | error other =>
      obtain ⟨rfl, hp⟩ := (hx other).mp rfl
      constructor
      · rintro ⟨⟩
        exact ⟨rfl, .inl hp⟩
      · rintro ⟨rfl, _⟩
        rfl
  | ok a =>
      have hp : ¬p := fun hp => nomatch (hx .noText).mpr ⟨rfl, hp⟩
      refine (hf a failure).trans (and_congr_right fun _ => ?_)
      exact ⟨.inr, fun h => h.resolve_left hp⟩

theorem map {f : α → Outcome β} (hx : LacksText p x) (hf : ∀ a, LacksText False (f a)) :
    LacksText p (x >>= f) :=
  (hx.bind hf).congr (or_iff_left not_false)

theorem exists_ok (hx : LacksText p x) (h : ¬p) : ∃ a, x = .ok a := by
  cases x with
  | error failure => exact absurd ((hx failure).mp rfl).2 h
  | ok a => exact ⟨a, rfl⟩

theorem failsOnlyWith (hx : LacksText p x) : FailsOnlyWith (· = .noText) x :=
  fun failure h => ((hx failure).mp h).1

end LacksText

end Outcome

open Outcome

/-- The codes under which a compilation reports mistakes. -/
def Defect.compileCodes : List String :=
  ["malformed_declaration", "unresolved_option_value", "unsupported_subtype",
    "decimal_value_not_allowed", "unknown_schema_reference"]

/-- The failure reports a mistake in what is compiled, at a path. -/
def Failure.Reports (path : Option String) (failure : Failure) : Prop :=
  ∃ defect, failure = .defect defect ∧ defect.code ∈ Defect.compileCodes ∧ defect.path = path

theorem Failure.Reports.ne_noText {path : Option String} {failure : Failure}
    (h : failure.Reports path) : failure ≠ .noText := by
  obtain ⟨defect, rfl, _⟩ := h
  simp

@[simp] theorem Outcome.malformed_reports {α : Type} (complaint : Complaint)
    (path : Option String) :
    FailsOnlyWith (Failure.Reports path) (malformed complaint path : Outcome α) :=
  .of_error ⟨_, rfl, List.mem_cons_self, rfl⟩

/-! ## Values without a text -/

/-- An integer of arbitrary size stands in the value, where JSON would have to hold it. -/
inductive Value.HoldsBigInt : Value → Prop
  | here (n : Int) : HoldsBigInt (.bigInt n)
  | item {items : List Value} {item : Value} (h : item ∈ items) (hitem : item.HoldsBigInt) :
      HoldsBigInt (.list items)
  | member {bare : Bool} {members : Record Value} {entry : String × Value}
      (hform : holdsFunction members Json.formName = false) (h : entry ∈ members)
      (hentry : entry.2.HoldsBigInt) : HoldsBigInt (.object bare members)

/-- An object that cannot write itself, or a list with such an object or with a symbol in it. -/
inductive Value.HasNoText : Value → Prop
  | object {bare : Bool} {members : Record Value}
      (hstring : holdsFunction members "toString" = false)
      (hown : (bare || members.has "toString") = true)
      (hvalue : holdsFunction members "valueOf" = false) : HasNoText (.object bare members)
  | symbol {items : List Value} {label : String} (h : .symbol label ∈ items) :
      HasNoText (.list items)
  | item {items : List Value} {item : Value} (h : item ∈ items) (hitem : item.HasNoText) :
      HasNoText (.list items)

namespace Json

variable (layout : Layout)

mutual

/-- A value has a JSON text, or is left out, unless an integer of arbitrary size stands in it. -/
theorem write_lacksText (depth : Nat) (v : Value) :
    LacksText v.HoldsBigInt (write layout depth v) := by
  cases v with
  | list items =>
      rw [write]
      refine (writeItems_lacksText (depth + 1) items).map (fun _ => .of_pure not_false)
        |>.congr ⟨?_, ?_⟩
      · rintro ⟨item, hmem, hitem⟩
        exact .item hmem hitem
      · rintro ⟨⟩
        exact ⟨_, ‹_ ∈ items›, ‹_›⟩
  | object bare members =>
      rw [write]
      split
      next hform =>
        refine .of_ok fun h => ?_
        cases h with
        | member hnone _ _ => simp [hform] at hnone
      next hform =>
        refine (writeMembers_lacksText (depth + 1) members).map (fun _ => .of_pure not_false)
          |>.congr ⟨?_, ?_⟩
        · rintro ⟨entry, hmem, hentry⟩
          exact .member (by simpa using hform) hmem hentry
        · rintro ⟨⟩
          exact ⟨_, ‹_ ∈ members›, ‹_›⟩
  | bigInt n => exact .of_noText (.here n)
  | date ms => cases ms <;> exact .of_ok nofun
  | host kind => cases kind <;> exact .of_ok nofun
  | _ => exact .of_ok nofun
termination_by sizeOf v

theorem writeItems_lacksText (depth : Nat) (items : List Value) :
    LacksText (∃ item ∈ items, item.HoldsBigInt) (writeItems layout depth items) := by
  cases items with
  | nil => exact .of_ok (by simp)
  | cons item rest =>
      rw [writeItems]
      refine ((write_lacksText depth item).bind fun _ =>
        (writeItems_lacksText depth rest).map fun _ => .of_pure not_false).congr ?_
      simp
termination_by sizeOf items

theorem writeMembers_lacksText (depth : Nat) (members : List (String × Value)) :
    LacksText (∃ entry ∈ members, entry.2.HoldsBigInt) (writeMembers layout depth members) := by
  match members with
  | [] => exact .of_ok (by simp)
  | (name, value) :: rest =>
      rw [writeMembers]
      refine ((write_lacksText depth value).bind fun text =>
        (writeMembers_lacksText depth rest).map fun _ => ?_).congr ?_
      · cases text <;> exact .of_pure not_false
      · simp
termination_by sizeOf members

end

end Json

namespace Value

mutual

/-- A value has a text, unless it is an object that cannot write itself or a list that holds one or
a symbol. -/
theorem toText_lacksText (v : Value) : LacksText v.HasNoText v.toText := by
  cases v with
  | list items =>
      rw [toText]
      refine (itemTexts_lacksText items).map (fun _ => .of_pure not_false) |>.congr ⟨?_, ?_⟩
      · rintro ⟨item, hmem, ⟨label, rfl⟩ | hitem⟩
        · exact .symbol hmem
        · exact .item hmem hitem
      · rintro (_ | hsymbol | ⟨hmem, hitem⟩)
        · exact ⟨_, hsymbol, .inl ⟨_, rfl⟩⟩
        · exact ⟨_, hmem, .inr hitem⟩
  | object bare members =>
      rw [toText, objectText]
      split
      next hstring =>
        refine .of_ok fun h => ?_
        cases h with
        | object hnone _ _ => simp [hstring] at hnone
      next hstring =>
        split
        next hown =>
          split
          next hvalue =>
            refine .of_ok fun h => ?_
            cases h with
            | object _ _ hnone => simp [hvalue] at hnone
          next hvalue =>
            exact .of_noText (.object (by simpa using hstring) hown (by simpa using hvalue))
        next hown =>
          refine .of_ok fun h => ?_
          cases h with
          | object _ hsome _ => exact hown hsome
  | date ms => cases ms <;> exact .of_ok nofun
  | host kind => cases kind <;> exact .of_ok nofun
  | _ => exact .of_ok nofun
termination_by sizeOf v

theorem itemTexts_lacksText (items : List Value) :
    LacksText (∃ item ∈ items, (∃ label, item = .symbol label) ∨ item.HasNoText)
      (itemTexts items) := by
  cases items with
  | nil => exact .of_ok (by simp)
  | cons item rest =>
      have hrest := itemTexts_lacksText rest
      have hitem := toText_lacksText item
      have hcons (hnot : ∀ label, item ≠ .symbol label) :
          (item.HasNoText ∨ ∃ other ∈ rest, (∃ label, other = .symbol label) ∨ other.HasNoText) ↔
            ∃ other ∈ item :: rest, (∃ label, other = .symbol label) ∨ other.HasNoText := by
        simp [hnot]
      cases item with
      | absent =>
          rw [itemTexts]
          refine (hrest.map fun _ => .of_pure not_false).congr (Iff.trans ?_ (hcons nofun))
          exact (or_iff_right nofun).symm
      | null =>
          rw [itemTexts]
          refine (hrest.map fun _ => .of_pure not_false).congr (Iff.trans ?_ (hcons nofun))
          exact (or_iff_right nofun).symm
      | symbol label => exact .of_noText ⟨_, List.mem_cons_self, .inl ⟨label, rfl⟩⟩
      | _ =>
          rw [itemTexts]
          · exact (hitem.bind fun _ => hrest.map fun _ => .of_pure not_false).congr (hcons nofun)
          all_goals exact nofun
termination_by sizeOf items

end

theorem describe_eq_ok {v : Value} (h : ¬v.HasNoText) : ∃ text, v.describe = .ok text := by
  obtain ⟨text, htext⟩ := v.toText_lacksText.exists_ok h
  unfold describe
  simp only [htext]
  split <;> exact ⟨_, rfl⟩

theorem toSetting_failsOnlyWith (v : Value) : FailsOnlyWith (· = .noText) v.toSetting := by
  unfold toSetting
  split
  next => exact .of_ok _
  next => exact .of_ok _
  -- six kinds of values are written as JSON
  iterate 6
    next =>
      refine (Json.write_lacksText _ _ _).failsOnlyWith.bind fun json _ => ?_
      cases json <;> exact .of_pure _
  next => exact (toText_lacksText _).failsOnlyWith.bind fun _ _ => .of_pure _

/-! ## Literals -/

/-- The value is JSON data. -/
inductive IsJson : Value → Prop
  | null : IsJson .null
  | bool (flag : Bool) : IsJson (.bool flag)
  | number (x : Float) : IsJson (.number x)
  | text (s : String) : IsJson (.text s)
  | list {items : List Value} (h : ∀ item ∈ items, item.IsJson) : IsJson (.list items)
  | object {bare : Bool} {members : Record Value} (h : ∀ entry ∈ members, entry.2.IsJson) :
      IsJson (.object bare members)

theorem IsJson.not_holdsBigInt {v : Value} (h : v.IsJson) : ¬v.HoldsBigInt := by
  intro hholds
  induction hholds with
  | here n => cases h
  | item hmem _ ih =>
      cases h with
      | list heach => exact ih (heach _ hmem)
  | member _ hmem _ ih =>
      cases h with
      | object heach => exact ih (heach _ hmem)

/-- JSON data has a JSON text. -/
theorem IsJson.write_eq_some {v : Value} (h : v.IsJson) (layout : Json.Layout) (depth : Nat) :
    ∃ text, Json.write layout depth v = .ok (some text) := by
  obtain ⟨json, hjson⟩ := (Json.write_lacksText layout depth v).exists_ok h.not_holdsBigInt
  cases h with
  | list _ =>
      rw [Json.write] at hjson ⊢
      obtain ⟨texts, htexts, _⟩ := bind_eq_ok.mp hjson
      exact ⟨_, bind_eq_ok.mpr ⟨texts, htexts, rfl⟩⟩
  | @object bare members hmembers =>
      -- no member is a function, so none gives the JSON form
      have hform : holdsFunction members Json.formName = false := by
        unfold holdsFunction
        split
        next arity hget => cases hmembers _ (Record.mem_of_get? hget)
        next => rfl
      rw [Json.write, if_neg (by simp [hform])] at hjson ⊢
      obtain ⟨texts, htexts, _⟩ := bind_eq_ok.mp hjson
      exact ⟨_, bind_eq_ok.mpr ⟨texts, htexts, rfl⟩⟩
  | _ => exact ⟨_, rfl⟩

/-- JSON data is written as a text. -/
theorem IsJson.toSetting_eq_text {v : Value} (h : v.IsJson) :
    ∃ text, v.toSetting = .ok (.text text) := by
  obtain ⟨text, htext⟩ := h.write_eq_some .compact 0
  have hcompact : Json.compact? v = .ok (some text) := htext
  cases h with
  | list _ =>
      rw [toSetting, hcompact]
      exact ⟨_, rfl⟩
  | object _ =>
      rw [toSetting, hcompact]
      exact ⟨_, rfl⟩
  | _ => exact ⟨_, rfl⟩

theorem notLiteral_reports (option : String) (path : Option String) {v : Value}
    (h : ¬v.HasNoText) :
    FailsOnlyWith (Failure.Reports path) (literal.notLiteral option path v) := by
  obtain ⟨text, htext⟩ := describe_eq_ok h
  rw [literal.notLiteral, htext]
  exact .of_error ⟨_, rfl, by simp [Defect.code, Defect.compileCodes], rfl⟩

mutual

/-- A value that is no literal is reported. -/
theorem literal_reports (option : String) (path : Option String) (v : Value) :
    FailsOnlyWith (Failure.Reports path) (literal option path v) := by
  cases v with
  | null => exact .of_ok _
  | bool flag => exact .of_ok _
  | text s => exact .of_ok _
  | number x =>
      rw [literal]
      split
      next => exact .of_ok _
      next => exact notLiteral_reports option path nofun
  | date ms =>
      cases ms with
      | none => exact notLiteral_reports option path nofun
      | some ms => exact .of_ok _
  | list items =>
      rw [literal]
      exact (literalItems_reports option path items).bind fun _ _ => .of_pure _
  | object bare members =>
      rw [literal]
      exact (literalMembers_reports option path members).bind fun _ _ => .of_pure _
  | _ => exact notLiteral_reports option path nofun
termination_by sizeOf v

theorem literalItems_reports (option : String) (path : Option String) (items : List Value) :
    FailsOnlyWith (Failure.Reports path) (literalItems option path items) := by
  cases items with
  | nil => exact .of_ok _
  | cons item rest =>
      rw [literalItems]
      exact (literal_reports option path item).bind fun _ _ =>
        (literalItems_reports option path rest).bind fun _ _ => .of_pure _
termination_by sizeOf items

theorem literalMembers_reports (option : String) (path : Option String)
    (members : List (String × Value)) :
    FailsOnlyWith (Failure.Reports path) (literalMembers option path members) := by
  match members with
  | [] => exact .of_ok _
  | (name, value) :: rest =>
      rw [literalMembers]
      exact (literal_reports option path value).bind fun _ _ =>
        (literalMembers_reports option path rest).bind fun _ _ => .of_pure _
termination_by sizeOf members

end

mutual

/-- A literal is JSON data. -/
theorem literal_isJson (option : String) (path : Option String) (v : Value) {resolved : Value}
    (h : literal option path v = .ok resolved) : resolved.IsJson := by
  have hnot {other : Value} (h : literal.notLiteral option path other = .ok resolved) : False := by
    obtain ⟨_, _, h⟩ := bind_eq_ok.mp h
    cases h
  cases v with
  | null =>
      obtain rfl := Except.ok.inj h
      exact .null
  | bool flag =>
      obtain rfl := Except.ok.inj h
      exact .bool flag
  | text s =>
      obtain rfl := Except.ok.inj h
      exact .text s
  | number x =>
      rw [literal] at h
      split at h
      next =>
        obtain rfl := Except.ok.inj h
        exact .number x
      next => exact (hnot h).elim
  | date ms =>
      cases ms with
      | none => exact (hnot h).elim
      | some ms =>
          obtain rfl := Except.ok.inj h
          exact .text _
  | list items =>
      rw [literal] at h
      obtain ⟨literals, hliterals, h⟩ := bind_eq_ok.mp h
      obtain rfl := pure_eq_ok.mp h
      exact .list (literalItems_isJson option path items hliterals)
  | object bare members =>
      rw [literal] at h
      obtain ⟨literals, hliterals, h⟩ := bind_eq_ok.mp h
      obtain rfl := pure_eq_ok.mp h
      have heach := literalMembers_isJson option path members hliterals
      exact .object fun entry hentry => heach entry (Record.mem_of_mem_ofAssignments hentry)
  | _ => exact (hnot h).elim
termination_by sizeOf v

theorem literalItems_isJson (option : String) (path : Option String) (items : List Value)
    {literals : List Value} (h : literalItems option path items = .ok literals) :
    ∀ item ∈ literals, item.IsJson := by
  cases items with
  | nil =>
      obtain rfl := Except.ok.inj h
      simp
  | cons item rest =>
      rw [literalItems] at h
      obtain ⟨resolved, hresolved, h⟩ := bind_eq_ok.mp h
      obtain ⟨others, hothers, h⟩ := bind_eq_ok.mp h
      obtain rfl := pure_eq_ok.mp h
      refine List.forall_mem_cons.mpr ⟨literal_isJson option path item hresolved, ?_⟩
      exact literalItems_isJson option path rest hothers
termination_by sizeOf items

theorem literalMembers_isJson (option : String) (path : Option String)
    (members : List (String × Value)) {literals : List (String × Value)}
    (h : literalMembers option path members = .ok literals) :
    ∀ entry ∈ literals, entry.2.IsJson := by
  match members with
  | [] =>
      obtain rfl := Except.ok.inj h
      simp
  | (name, value) :: rest =>
      rw [literalMembers] at h
      obtain ⟨resolved, hresolved, h⟩ := bind_eq_ok.mp h
      obtain ⟨others, hothers, h⟩ := bind_eq_ok.mp h
      obtain rfl := pure_eq_ok.mp h
      refine List.forall_mem_cons.mpr ⟨literal_isJson option path value hresolved, ?_⟩
      exact literalMembers_isJson option path rest hothers
termination_by sizeOf members

end

end Value

namespace OptionSet

/-- Every option has JSON data as its value. -/
def IsJson (options : OptionSet) : Prop :=
  ∀ entry ∈ options, entry.2.IsJson

theorem requirePlainDecimals_reports (options : OptionSet) (path : Option String) :
    FailsOnlyWith (Failure.Reports path) (options.requirePlainDecimals path) := by
  refine FailsOnlyWith.forM _ fun key => ?_
  cases List.lookup key options with
  | none => exact .of_ok _
  | some v =>
      dsimp only
      split
      next hv =>
        have hnot : ¬v.HasNoText := by
          rintro (_ | _ | _) <;> simp [Value.isArbitraryPrecision] at hv
        obtain ⟨text, htext⟩ := Value.describe_eq_ok hnot
        rw [htext]
        exact .of_error ⟨_, rfl, by simp [Defect.code, Defect.compileCodes], rfl⟩
      next => exact .of_ok _

theorem resolve_reports (options : OptionSet) (path : Option String) :
    FailsOnlyWith (Failure.Reports path) (options.resolve path) :=
  .mapM _ fun (key, value) => (value.literal_reports key.name path).bind fun _ _ => .of_pure _

theorem resolve_isJson {options literals : OptionSet} {path : Option String}
    (h : options.resolve path = .ok literals) : literals.IsJson := by
  induction options generalizing literals with
  | nil =>
      obtain rfl := pure_eq_ok.mp h
      exact List.forall_mem_nil _
  | cons entry rest ih =>
      rw [resolve, List.mapM_cons] at h
      obtain ⟨first, hfirst, h⟩ := bind_eq_ok.mp h
      obtain ⟨others, hothers, h⟩ := bind_eq_ok.mp h
      obtain rfl := pure_eq_ok.mp h
      obtain ⟨literal, hliteral, hfirst⟩ := bind_eq_ok.mp hfirst
      obtain rfl := pure_eq_ok.mp hfirst
      refine List.forall_mem_cons.mpr ⟨?_, ih hothers⟩
      exact Value.literal_isJson _ _ _ hliteral

theorem IsJson.get? {options : OptionSet} (h : options.IsJson) {key : OptionKey} {v : Value}
    (hv : options.get? key = some v) : v.IsJson := by
  unfold OptionSet.get? at hv
  split at hv
  next value hvalue =>
    obtain ⟨_, _, rfl, _⟩ := List.lookup_eq_some_iff.mp hvalue
    have hjson : value.IsJson := h (key, value) (by simp)
    unfold Value.toOption at hv
    split at hv
    next => cases hv
    next => exact Option.some.inj hv ▸ hjson
  next => cases hv

end OptionSet

/-- The defaults of every type are JSON data. -/
def TypeDefaults.IsJson (defaults : TypeDefaults) : Prop :=
  ∀ type, (defaults.optionsFor type).IsJson

/-- Examples of dates and of instants are the only defaults. -/
theorem TypeDefaults.examples_isJson (date datetime : String) :
    IsJson [(.date, [(.example, .text date)]), (.datetime, [(.example, .text datetime)])] := by
  intro type
  cases type with
  | date => exact List.forall_mem_singleton.mpr (.text _)
  | datetime => exact List.forall_mem_singleton.mpr (.text _)
  | _ => exact List.forall_mem_nil _

namespace Compilation

/-! ## Compiling a field -/

section Field

variable (options : OptionSet) (key : OptionKey) (path : String)

theorem numberOption_reports :
    FailsOnlyWith (Failure.Reports (some path)) (numberOption options key path) := by
  unfold numberOption
  split <;> simp

theorem textOption_reports :
    FailsOnlyWith (Failure.Reports (some path)) (textOption options key path) := by
  unfold textOption
  split <;> simp

theorem flagOption_reports :
    FailsOnlyWith (Failure.Reports (some path)) (flagOption options key path) := by
  unfold flagOption
  split <;> simp

theorem keywords_reports :
    FailsOnlyWith (Failure.Reports (some path)) (keywords options path) := by
  unfold keywords
  iterate 4 refine (numberOption_reports options _ path).bind fun _ _ => ?_
  iterate 4 refine (textOption_reports options _ path).bind fun _ _ => ?_
  iterate 4 refine (flagOption_reports options _ path).bind fun _ _ => ?_
  exact .of_pure _

theorem choiceValues_reports :
    FailsOnlyWith (Failure.Reports (some path)) (choiceValues options key path) := by
  unfold choiceValues
  split
  next =>
    refine .mapM _ fun v => ?_
    unfold choiceText
    split <;> simp
  next => simp

end Field

theorem mergeOptions_reports (type : FieldType) (declared override defaults : OptionSet)
    (path : String) :
    FailsOnlyWith (Failure.Reports (some path))
      (mergeOptions type declared override defaults path) := by
  rw [mergeOptions_eq]
  refine FailsOnlyWith.bind ?_ fun _ _ => (OptionSet.resolve_reports _ _).bind fun _ _ =>
    (OptionSet.resolve_reports _ _).bind fun _ _ => .of_pure _
  unfold requirePlain
  split
  next =>
    exact (declared.requirePlainDecimals_reports _).bind fun _ _ =>
      override.requirePlainDecimals_reports _
  next => exact .of_ok _

section Settings

/-! The functions below write settings. They end as these end, or report a mistake. -/

variable {P : Failure → Prop} {ctx : FieldContext}

theorem compilePlain_fails (hreports : ∀ failure, failure.Reports (some ctx.path) → P failure)
    (leaf : LeafType) (type : RuleType) (imposed : Imposed) :
    FailsOnlyWith P (compilePlain ctx leaf type imposed) :=
  ((keywords_reports _ _).mono hreports).bind fun _ _ => .of_pure _

variable (hreports : ∀ failure, failure.Reports (some ctx.path) → P failure)
  (hsettings : ∀ key v, ctx.options.get? key = some v → FailsOnlyWith P v.toSetting)

include hreports hsettings

theorem compileTemporal_fails (format : String) (type : RuleType) (canonical : String) :
    FailsOnlyWith P (compileTemporal ctx format type canonical) := by
  refine ((keywords_reports _ _).mono hreports).bind fun _ _ => ?_
  refine FailsOnlyWith.bind ?_ fun _ _ => .of_pure _
  cases hgiven : ctx.options.get? .example with
  | none => exact .of_ok _
  | some v =>
      change FailsOnlyWith P (v.orElse (.text canonical)).toSetting
      unfold Value.orElse
      split
      next => exact .of_ok _
      next => exact hsettings _ v hgiven

theorem compileChoice_fails (source : OptionKey) : FailsOnlyWith P (compileChoice ctx source) := by
  refine ((choiceValues_reports _ _ _).mono hreports).bind fun _ _ => ?_
  refine ((keywords_reports _ _).mono hreports).bind fun given hgiven => ?_
  refine FailsOnlyWith.bind ?_ fun _ _ => .of_pure _
  cases hdefault : given.default with
  | none => exact .of_pure _
  | some v =>
      refine FailsOnlyWith.bind (hsettings .default v ?_) fun _ _ => .of_pure _
      rw [← (statesConstraints hgiven).default, hdefault]

theorem compileScalar_fails (type : ScalarType) : FailsOnlyWith P (compileScalar ctx type) := by
  have hplain := compilePlain_fails hreports
  have htemporal := compileTemporal_fails hreports hsettings
  cases type with
  | string =>
      rw [compileScalar]
      split
      next => exact compileChoice_fails hreports hsettings _
      next => exact hplain _ _ _
  | integer => exact hplain _ _ _
  | number => exact hplain _ _ _
  | boolean => exact hplain _ _ _
  | uuid => exact hplain _ _ _
  | date => exact htemporal _ _ _
  | datetime => exact htemporal _ _ _
  | decimal => exact hplain _ _ _
  | enumeration => exact compileChoice_fails hreports hsettings _
  | object => exact ((keywords_reports _ _).mono hreports).bind fun _ _ => .of_pure _

end Settings

theorem compileArray_reports (ctx : FieldContext) (element : ElementType) :
    FailsOnlyWith (Failure.Reports (some ctx.path)) (compileArray ctx element) := by
  refine (keywords_reports _ _).bind fun _ _ => ?_
  cases element <;> exact .of_pure _

section Around

variable {around : Surroundings} {parent : String} {head : FieldHead}

theorem fieldContext_reports :
    FailsOnlyWith (Failure.Reports (some (joinPath parent head.name)))
      (fieldContext around parent head) :=
  (mergeOptions_reports _ _ _ _ _).bind fun _ _ => .of_pure _

/-- A field ends as the settings among its options end, or reports a mistake at its path. -/
theorem compileField_fails {P : Failure → Prop}
    (hreports : ∀ failure, failure.Reports (some (joinPath parent head.name)) → P failure)
    (hsettings : ∀ ctx, fieldContext around parent head = .ok ctx →
      ∀ key v, ctx.options.get? key = some v → FailsOnlyWith P v.toSetting) :
    FailsOnlyWith P (compileField around parent head) := by
  refine (fieldContext_reports.mono hreports).bind fun ctx hctx => ?_
  rw [← fieldContext_path hctx] at hreports
  cases head.type with
  | scalar type => exact compileScalar_fails hreports (hsettings ctx hctx) type
  | array element => exact (compileArray_reports ctx element).mono hreports

/-- Over type defaults that are JSON data, so are the options of every field. -/
theorem fieldContext_isJson (hdefaults : around.typeDefaults.IsJson) {ctx : FieldContext}
    (hctx : fieldContext around parent head = .ok ctx) : ctx.options.IsJson := by
  obtain ⟨options, hoptions, hctx⟩ := bind_eq_ok.mp hctx
  obtain rfl := pure_eq_ok.mp hctx
  obtain ⟨lower, upper, hlower, hupper, rfl⟩ := mergeOptions_eq_ok hoptions
  have hlast : (defaultsFor around.typeDefaults head.type).IsJson := by
    cases head.type with
    | scalar type => exact hdefaults type
    | array element => exact List.forall_mem_nil _
  intro entry hentry
  rcases List.mem_append.mp hentry with hentry | hentry
  · exact OptionSet.resolve_isJson hupper entry hentry
  rcases List.mem_append.mp hentry with hentry | hentry
  · exact OptionSet.resolve_isJson hlower entry hentry
  · exact hlast entry hentry

end Around

end Compilation

end FieldSchema
