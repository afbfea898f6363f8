import FieldSchema.Proofs.JsonData
import FieldSchema.Proofs.Literals

/-!
# What resolving keeps

Resolving writes dates out and makes every object anew, by assigning one member after another. All
of a value is kept exactly when no object in it has the name that assignment loses. Then JSON data
resolves to itself, and resolving once more changes nothing.
-/

namespace FieldSchema

open Outcome

namespace Record

/-- Entries that stand as an object enumerates them are kept as they are. -/
theorem ofAssignments_eq_self {α : Type} {entries : Record α} (h : AreEnumerated entries.names)
    (hreserved : reservedName ∉ entries.names) : ofAssignments entries = entries := by
  rw [ofAssignments_of_not_mem hreserved]
  exact ofList_eq_self h.distinct h.ordered

end Record

namespace Value

mutual

/-- A value with every valid date in it written as its ISO text. Its objects are ordinary ones and
keep all their names. -/
def written : Value → Value
  | .date (some ms) => .text (Instant.isoText ms)
  | .list items => .list (writtenItems items)
  | .object _ members => .object false (writtenMembers members)
  | v => v

def writtenItems : List Value → List Value
  | [] => []
  | item :: rest => written item :: writtenItems rest

def writtenMembers : List (String × Value) → List (String × Value)
  | [] => []
  | (name, value) :: rest => (name, written value) :: writtenMembers rest

end

/-- No object in a value has the name that assignment loses. -/
def AvoidsReserved (v : Value) : Prop :=
  v.EveryObject fun _ names => Record.reservedName ∉ names

/-! ## Item by item -/

theorem resolvedItems_eq_map (items : List Value) : resolvedItems items = items.map resolved := by
  induction items with
  | nil => rfl
  | cons item rest ih => rw [resolvedItems, ih, List.map_cons]

theorem writtenItems_eq_map (items : List Value) : writtenItems items = items.map written := by
  induction items with
  | nil => rfl
  | cons item rest ih => rw [writtenItems, ih, List.map_cons]

theorem resolvedMembers_eq_mapValues (members : Record Value) :
    resolvedMembers members = members.mapValues resolved := by
  induction members with
  | nil => rfl
  | cons entry rest ih =>
      rw [resolvedMembers, ih]
      rfl

theorem writtenMembers_eq_mapValues (members : Record Value) :
    writtenMembers members = members.mapValues written := by
  induction members with
  | nil => rfl
  | cons entry rest ih =>
      rw [writtenMembers, ih]
      rfl

theorem mapValues_eq_iff {f g : Value → Value} {members : Record Value} :
    members.mapValues f = members.mapValues g ↔ ∀ entry ∈ members, f entry.2 = g entry.2 := by
  simp [Record.mapValues, List.map_inj_left]

/-! ## Literals -/

namespace IsLiteral

variable {v : Value}

/-- A literal is kept whole exactly when it avoids the name that assignment loses. -/
theorem resolved_eq_written_iff (h : v.IsLiteral) (hv : v.IsEnumerated) :
    v.resolved = v.written ↔ v.AvoidsReserved := by
  induction h with
  | null => exact iff_of_true rfl (everyObject_of_isSingle rfl)
  | bool flag => exact iff_of_true rfl (everyObject_of_isSingle rfl)
  | text s => exact iff_of_true rfl (everyObject_of_isSingle rfl)
  | number hx => exact iff_of_true rfl (everyObject_of_isSingle rfl)
  | date ms => exact iff_of_true rfl (everyObject_of_isSingle rfl)
  | @list items _ ih =>
      have hitems := everyObject_list_iff.mp hv
      rw [resolved, written, list.injEq, resolvedItems_eq_map, writtenItems_eq_map,
        List.map_inj_left, AvoidsReserved, everyObject_list_iff]
      exact forall₂_congr fun item hitem => ih item hitem (hitems item hitem)
  | @object bare members _ ih =>
      obtain ⟨hnames, hmembers⟩ := everyObject_object_iff.mp hv
      rw [resolved, written, object.injEq, resolvedMembers_eq_mapValues,
        writtenMembers_eq_mapValues, AvoidsReserved, everyObject_object_iff]
      by_cases hreserved : Record.reservedName ∈ members.names
      · refine iff_of_false ?_ fun h => h.1 hreserved
        rintro ⟨-, heq⟩
        apply Record.reservedName_not_mem_ofAssignments (members.mapValues resolved)
        rw [heq, Record.names_mapValues]
        exact hreserved
      · have hkept : Record.ofAssignments (members.mapValues resolved) =
            members.mapValues resolved := by
          apply Record.ofAssignments_eq_self <;> rwa [Record.names_mapValues]
        rw [hkept, mapValues_eq_iff]
        refine and_congr (iff_of_true rfl hreserved) ?_
        exact forall₂_congr fun entry hentry => ih entry hentry (hmembers entry hentry)

theorem written (h : v.IsLiteral) : v.written.IsLiteral := by
  induction h with
  | null => exact .null
  | bool flag => exact .bool flag
  | text s => exact .text s
  | number hx => exact .number hx
  | date ms => exact .text _
  | list _ ih =>
      rw [Value.written, writtenItems_eq_map]
      apply IsLiteral.list
      intro item hitem
      obtain ⟨source, hsource, rfl⟩ := List.mem_map.mp hitem
      exact ih source hsource
  | object _ ih =>
      rw [Value.written, writtenMembers_eq_mapValues]
      apply IsLiteral.object
      intro entry hentry
      obtain ⟨source, hsource, rfl⟩ := List.mem_map.mp hentry
      exact ih source hsource

/-- Writing dates out keeps the names of every object, and makes it an ordinary one. -/
theorem everyObject_written {P : List String → Prop} (h : v.IsLiteral)
    (hv : v.EveryObject fun _ names => P names) :
    v.written.EveryObject fun bare names => bare = false ∧ P names := by
  induction h with
  | null => exact everyObject_of_isSingle rfl
  | bool flag => exact everyObject_of_isSingle rfl
  | text s => exact everyObject_of_isSingle rfl
  | number hx => exact everyObject_of_isSingle rfl
  | date ms => exact everyObject_of_isSingle rfl
  | list _ ih =>
      have hitems := everyObject_list_iff.mp hv
      rw [Value.written, writtenItems_eq_map, everyObject_list_iff]
      intro item hitem
      obtain ⟨source, hsource, rfl⟩ := List.mem_map.mp hitem
      exact ih source hsource (hitems source hsource)
  | object _ ih =>
      obtain ⟨hnames, hmembers⟩ := everyObject_object_iff.mp hv
      rw [Value.written, writtenMembers_eq_mapValues, everyObject_object_iff,
        Record.names_mapValues]
      refine ⟨⟨rfl, hnames⟩, ?_⟩
      intro entry hentry
      obtain ⟨source, hsource, rfl⟩ := List.mem_map.mp hentry
      exact ih source hsource (hmembers source hsource)

end IsLiteral

/-- JSON data has no dates to be written out. -/
theorem IsJson.written_eq_self {v : Value} (h : v.IsJson) (hordinary : v.IsOrdinary) :
    v.written = v := by
  induction h with
  | null => rfl
  | bool flag => rfl
  | number x => rfl
  | text s => rfl
  | @list items _ ih =>
      have hitems := everyObject_list_iff.mp hordinary
      rw [written, writtenItems_eq_map]
      apply congrArg
      refine (List.map_congr_left fun item hitem => ?_).trans (List.map_id items)
      exact ih item hitem (hitems item hitem)
  | @object bare members _ ih =>
      obtain ⟨rfl, hmembers⟩ := everyObject_object_iff.mp hordinary
      rw [written, writtenMembers_eq_mapValues]
      apply congrArg
      refine (List.map_congr_left fun entry hentry => ?_).trans (List.map_id members)
      rw [ih entry hentry (hmembers entry hentry)]
      rfl

/-- An option's value resolves exactly when it is a literal throughout. Whatever it resolves to is
the same value with its dates written out, exactly when no object in it has the name that assignment
loses. Then resolving once more, for whatever option, changes nothing. JSON data resolves to itself
under the same condition. -/
theorem literal_keeps_iff (v : Value) (option : String) (path : Option String) :
    ((∃ r, v.literal option path = .ok r) ↔ v.IsLiteral) ∧
    (v.IsEnumerated → ∀ r, v.literal option path = .ok r →
      (r = v.written ↔ v.AvoidsReserved) ∧
      (v.AvoidsReserved → ∀ option path, r.literal option path = .ok r) ∧
      (v.IsPlainJson → (r = v ↔ v.AvoidsReserved))) := by
  constructor
  · simp [literal_eq_ok_iff]
  · intro hv r hr
    have hjson := literal_isJson option path v hr
    obtain ⟨hliteral, rfl⟩ := (literal_eq_ok_iff option path).mp hr
    have hkept := hliteral.resolved_eq_written_iff hv
    refine ⟨hkept, ?_, ?_⟩
    · intro havoids option path
      rw [hkept.mpr havoids] at hjson ⊢
      have hnames : v.EveryObject fun _ names =>
          Record.AreEnumerated names ∧ Record.reservedName ∉ names := EveryObject.and hv havoids
      have hobjects := hliteral.everyObject_written hnames
      have hwritten : v.written.written = v.written :=
        hjson.written_eq_self (hobjects.mono fun _ _ h => h.1)
      have hagain := hliteral.written.resolved_eq_written_iff (hobjects.mono fun _ _ h => h.2.1)
      refine (literal_eq_ok_iff option path).mpr ⟨hliteral.written, ?_⟩
      exact (hagain.mpr (hobjects.mono fun _ _ h => h.2.2)).trans hwritten
    · intro hplain
      rw [← hkept, hplain.json.written_eq_self hplain.isOrdinary]

/-- A menu in JSON. -/
def menuText : String :=
  "\x7b\"soups\": [\"leek\", null], \"2\": \x7b\"open\": true\x7d\x7d"

/-- The menu as it is read: the name that spells an array index comes first. -/
def menu : Value :=
  .object false [("2", .object false [("open", .bool true)]), ("soups", .list [.text "leek", .null])]

theorem literal_keeps_menu :
    Json.read? menuText = some menu ∧
      ∃ r, menu.literal "example" none = .ok r ∧ r = menu ∧ r = menu.written ∧
        ∀ option path, r.literal option path = .ok r := by
  have hread : Json.read? menuText = some menu := by cbv
  have hplain : menu.IsPlainJson := Json.read?_isPlainJson hread
  have hliteral : menu.IsLiteral := (isLiteral_iff menu).mpr (by rfl)
  have hopen : AvoidsReserved (.object false [("open", .bool true)]) :=
    everyObject_object_iff.mpr ⟨by decide, by simpa using everyObject_of_isSingle rfl⟩
  have hsoups : AvoidsReserved (.list [.text "leek", .null]) := by
    refine everyObject_list_iff.mpr ?_
    simpa using ⟨everyObject_of_isSingle rfl, everyObject_of_isSingle rfl⟩
  have havoids : menu.AvoidsReserved :=
    everyObject_object_iff.mpr ⟨by decide, by simpa using ⟨hopen, hsoups⟩⟩
  obtain ⟨hresolves, hkeeps⟩ := literal_keeps_iff menu "example" none
  obtain ⟨r, hr⟩ := hresolves.mpr hliteral
  obtain ⟨hwritten, hagain, hself⟩ := hkeeps hplain.isEnumerated r hr
  exact ⟨hread, r, hr, (hself hplain).mpr havoids, hwritten.mpr havoids, hagain havoids⟩

/-- A literal in JSON that has the name that assignment loses. Its object resolves without it. -/
theorem literal_loses_reserved :
    ∃ v r, Json.read? "\x7b\"__proto__\": \"x\", \"a\": \"y\"\x7d" = some v ∧ v.IsLiteral ∧
      v.literal "example" none = .ok r ∧ r ≠ v ∧ r ≠ v.written ∧
      v = .object false [("__proto__", .text "x"), ("a", .text "y")] ∧
      r = .object false [("a", .text "y")] := by
  refine ⟨.object false [("__proto__", .text "x"), ("a", .text "y")],
    .object false [("a", .text "y")], by cbv, ?_, by rfl, by simp, ?_, rfl, rfl⟩
  · exact (isLiteral_iff _).mpr (by rfl)
  · simp [written, writtenMembers]

end Value

end FieldSchema
