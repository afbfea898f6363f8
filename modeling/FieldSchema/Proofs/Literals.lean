import FieldSchema.Proofs.Failures

/-!
# Literals

An option resolves exactly when its value is literal throughout: JSON data, with valid dates among
it. The resolved value is the same data with every date written as its ISO text. What does not
resolve is refused for the first value in it that is no literal.
-/

namespace FieldSchema

open Outcome

namespace Value

/-- The value is known when a schema is defined: JSON data that may have valid dates in it. -/
inductive IsLiteral : Value → Prop
  | null : IsLiteral .null
  | bool (flag : Bool) : IsLiteral (.bool flag)
  | text (s : String) : IsLiteral (.text s)
  | number {x : Float} (h : x.isFinite = true) : IsLiteral (.number x)
  | date (ms : Int) : IsLiteral (.date (some ms))
  | list {items : List Value} (h : ∀ item ∈ items, item.IsLiteral) : IsLiteral (.list items)
  | object {bare : Bool} {members : Record Value} (h : ∀ entry ∈ members, entry.2.IsLiteral) :
      IsLiteral (.object bare members)

mutual

/-- A value with every valid date in it written as its ISO text, and with its objects made anew. -/
def resolved : Value → Value
  | .date (some ms) => .text (Instant.isoText ms)
  | .list items => .list (resolvedItems items)
  | .object _ members => .object false (Record.ofAssignments (resolvedMembers members))
  | v => v

def resolvedItems : List Value → List Value
  | [] => []
  | item :: rest => resolved item :: resolvedItems rest

def resolvedMembers : List (String × Value) → List (String × Value)
  | [] => []
  | (name, value) :: rest => (name, resolved value) :: resolvedMembers rest

end

mutual

/-- The first value that is no literal, in reading order. -/
def offender? : Value → Option Value
  | .null | .bool _ | .text _ | .date (some _) => none
  | .number x => if x.isFinite then none else some (.number x)
  | .list items => itemOffender? items
  | .object _ members => memberOffender? members
  | v => some v

def itemOffender? : List Value → Option Value
  | [] => none
  | item :: rest => (offender? item).or (itemOffender? rest)

def memberOffender? : List (String × Value) → Option Value
  | [] => none
  | (_, value) :: rest => (offender? value).or (memberOffender? rest)

end

/-! ## What is refused -/

mutual

/-- Lists and objects are not refused themselves, so that every offender can be described. -/
theorem offender?_hasText (v : Value) {bad : Value} (h : v.offender? = some bad) :
    ¬bad.HasNoText := by
  cases v with
  | number x =>
      rw [offender?] at h
      split at h
      next => cases h
      next =>
        obtain rfl := Option.some.inj h
        exact nofun
  | date ms =>
      cases ms with
      | none =>
          obtain rfl := Option.some.inj h
          exact nofun
      | some ms => cases h
  | list items =>
      rw [offender?] at h
      exact itemOffender?_hasText items h
  | object bare members =>
      rw [offender?] at h
      exact memberOffender?_hasText members h
  | null => cases h
  | bool flag => cases h
  | text s => cases h
  | _ =>
      obtain rfl := Option.some.inj h
      exact nofun
termination_by sizeOf v

theorem itemOffender?_hasText (items : List Value) {bad : Value}
    (h : itemOffender? items = some bad) : ¬bad.HasNoText := by
  cases items with
  | nil => cases h
  | cons item rest =>
      rw [itemOffender?] at h
      rcases Option.or_eq_some_iff.mp h with hitem | ⟨_, hrest⟩
      · exact offender?_hasText item hitem
      · exact itemOffender?_hasText rest hrest
termination_by sizeOf items

theorem memberOffender?_hasText (members : List (String × Value)) {bad : Value}
    (h : memberOffender? members = some bad) : ¬bad.HasNoText := by
  match members with
  | [] => cases h
  | (name, value) :: rest =>
      rw [memberOffender?] at h
      rcases Option.or_eq_some_iff.mp h with hvalue | ⟨_, hrest⟩
      · exact offender?_hasText value hvalue
      · exact memberOffender?_hasText rest hrest
termination_by sizeOf members

end

mutual

/-- Literals are the values without an offender. -/
theorem isLiteral_iff (v : Value) : v.IsLiteral ↔ v.offender? = none := by
  cases v with
  | null => exact iff_of_true .null rfl
  | bool flag => exact iff_of_true (.bool flag) rfl
  | text s => exact iff_of_true (.text s) rfl
  | number x =>
      rw [offender?]
      split
      next hx => exact iff_of_true (.number hx) rfl
      next hx => exact iff_of_false (fun | .number h => hx h) nofun
  | date ms =>
      cases ms with
      | none => exact iff_of_false nofun nofun
      | some ms => exact iff_of_true (.date ms) rfl
  | list items =>
      rw [offender?, ← forall_isLiteral_iff items]
      exact ⟨fun | .list h => h, .list⟩
  | object bare members =>
      rw [offender?, ← forall_member_isLiteral_iff members]
      exact ⟨fun | .object h => h, .object⟩
  | _ => exact iff_of_false nofun nofun
termination_by sizeOf v

theorem forall_isLiteral_iff (items : List Value) :
    (∀ item ∈ items, item.IsLiteral) ↔ itemOffender? items = none := by
  cases items with
  | nil => exact iff_of_true (by simp) rfl
  | cons item rest =>
      rw [itemOffender?, List.forall_mem_cons, isLiteral_iff item, forall_isLiteral_iff rest,
        Option.or_eq_none_iff]
termination_by sizeOf items

theorem forall_member_isLiteral_iff (members : List (String × Value)) :
    (∀ entry ∈ members, entry.2.IsLiteral) ↔ memberOffender? members = none := by
  match members with
  | [] => exact iff_of_true (by simp) rfl
  | (name, value) :: rest =>
      rw [memberOffender?, List.forall_mem_cons, isLiteral_iff value,
        forall_member_isLiteral_iff rest, Option.or_eq_none_iff]
termination_by sizeOf members

end

theorem not_isLiteral_iff {v : Value} : ¬v.IsLiteral ↔ ∃ bad, v.offender? = some bad := by
  rw [isLiteral_iff, ← ne_eq, Option.ne_none_iff_exists']

/-! ## Resolving -/

/-- The option is refused because of an offending value. -/
def Refused {α : Type} (option : String) (path : Option String) (bad : Value) (x : Outcome α) :
    Prop :=
  ∃ text, bad.describe = .ok text ∧ x = .error (.defect (.unresolvedOption option text path))

theorem Refused.bind {α β : Type} {option : String} {path : Option String} {bad : Value}
    {x : Outcome α} (h : Refused option path bad x) (f : α → Outcome β) :
    Refused option path bad (x >>= f) := by
  obtain ⟨text, htext, rfl⟩ := h
  exact ⟨text, htext, rfl⟩

section Resolving

variable (option : String) (path : Option String)

theorem notLiteral_refused {v : Value} (h : ¬v.HasNoText) :
    Refused option path v (literal.notLiteral option path v) := by
  obtain ⟨text, htext⟩ := describe_eq_ok h
  exact ⟨text, htext, by rw [literal.notLiteral, htext]; rfl⟩

mutual

theorem literal_eq_resolved (v : Value) (h : v.offender? = none) :
    literal option path v = .ok v.resolved := by
  cases v with
  | null => rw [literal, resolved]; all_goals nofun
  | bool flag => rw [literal, resolved]; all_goals nofun
  | text s => rw [literal, resolved]; all_goals nofun
  | number x =>
      rw [offender?] at h
      split at h
      next hx =>
        rw [literal, if_pos hx, resolved]
        all_goals nofun
      next => cases h
  | date ms =>
      cases ms with
      | none => cases h
      | some ms => rw [literal, resolved]
  | list items =>
      rw [offender?] at h
      rw [literal, literalItems_eq_resolved items h, resolved]
      rfl
  | object bare members =>
      rw [offender?] at h
      rw [literal, literalMembers_eq_resolved members h, resolved]
      rfl
  | _ => cases h
termination_by sizeOf v

theorem literalItems_eq_resolved (items : List Value) (h : itemOffender? items = none) :
    literalItems option path items = .ok (resolvedItems items) := by
  cases items with
  | nil => rfl
  | cons item rest =>
      rw [itemOffender?, Option.or_eq_none_iff] at h
      rw [literalItems, literal_eq_resolved item h.1, literalItems_eq_resolved rest h.2,
        resolvedItems]
      rfl
termination_by sizeOf items

theorem literalMembers_eq_resolved (members : List (String × Value))
    (h : memberOffender? members = none) :
    literalMembers option path members = .ok (resolvedMembers members) := by
  match members with
  | [] => rfl
  | (name, value) :: rest =>
      rw [memberOffender?, Option.or_eq_none_iff] at h
      rw [literalMembers, literal_eq_resolved value h.1, literalMembers_eq_resolved rest h.2,
        resolvedMembers]
      rfl
termination_by sizeOf members

end

mutual

theorem literal_refused (v : Value) {bad : Value} (h : v.offender? = some bad) :
    Refused option path bad (literal option path v) := by
  -- a value that is no literal itself is its own offender
  have hself {other : Value} (heq : other = bad) (hbad : other.offender? = some bad) :
      Refused option path bad (literal.notLiteral option path other) := by
    subst heq
    exact notLiteral_refused option path (offender?_hasText other hbad)
  cases v with
  | null => cases h
  | bool flag => cases h
  | text s => cases h
  | number x =>
      have hbad := h
      rw [offender?] at h
      rw [literal]
      split at h
      next => cases h
      next hx =>
        rw [if_neg hx]
        exact hself (Option.some.inj h) hbad
  | date ms =>
      cases ms with
      | none => exact hself (Option.some.inj h) h
      | some ms => cases h
  | list items =>
      rw [offender?] at h
      rw [literal]
      exact (literalItems_refused items h).bind _
  | object bare members =>
      rw [offender?] at h
      rw [literal]
      exact (literalMembers_refused members h).bind _
  | _ => exact hself (Option.some.inj h) h
termination_by sizeOf v

theorem literalItems_refused (items : List Value) {bad : Value}
    (h : itemOffender? items = some bad) :
    Refused option path bad (literalItems option path items) := by
  cases items with
  | nil => cases h
  | cons item rest =>
      rw [itemOffender?] at h
      rw [literalItems]
      rcases Option.or_eq_some_iff.mp h with hitem | ⟨hnone, hrest⟩
      · exact (literal_refused item hitem).bind _
      · rw [literal_eq_resolved option path item hnone]
        exact (literalItems_refused rest hrest).bind _
termination_by sizeOf items

theorem literalMembers_refused (members : List (String × Value)) {bad : Value}
    (h : memberOffender? members = some bad) :
    Refused option path bad (literalMembers option path members) := by
  match members with
  | [] => cases h
  | (name, value) :: rest =>
      rw [memberOffender?] at h
      rw [literalMembers]
      rcases Option.or_eq_some_iff.mp h with hvalue | ⟨hnone, hrest⟩
      · exact (literal_refused value hvalue).bind _
      · rw [literal_eq_resolved option path value hnone]
        exact (literalMembers_refused rest hrest).bind _
termination_by sizeOf members

end

/-- A literal resolves to the value with its dates written out. -/
theorem IsLiteral.literal_eq {v : Value} (h : v.IsLiteral) :
    literal option path v = .ok v.resolved :=
  literal_eq_resolved option path v (v.isLiteral_iff.mp h)

theorem literal_eq_ok_iff {v result : Value} :
    literal option path v = .ok result ↔ v.IsLiteral ∧ v.resolved = result := by
  constructor
  · intro h
    by_cases hliteral : v.IsLiteral
    · rw [hliteral.literal_eq] at h
      exact ⟨hliteral, Except.ok.inj h⟩
    · obtain ⟨bad, hbad⟩ := not_isLiteral_iff.mp hliteral
      obtain ⟨text, _, herror⟩ := literal_refused option path v hbad
      rw [herror] at h
      cases h
  · rintro ⟨hliteral, rfl⟩
    exact hliteral.literal_eq option path

end Resolving

end Value

end FieldSchema
