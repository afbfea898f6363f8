/-!
# Records

A record lists named entries in enumeration order: names that spell an array index come first, in
ascending order, and the others follow in the order in which they were first set. Setting a name
that is already there keeps its place.
-/

namespace FieldSchema

/-- Named entries in enumeration order. -/
abbrev Record (α : Type) := List (String × α)

/-- The value of a decimal digit. -/
def digitValue? (c : Char) : Option Nat :=
  if '0' ≤ c ∧ c ≤ '9' then some (c.toNat - '0'.toNat) else none

/-- The number that a list of decimal digits spells, continuing from `start`. -/
def digitsValue? (start : Nat) : List Char → Option Nat
  | [] => some start
  | c :: rest =>
      match digitValue? c with
      | some d => digitsValue? (start * 10 + d) rest
      | none => none

/-- The array index that a name spells: decimal digits without a leading zero, below `2 ^ 32 - 1`. -/
def arrayIndex? (name : String) : Option Nat :=
  match name.toList with
  | [] => none
  | ['0'] => some 0
  | '0' :: _ => none
  | digits =>
      match digitsValue? 0 digits with
      | some n => if n < 4294967295 then some n else none
      | none => none

namespace Record

variable {α β : Type}

/-- The entry's value under a name. -/
def get? (r : Record α) (name : String) : Option α :=
  List.lookup name r

/-- The names in enumeration order. -/
def names (r : Record α) : List String :=
  r.map Prod.fst

/-- Whether a name is present. -/
def has (r : Record α) (name : String) : Bool :=
  (r.get? name).isSome

/-- Whether an entry stands before a new array index `i`. -/
def standsBefore (i : Nat) (entry : String × α) : Bool :=
  match arrayIndex? entry.1 with
  | some j => j < i
  | none => false

/-- Insert an entry whose name is new. -/
def insertNew (r : Record α) (name : String) (value : α) : Record α :=
  match arrayIndex? name with
  | none => r ++ [(name, value)]
  | some i => r.takeWhile (standsBefore i) ++ (name, value) :: r.dropWhile (standsBefore i)

/-- Overwrite the value of a name in its place. -/
def overwrite (r : Record α) (name : String) (value : α) : Record α :=
  r.map fun entry => if entry.1 = name then (name, value) else entry

/-- Set a name: in its place when it is present, else where enumeration order puts it. -/
def set (r : Record α) (name : String) (value : α) : Record α :=
  if r.has name then r.overwrite name value else r.insertNew name value

/-- The record that results from setting entries one after another. -/
def ofList (entries : List (String × α)) : Record α :=
  entries.foldl (fun r entry => r.set entry.1 entry.2) []

/-- The name that plain assignment never turns into an entry. -/
def reservedName : String := "__proto__"

/-- Plain assignment of a member: as `set`, but the reserved name is lost. -/
def assign (r : Record α) (name : String) (value : α) : Record α :=
  if name = reservedName then r else r.set name value

/-- The record that results from assigning entries one after another. -/
def ofAssignments (entries : List (String × α)) : Record α :=
  entries.foldl (fun r entry => r.assign entry.1 entry.2) []

/-- The record without one name. -/
def erase (r : Record α) (name : String) : Record α :=
  r.filter fun entry => entry.1 != name

/-- Change every value and keep the names. -/
def mapValues (f : α → β) (r : Record α) : Record β :=
  r.map fun entry => (entry.1, f entry.2)

/-- The entry of a name that may have no value. -/
def ofOption (name : String) (encode : α → β) (value : Option α) : Record β :=
  match value with
  | some present => [(name, encode present)]
  | none => []

@[simp] theorem get?_nil (name : String) : get? ([] : Record α) name = none := rfl

theorem get?_cons (entry : String × α) (r : Record α) (name : String) :
    get? (entry :: r) name = if name = entry.1 then some entry.2 else get? r name := by
  obtain ⟨key, value⟩ := entry
  by_cases h : name = key
  · subst h
    simp [get?, List.lookup_cons_self]
  · have hne : (name == key) = false := by simp [h]
    rw [get?, List.lookup_cons, hne]
    simp [get?, h]

theorem get?_append (r s : Record α) (name : String) :
    get? (r ++ s) name = (get? r name).or (get? s name) := by
  induction r with
  | nil => simp
  | cons entry r ih =>
      rw [List.cons_append, get?_cons, get?_cons, ih]
      split <;> simp

theorem get?_ofOption (name other : String) (encode : α → β) (value : Option α) :
    (ofOption name encode value).get? other =
      if other = name then value.map encode else none := by
  cases value with
  | none => simp [ofOption]
  | some present => simp [ofOption, get?_cons]

theorem mem_ofOption {name : String} {encode : α → β} {value : Option α} {entry : String × β} :
    entry ∈ ofOption name encode value ↔ ∃ present ∈ value, entry = (name, encode present) := by
  cases value with
  | none => simp [ofOption]
  | some present => simp [ofOption]

theorem get?_overwrite (r : Record α) (name other : String) (value : α) :
    (r.overwrite name value).get? other =
      if other = name ∧ r.has name = true then some value else r.get? other := by
  induction r with
  | nil => simp [overwrite, has]
  | cons entry r ih =>
      have hcons : overwrite (entry :: r) name value =
          (if entry.1 = name then (name, value) else entry) :: overwrite r name value := rfl
      rw [hcons, get?_cons, get?_cons, ih]
      by_cases hentry : entry.1 = name
      · by_cases hother : other = name
        · simp [hentry, hother, has, get?_cons]
        · simp [hentry, hother]
      · by_cases hother : other = name
        · subst hother
          have hne : ¬ other = entry.1 := fun h => hentry h.symm
          simp [hentry, hne, has, get?_cons]
        · simp [hentry, hother]

theorem get?_insertNew (r : Record α) (name other : String) (value : α)
    (hnew : r.has name = false) :
    (r.insertNew name value).get? other = if other = name then some value else r.get? other := by
  have hnone : r.get? name = none := by simpa [has] using hnew
  unfold insertNew
  split
  · rw [get?_append, get?_cons]
    by_cases h : other = name
    · subst h; simp [hnone]
    · simp [h]
  · next i _ =>
      have hsplit : get? (r.takeWhile (standsBefore i) ++ r.dropWhile (standsBefore i)) other =
          get? r other := by rw [List.takeWhile_append_dropWhile]
      rw [get?_append] at hsplit
      rw [get?_append, get?_cons]
      by_cases h : other = name
      · subst h
        rw [hnone] at hsplit
        have : get? (r.takeWhile (standsBefore i)) other = none := by
          cases hget : get? (r.takeWhile (standsBefore i)) other with
          | none => rfl
          | some v => rw [hget] at hsplit; simp at hsplit
        simp [this]
      · simp only [h, if_false]
        exact hsplit

/-- A record answers a name with the value set last. -/
theorem get?_set (r : Record α) (name other : String) (value : α) :
    (r.set name value).get? other = if other = name then some value else r.get? other := by
  unfold set
  split
  · next h => rw [get?_overwrite]; simp [h]
  · next h => exact get?_insertNew r name other value (by simpa using h)

@[simp] theorem set_nil (name : String) (value : α) :
    set ([] : Record α) name value = [(name, value)] := by
  simp only [set, has, get?_nil, Option.isSome_none, Bool.false_eq_true, if_false, insertNew]
  split <;> rfl

theorem get?_eq_none_iff (r : Record α) (name : String) :
    r.get? name = none ↔ name ∉ r.names := by
  induction r with
  | nil => simp [names]
  | cons entry r ih =>
      rw [get?_cons]
      by_cases h : name = entry.1
      · simp [h, names]
      · simpa [h, names] using ih

theorem has_iff_mem_names (r : Record α) (name : String) :
    r.has name = true ↔ name ∈ r.names := by
  have hnone := get?_eq_none_iff r name
  cases hget : r.get? name with
  | none => simpa [has, hget] using hnone.mp hget
  | some value => simpa [has, hget] using hnone

theorem has_erase (r : Record α) (name : String) : (r.erase name).has name = false := by
  rw [Bool.eq_false_iff, ne_eq, has_iff_mem_names]
  simp [names, erase]

theorem get?_erase (r : Record α) (name other : String) :
    (r.erase name).get? other = if other = name then none else r.get? other := by
  split
  next h =>
    subst h
    simpa [has] using r.has_erase other
  next hother =>
    induction r with
    | nil => rfl
    | cons entry r ih =>
        have hcons : erase (entry :: r) name =
            if entry.1 = name then erase r name else entry :: erase r name := by
          by_cases h : entry.1 = name <;> simp [erase, h]
        rw [hcons, get?_cons]
        split
        next hentry => rw [if_neg (hentry ▸ hother), ih]
        next => rw [get?_cons, ih]

theorem erase_erase (r : Record α) (name : String) : (r.erase name).erase name = r.erase name := by
  simp [erase]

theorem erase_append (r s : Record α) (name : String) :
    erase (r ++ s) name = r.erase name ++ s.erase name :=
  List.filter_append ..

theorem erase_of_get?_eq_none {r : Record α} {name : String} (h : r.get? name = none) :
    r.erase name = r := by
  rw [get?_eq_none_iff] at h
  refine List.filter_eq_self.mpr fun entry hentry => bne_iff_ne.mpr ?_
  rintro rfl
  exact h (List.mem_map_of_mem hentry)

theorem mem_of_get? {r : Record α} {name : String} {value : α} (h : r.get? name = some value) :
    (name, value) ∈ r := by
  induction r with
  | nil => simp at h
  | cons entry r ih =>
      rw [get?_cons] at h
      split at h
      next heq =>
        obtain rfl : entry.2 = value := Option.some.inj h
        exact heq ▸ List.mem_cons_self
      next => exact List.mem_cons_of_mem _ (ih h)

/-- Where names are distinct, every entry answers to its name. -/
theorem get?_of_mem {r : Record α} (hnodup : r.names.Nodup) {name : String} {value : α}
    (h : (name, value) ∈ r) : r.get? name = some value := by
  induction r with
  | nil => simp at h
  | cons entry r ih =>
      obtain ⟨hfresh, hrest⟩ := List.nodup_cons.mp hnodup
      rw [get?_cons]
      rcases List.mem_cons.mp h with heq | hmem
      · simp [← heq]
      · have hname : name ∈ names r := List.mem_map_of_mem hmem
        have hne : name ≠ entry.1 := fun heq => hfresh (heq ▸ hname)
        simpa [hne] using ih hrest hmem

theorem mem_iff_get? {r : Record α} (hnodup : r.names.Nodup) {name : String} {value : α} :
    (name, value) ∈ r ↔ r.get? name = some value :=
  ⟨get?_of_mem hnodup, mem_of_get?⟩

theorem insertNew_perm (r : Record α) (name : String) (value : α) :
    (r.insertNew name value).Perm ((name, value) :: r) := by
  unfold insertNew
  split
  · exact List.perm_append_singleton _ _
  · refine List.perm_middle.trans (List.Perm.cons _ ?_)
    rw [List.takeWhile_append_dropWhile]

/-- Setting entries of distinct names one after another keeps each of them. -/
theorem foldl_set_perm (entries : List (String × α)) (r : Record α)
    (hnodup : (names (r ++ entries)).Nodup) :
    (entries.foldl (fun r entry => r.set entry.1 entry.2) r).Perm (r ++ entries) := by
  induction entries generalizing r with
  | nil => simp
  | cons entry entries ih =>
      have hmiddle : (r ++ entry :: entries).Perm (entry :: r ++ entries) := List.perm_middle
      have hnodup' := (hmiddle.map Prod.fst).nodup hnodup
      -- the name is new, so that setting it inserts an entry
      have hfresh : r.has entry.1 = false := by
        rw [Bool.eq_false_iff, ne_eq, has_iff_mem_names]
        have hnot := (List.nodup_cons.mp hnodup').1
        exact fun hmem => hnot (List.map_append ▸ List.mem_append_left _ hmem)
      have hset : (r.set entry.1 entry.2).Perm (entry :: r) := by
        rw [set, hfresh]
        exact insertNew_perm r entry.1 entry.2
      have happend := hset.append_right entries
      rw [List.foldl_cons]
      refine (ih _ ((happend.map Prod.fst).symm.nodup hnodup')).trans ?_
      exact happend.trans hmiddle.symm

/-- A record made of entries of distinct names holds just these entries. -/
theorem ofList_perm {entries : List (String × α)} (hnodup : (names entries).Nodup) :
    (ofList entries).Perm entries :=
  foldl_set_perm entries [] hnodup

/-- A record made of entries of distinct names answers each name as the entries do. -/
theorem get?_ofList {entries : List (String × α)} (hnodup : (names entries).Nodup) (name : String) :
    (ofList entries).get? name = get? entries name := by
  have hperm := ofList_perm hnodup
  have hset := (hperm.map Prod.fst).symm.nodup hnodup
  refine Option.ext fun value => ?_
  rw [← mem_iff_get? hset, ← mem_iff_get? hnodup, hperm.mem_iff]

theorem get?_mapValues (f : α → β) (r : Record α) (name : String) :
    (r.mapValues f).get? name = (r.get? name).map f := by
  induction r with
  | nil => rfl
  | cons entry r ih =>
      have hcons : mapValues f (entry :: r) = (entry.1, f entry.2) :: mapValues f r := rfl
      rw [hcons, get?_cons, get?_cons, ih]
      split <;> rfl

theorem names_mapValues (f : α → β) (r : Record α) : (r.mapValues f).names = r.names := by
  rw [names, mapValues, List.map_map]
  rfl

theorem names_overwrite (r : Record α) (name : String) (value : α) :
    (r.overwrite name value).names = r.names := by
  rw [names, overwrite, List.map_map]
  refine List.map_congr_left fun entry _ => ?_
  by_cases h : entry.1 = name <;> simp [h]

theorem nodup_names_set {r : Record α} (hnodup : r.names.Nodup) (name : String) (value : α) :
    (r.set name value).names.Nodup := by
  unfold set
  split
  next => rwa [names_overwrite]
  next hnew =>
    have hfresh : name ∉ r.names := by rwa [has_iff_mem_names] at hnew
    exact ((insertNew_perm r name value).map Prod.fst).symm.nodup
      (List.nodup_cons.mpr ⟨hfresh, hnodup⟩)

theorem mem_names_set (r : Record α) (name other : String) (value : α) :
    other ∈ (r.set name value).names ↔ other = name ∨ other ∈ r.names := by
  rw [← has_iff_mem_names, ← has_iff_mem_names, has, has, get?_set]
  by_cases h : other = name <;> simp [h]

/-- Every entry of a changed record was there before, or is the one that was set. -/
theorem mem_of_mem_set {r : Record α} {name : String} {value : α} {entry : String × α}
    (h : entry ∈ r.set name value) : entry = (name, value) ∨ entry ∈ r := by
  unfold set at h
  split at h
  next =>
    obtain ⟨earlier, hearlier, heq⟩ := List.mem_map.mp h
    split at heq
    next => exact .inl heq.symm
    next => exact .inr (heq ▸ hearlier)
  next => exact List.mem_cons.mp ((insertNew_perm r name value).mem_iff.mp h)

theorem mem_names_ofList (entries : List (String × α)) (name : String) :
    name ∈ (ofList entries).names ↔ name ∈ names entries := by
  suffices h : ∀ r : Record α,
      name ∈ (entries.foldl (fun r entry => r.set entry.1 entry.2) r).names ↔
        name ∈ r.names ∨ name ∈ names entries by
    exact (h []).trans (or_iff_right List.not_mem_nil)
  induction entries with
  | nil => simp [names]
  | cons entry entries ih =>
      intro r
      rw [List.foldl_cons, ih, mem_names_set]
      simp [names, or_assoc, or_left_comm]

theorem nodup_names_ofList (entries : List (String × α)) : (ofList entries).names.Nodup := by
  suffices h : ∀ r : Record α, r.names.Nodup →
      (names (entries.foldl (fun r entry => r.set entry.1 entry.2) r)).Nodup from
    h [] List.nodup_nil
  induction entries with
  | nil => exact fun r hr => hr
  | cons entry entries ih =>
      intro r hr
      exact ih _ (nodup_names_set hr entry.1 entry.2)

theorem mem_of_mem_ofList {entries : List (String × α)} {entry : String × α}
    (h : entry ∈ ofList entries) : entry ∈ entries := by
  suffices hfold : ∀ r : Record α,
      entry ∈ entries.foldl (fun r entry => r.set entry.1 entry.2) r →
        entry ∈ r ∨ entry ∈ entries by
    simpa using hfold [] h
  clear h
  induction entries with
  | nil => simp
  | cons first entries ih =>
      intro r h
      rw [List.foldl_cons] at h
      rcases ih _ h with hset | hrest
      · rcases mem_of_mem_set hset with rfl | hr
        · exact .inr List.mem_cons_self
        · exact .inl hr
      · exact .inr (List.mem_cons_of_mem _ hrest)

/-- Assignments set every name but the one that is lost. -/
theorem ofAssignments_eq_ofList (entries : List (String × α)) :
    ofAssignments entries = ofList (entries.filter fun entry => entry.1 ≠ reservedName) := by
  rw [ofAssignments, ofList, List.foldl_filter]
  congr 1
  funext r entry
  by_cases h : entry.1 = reservedName <;> simp [assign, h]

/-- Where the name that is lost does not come up, assignments do what setting does. -/
theorem ofAssignments_of_not_mem {entries : List (String × α)}
    (h : reservedName ∉ names entries) : ofAssignments entries = ofList entries := by
  rw [ofAssignments_eq_ofList]
  apply congrArg
  apply List.filter_eq_self.mpr
  intro entry hentry
  apply decide_eq_true
  intro heq
  exact h (heq ▸ List.mem_map_of_mem hentry)

theorem reservedName_not_mem_ofAssignments (entries : List (String × α)) :
    reservedName ∉ (ofAssignments entries).names := by
  rw [ofAssignments_eq_ofList, mem_names_ofList]
  intro hmem
  obtain ⟨entry, hentry, hname⟩ := List.mem_map.mp hmem
  simp [hname] at hentry

theorem mem_of_mem_ofAssignments {entries : List (String × α)} {entry : String × α}
    (h : entry ∈ ofAssignments entries) : entry ∈ entries := by
  rw [ofAssignments_eq_ofList] at h
  exact (List.mem_filter.mp (mem_of_mem_ofList h)).1

end Record

end FieldSchema
