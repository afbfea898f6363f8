import FieldSchema.Proofs.Publishable
import FieldSchema.Proofs.UnknownOptions

/-!
# Options that extend others

The override of a field is no more than options that extend the declared ones. A declaration whose
fields are extended by their overrides, at any depth, compiles without overrides to what it compiles
to with them.
-/

namespace FieldSchema

open Outcome

namespace Record

/-- Members with options set on top of them. -/
def extendedBy (members : Record Value) (options : OptionSet) : Record Value :=
  options.foldl (fun members option => members.set option.1.name option.2) members

/-- The options that overrides give to the field at a path. -/
def optionsAt (overrides : Record Value) (path : String) : OptionSet :=
  OptionSet.ofValue ((overrides.get? path).getD .absent)

end Record

/-- A field with its options extended by the override of its path. -/
def FieldHead.overridden (overrides : Record Value) (parent : String) (head : FieldHead) :
    FieldHead :=
  { head with
    options := Record.extendedBy head.options (overrides.optionsAt (joinPath parent head.name)) }

namespace Declaration

mutual

/-- A declaration below a parent, with the options of each field extended by its override. -/
def overridden (overrides : Record Value) (parent : String) : Declaration → Declaration
  | .field head => .field (head.overridden overrides parent)
  | .block head inner =>
      .block (head.overridden overrides parent)
        (overriddenAll overrides (joinPath parent head.name) inner)
  | .embed kind name reference => .embed kind name reference

def overriddenAll (overrides : Record Value) (parent : String) :
    List Declaration → List Declaration
  | [] => []
  | d :: rest => overridden overrides parent d :: overriddenAll overrides parent rest

end

end Declaration

/-! ## Extending options -/

namespace Record

theorem erase_overwrite (r : Record Value) (name other : String) (value : Value) :
    (r.overwrite name value).erase other = (r.erase other).overwrite name value := by
  have hname (entry : String × Value) :
      (if entry.1 = name then (name, value) else entry).1 = entry.1 := by
    split
    next h => exact h.symm
    next => rfl
  rw [overwrite, erase, List.filter_map, overwrite, erase]
  congr 1
  apply List.filter_congr
  intro entry _
  simp [hname]

/-- Setting a name that is no array index and taking away another one commute. -/
theorem erase_set (r : Record Value) {name other : String} (hne : name ≠ other)
    (hindex : arrayIndex? name = none) (value : Value) :
    (r.set name value).erase other = (r.erase other).set name value := by
  have hhas : (r.erase other).has name = r.has name := by rw [has, has, get?_erase, if_neg hne]
  rw [set, set, hhas]
  split
  next => exact erase_overwrite r name other value
  next => simp [insertNew, hindex, erase, hne]

theorem arrayIndex?_optionName (key : OptionKey) : arrayIndex? key.name = none := by
  cases key <;> decide

theorem get?_extendedBy_of_ne {options : OptionSet} {name : String}
    (hname : ∀ key : OptionKey, key.name ≠ name) (members : Record Value) :
    (members.extendedBy options).get? name = members.get? name := by
  induction options generalizing members with
  | nil => rfl
  | cons option rest ih =>
      rw [extendedBy, List.foldl_cons]
      refine (ih _).trans ?_
      rw [get?_set, if_neg (hname option.1).symm]

theorem erase_extendedBy (options : OptionSet) (members : Record Value) :
    (members.extendedBy options).erase "fields" =
      Record.extendedBy (members.erase "fields") options := by
  induction options generalizing members with
  | nil => rfl
  | cons option rest ih =>
      rw [extendedBy, List.foldl_cons, extendedBy, List.foldl_cons,
        ← erase_set members option.1.name_ne_fields (arrayIndex?_optionName _)]
      exact ih _

/-- An option set on top of members answers before they do. -/
theorem get?_extendedBy {options : OptionSet} (hnodup : (options.map Prod.fst).Nodup)
    (members : Record Value) (key : OptionKey) :
    (members.extendedBy options).get? key.name =
      (List.lookup key options).or (members.get? key.name) := by
  induction options generalizing members with
  | nil => rfl
  | cons option rest ih =>
      obtain ⟨other, value⟩ := option
      obtain ⟨hfresh, hrest⟩ := List.nodup_cons.mp hnodup
      rw [extendedBy, List.foldl_cons]
      refine (ih hrest _).trans ?_
      rw [get?_set]
      by_cases hkey : key = other
      · subst hkey
        have hnone : List.lookup key rest = none := by
          rw [List.lookup_eq_none_iff]
          intro entry hentry
          have hne : entry.1 ≠ key := fun heq =>
            hfresh (List.mem_map.mpr ⟨entry, hentry, heq⟩)
          simp [hne.symm]
        simp [hnone]
      · have hne : (key == other) = false := by simp [hkey]
        have hname : key.name ≠ other.name := by
          intro h
          apply hkey
          revert h
          cases key <;> cases other <;> decide
        simp [List.lookup_cons, hne, hname]

end Record

namespace OptionSet

/-- The known options among named entries are given once each. -/
theorem nodup_ofEntries (entries : Record Value) : ((ofEntries entries).map Prod.fst).Nodup := by
  have hsublist (keys : List OptionKey) : List.Sublist
      ((keys.filterMap fun key => (entries.get? key.name).map (key, ·)).map Prod.fst) keys := by
    induction keys with
    | nil => exact .slnil
    | cons key rest ih =>
        cases hget : entries.get? key.name with
        | none => simpa [hget] using ih.cons key
        | some value => simpa [hget] using ih.cons_cons key
  exact (hsublist OptionKey.all).nodup (by decide)

theorem lookup_extendedBy (members entries : Record Value) (key : OptionKey) :
    List.lookup key (ofEntries (members.extendedBy (ofEntries entries))) =
      (List.lookup key (ofEntries entries)).or (List.lookup key (ofEntries members)) := by
  rw [lookup_ofEntries, lookup_ofEntries members,
    Record.get?_extendedBy (nodup_ofEntries entries)]

theorem mem_ofEntries {entries : Record Value} {key : OptionKey} {value : Value} :
    (key, value) ∈ ofEntries entries ↔ entries.get? key.name = some value := by
  rw [ofEntries, List.mem_filterMap]
  constructor
  · rintro ⟨other, _, h⟩
    obtain ⟨found, hfound, heq⟩ := Option.map_eq_some_iff.mp h
    obtain ⟨rfl, rfl⟩ := Prod.mk.inj heq
    exact hfound
  · intro h
    exact ⟨key, key.mem_all, by rw [h]; rfl⟩

theorem requirePlainDecimals_eq_ok {options : OptionSet} {path : Option String} :
    options.requirePlainDecimals path = .ok () ↔
      ∀ key ∈ OptionKey.decimalNumbers, ∀ v, List.lookup key options = some v →
        v.isArbitraryPrecision = false := by
  have hforM (keys : List OptionKey) (f : OptionKey → Outcome Unit) :
      keys.forM f = .ok () ↔ ∀ key ∈ keys, f key = .ok () := by
    induction keys with
    | nil => exact iff_of_true rfl (by simp)
    | cons key rest ih =>
        change (f key >>= fun _ => rest.forM f) = .ok () ↔ _
        rw [bind_eq_ok, List.forall_mem_cons, ih]
        exact ⟨fun ⟨_, hfirst, hrest⟩ => ⟨hfirst, hrest⟩, fun ⟨hfirst, hrest⟩ => ⟨_, hfirst, hrest⟩⟩
  rw [requirePlainDecimals, hforM]
  refine forall₂_congr fun key _ => ?_
  cases List.lookup key options with
  | none => simp
  | some v =>
      dsimp only
      split
      next hprecise =>
        refine iff_of_false ?_ fun h => by simpa [hprecise] using h v rfl
        intro h
        obtain ⟨_, _, h⟩ := bind_eq_ok.mp h
        cases h
      next hplain => exact iff_of_true rfl fun _ h => Option.some.inj h ▸ by simpa using hplain

end OptionSet

namespace Compilation

/-! ## Merging extended options -/

/-- The value of an option before it is resolved. -/
def preparedValue (type : FieldType) (key : OptionKey) (value : Value) : Value :=
  if type = .scalar .date then OptionSet.calendarDay key value else value

theorem prepared_eq_map (type : FieldType) (options : OptionSet) :
    prepared type options =
      options.map fun entry => (entry.1, preparedValue type entry.1 entry.2) := by
  unfold prepared preparedValue
  split
  next => exact OptionSet.toCalendarDays_eq_map options
  next => simp

theorem lookup_prepared (type : FieldType) (options : OptionSet) (key : OptionKey) :
    List.lookup key (prepared type options) =
      (List.lookup key options).map (preparedValue type key) := by
  rw [prepared_eq_map, OptionSet.lookup_map]

theorem rel_or {α β : Type} {R : α → β → Prop} {x y : Option α} {a b : Option β}
    (hx : Option.Rel R x a) (hy : Option.Rel R y b) : Option.Rel R (x.or y) (a.or b) := by
  cases hx with
  | none => exact hy
  | some h => exact .some h

variable {type : FieldType} {members entries : Record Value} {path : Option String}

/-- Options resolve where each of them has a literal. -/
theorem exists_resolve_prepared
    (h : ∀ key value, members.get? key.name = some value →
      ∃ resolved, (preparedValue type key value).literal key.name path = .ok resolved) :
    ∃ literals, (prepared type (OptionSet.ofEntries members)).resolve path = .ok literals := by
  rw [prepared_eq_map, OptionSet.resolve]
  apply exists_mapM_eq_ok
  intro option hoption
  obtain ⟨⟨key, value⟩, hentry, rfl⟩ := List.mem_map.mp hoption
  obtain ⟨resolved, hresolved⟩ := h key value (OptionSet.mem_ofEntries.mp hentry)
  exact ⟨(key, resolved), bind_eq_ok.mpr ⟨resolved, hresolved, rfl⟩⟩

theorem exists_literal_of_resolve {literals : OptionSet}
    (h : (prepared type (OptionSet.ofEntries members)).resolve path = .ok literals)
    (key : OptionKey) (value : Value) (hvalue : members.get? key.name = some value) :
    ∃ resolved, (preparedValue type key value).literal key.name path = .ok resolved := by
  have hrel := OptionSet.lookup_resolve h key
  rw [lookup_prepared, OptionSet.lookup_ofEntries, hvalue, Option.map_some] at hrel
  generalize List.lookup key literals = x at hrel
  cases hrel with
  | some hresolved => exact ⟨_, hresolved⟩

/-- Extended options resolve to the literals of the override on top of those of the declaration. -/
theorem resolve_extendedBy {lower upper : OptionSet}
    (hlower : (prepared type (OptionSet.ofEntries members)).resolve path = .ok lower)
    (hupper : (prepared type (OptionSet.ofEntries entries)).resolve path = .ok upper) :
    ∃ literals, (prepared type (OptionSet.ofEntries
        (members.extendedBy (OptionSet.ofEntries entries)))).resolve path = .ok literals ∧
      ∀ key, List.lookup key literals = (List.lookup key upper).or (List.lookup key lower) := by
  obtain ⟨literals, hliterals⟩ : ∃ literals, (prepared type (OptionSet.ofEntries
      (members.extendedBy (OptionSet.ofEntries entries)))).resolve path = .ok literals := by
    apply exists_resolve_prepared
    intro key value hvalue
    rw [Record.get?_extendedBy (OptionSet.nodup_ofEntries entries),
      OptionSet.lookup_ofEntries] at hvalue
    rcases Option.or_eq_some_iff.mp hvalue with hgiven | ⟨_, hgiven⟩
    · exact exists_literal_of_resolve hupper key value hgiven
    · exact exists_literal_of_resolve hlower key value hgiven
  refine ⟨literals, hliterals, fun key => ?_⟩
  have hboth := rel_or (OptionSet.lookup_resolve hupper key) (OptionSet.lookup_resolve hlower key)
  have hextended := OptionSet.lookup_resolve hliterals key
  rw [lookup_prepared, OptionSet.lookup_extendedBy] at hextended
  rw [lookup_prepared, lookup_prepared, ← Option.map_or] at hboth
  refine OptionSet.eq_of_rel ?_ hextended hboth
  intro value resolved other hresolved hother
  exact Except.ok.inj (hresolved.symm.trans hother)

theorem requirePlain_extendedBy
    (h : requirePlain type (OptionSet.ofEntries members) (OptionSet.ofEntries entries) path =
      .ok ()) :
    requirePlain type (OptionSet.ofEntries (members.extendedBy (OptionSet.ofEntries entries)))
      (OptionSet.ofEntries []) path = .ok () := by
  unfold requirePlain at h ⊢
  split at h
  next htype =>
    obtain ⟨_, hmembers, hentries⟩ := bind_eq_ok.mp h
    rw [if_pos htype]
    refine bind_eq_ok.mpr ⟨(), OptionSet.requirePlainDecimals_eq_ok.mpr ?_, rfl⟩
    intro key hkey v hv
    rw [OptionSet.lookup_extendedBy] at hv
    rcases Option.or_eq_some_iff.mp hv with hgiven | ⟨_, hgiven⟩
    · exact OptionSet.requirePlainDecimals_eq_ok.mp hentries key hkey v hgiven
    · exact OptionSet.requirePlainDecimals_eq_ok.mp hmembers key hkey v hgiven
  next htype => rw [if_neg htype]

/-- An override of declared options is no more than options that extend them. -/
theorem mergeOptions_extendedBy {defaults options : OptionSet} {path : String}
    (h : mergeOptions type (OptionSet.ofEntries members) (OptionSet.ofEntries entries) defaults
      path =
      .ok options) :
    ∃ others, mergeOptions type (OptionSet.ofEntries
        (members.extendedBy (OptionSet.ofEntries entries))) (OptionSet.ofEntries []) defaults path =
        .ok others ∧ ∀ key, List.lookup key others = List.lookup key options := by
  rw [mergeOptions_eq] at h
  obtain ⟨_, hplain, h⟩ := bind_eq_ok.mp h
  obtain ⟨lower, hlower, h⟩ := bind_eq_ok.mp h
  obtain ⟨upper, hupper, h⟩ := bind_eq_ok.mp h
  obtain rfl := pure_eq_ok.mp h
  obtain ⟨literals, hliterals, hlookup⟩ := resolve_extendedBy hlower hupper
  have hnone : (prepared type (OptionSet.ofEntries [])).resolve (some path) = .ok [] := by
    unfold prepared
    split <;> rfl
  refine ⟨OptionSet.onTopOf [] (literals.onTopOf defaults), ?_, fun key => ?_⟩
  · rw [mergeOptions_eq]
    refine bind_eq_ok.mpr ⟨(), requirePlain_extendedBy hplain, ?_⟩
    exact bind_eq_ok.mpr ⟨literals, hliterals, bind_eq_ok.mpr ⟨[], hnone, rfl⟩⟩
  · rw [OptionSet.onTopOf, OptionSet.onTopOf, OptionSet.onTopOf, OptionSet.onTopOf, List.nil_append,
      List.lookup_append, List.lookup_append, List.lookup_append, hlookup, Option.or_assoc]

/-! ## Compiling extended declarations -/

section Options

variable {options others : OptionSet} (h : ∀ key, others.get? key = options.get? key)

include h

theorem keywords_congr (path : String) : keywords others path = keywords options path := by
  simp only [keywords, numberOption, textOption, flagOption, h]

theorem compileScalar_congr (name path : String) (required : Bool) (type : ScalarType) :
    compileScalar ⟨name, path, required, others⟩ type =
      compileScalar ⟨name, path, required, options⟩ type := by
  cases type <;> simp only [compileScalar, compilePlain, compileTemporal, compileChoice,
    choiceValues, ruleHead, keywords_congr h, h]

theorem compileArray_congr (name path : String) (required : Bool) (element : ElementType) :
    compileArray ⟨name, path, required, others⟩ element =
      compileArray ⟨name, path, required, options⟩ element := by
  simp only [compileArray, ruleHead, keywords_congr h]

end Options

variable {around : Surroundings} {parent : String}

/-- An extended field is mapped without overrides in the same context, but for the order of its
options. -/
theorem fieldContext_overridden {head : FieldHead} {ctx : FieldContext}
    (h : fieldContext around parent head = .ok ctx) :
    ∃ others, fieldContext { around with overrides := [] } parent
        (head.overridden around.overrides parent) = .ok { ctx with options := others } ∧
      ∀ key, others.get? key = ctx.options.get? key := by
  obtain ⟨options, hoptions, h⟩ := bind_eq_ok.mp h
  obtain rfl := pure_eq_ok.mp h
  obtain ⟨others, hothers, hlookup⟩ := mergeOptions_extendedBy hoptions
  refine ⟨others, bind_eq_ok.mpr ⟨others, hothers, rfl⟩, fun key => ?_⟩
  rw [OptionSet.get?, OptionSet.get?, hlookup]

mutual

/-- An extended declaration compiles without overrides to what the declaration compiles to. -/
theorem compileOne_overridden (parent : String) (d : Declaration) {field : CompiledField}
    (h : compileOne around parent d = .ok field) :
    compileOne { around with overrides := [] } parent (d.overridden around.overrides parent) =
      .ok field := by
  cases d with
  | field head =>
      obtain ⟨ctx, hctx, h⟩ := bind_eq_ok.mp h
      obtain ⟨others, hothers, hget⟩ := fieldContext_overridden hctx
      refine bind_eq_ok.mpr ⟨_, hothers, ?_⟩
      rw [← h]
      change (match head.type with
        | .scalar type => compileScalar _ type
        | .array element => compileArray _ element) = _
      cases head.type with
      | scalar type => exact compileScalar_congr hget _ _ _ type
      | array element => exact compileArray_congr hget _ _ _ element
  | block head inner =>
      obtain ⟨ctx, stated, fields, hctx, hstated, hfields, rfl⟩ := compileBlock_eq_ok.mp h
      obtain ⟨others, hothers, hget⟩ := fieldContext_overridden hctx
      have hinner := compileAll_overridden ctx.path inner hfields
      refine compileBlock_eq_ok.mpr ⟨_, stated, fields, hothers, ?_, ?_, ?_⟩
      · exact (keywords_congr hget ctx.path).trans hstated
      · rw [← fieldContext_path hctx]
        exact hinner
      · cases htype : head.type <;> simp only [assembleBlock, FieldHead.overridden, htype] <;> rfl
  | embed kind name reference => exact h
termination_by sizeOf d

theorem compileAll_overridden (parent : String) (block : List Declaration)
    {fields : List (String × CompiledField)} (h : compileAll around parent block = .ok fields) :
    compileAll { around with overrides := [] } parent
      (Declaration.overriddenAll around.overrides parent block) = .ok fields := by
  cases block with
  | nil => exact h
  | cons d rest =>
      obtain ⟨field, others, hfield, hothers, rfl⟩ := compileAll_cons_eq_ok.mp h
      have hname : (d.overridden around.overrides parent).name = d.name := by cases d <;> rfl
      refine compileAll_cons_eq_ok.mpr ⟨field, others, ?_, ?_, by rw [hname]⟩
      · exact compileOne_overridden parent d hfield
      · exact compileAll_overridden parent rest hothers
termination_by sizeOf block

end

/-- No override gives a field that compiles an absent option. -/
theorem isAbsent_of_optionsAt {head : FieldHead} {ctx : FieldContext}
    (h : fieldContext around parent head = .ok ctx) {key : OptionKey} {v : Value}
    (hv : List.lookup key (around.overrides.optionsAt (joinPath parent head.name)) = some v) :
    v.isAbsent = false := by
  obtain ⟨options, hoptions, _⟩ := bind_eq_ok.mp h
  obtain ⟨lower, upper, _, hupper, _⟩ := mergeOptions_eq_ok hoptions
  rw [Record.optionsAt, OptionSet.ofValue, OptionSet.lookup_ofEntries] at hv
  obtain ⟨resolved, hresolved⟩ := exists_literal_of_resolve hupper key v hv
  cases v with
  | absent =>
      have habsent : preparedValue head.type key .absent = .absent := by
        unfold preparedValue
        split
        next => cases key <;> rfl
        next => rfl
      rw [habsent] at hresolved
      obtain ⟨_, _, hfailed⟩ := bind_eq_ok.mp hresolved
      cases hfailed
  | _ => rfl

end Compilation

end FieldSchema
