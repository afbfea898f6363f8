import FieldSchema.Proofs.ExtendedOptions
import FieldSchema.Proofs.Positions

/-!
# Overriding by rewriting

Overrides say nothing that declarations could not say. A compilation gives the schema that its raw
declarations give without overrides, once the options of each field that has an override are
extended by it. The notices tell of the overrides at whose path no field is declared.
-/

namespace FieldSchema

open Outcome

namespace Value

mutual

/-- Raw declarations below a parent, with the options of each field extended by its override. -/
def overridden (overrides : Record Value) (parent : String) : Value → Value
  | .list entries => .list (overriddenEntries overrides parent entries)
  | v => v

def overriddenEntries (overrides : Record Value) (parent : String) : List Value → List Value
  | [] => []
  | entry :: rest =>
      overriddenEntry overrides parent entry :: overriddenEntries overrides parent rest

def overriddenEntry (overrides : Record Value) (parent : String) : Value → Value
  | .list (.text word :: .text name :: tag :: options) =>
      match FieldKind.ofName? word with
      | some _ =>
          .list (.text word :: .text name :: tag ::
            overriddenOptions overrides (joinPath parent name) options)
      | none => .list (.text word :: .text name :: tag :: options)
  | v => v

def overriddenOptions (overrides : Record Value) (path : String) : List Value → List Value
  | [] =>
      if overrides.has path then [.object false (Record.extendedBy [] (overrides.optionsAt path))]
      else []
  | [.absent] =>
      if overrides.has path then [.object false (Record.extendedBy [] (overrides.optionsAt path))]
      else [.absent]
  | [.object bare members] =>
      [.object bare
        (Record.extendedBy (overriddenMembers overrides path members) (overrides.optionsAt path))]
  | options => options

def overriddenMembers (overrides : Record Value) (path : String) :
    List (String × Value) → List (String × Value)
  | [] => []
  | (name, value) :: rest =>
      (name, if name = "fields" then overridden overrides path value else value) ::
        overriddenMembers overrides path rest

end

end Value

/-- A field is declared at a path, as opposed to an embed or to nothing at all. -/
def Declaration.DeclaresField (block : List Declaration) (path : String) : Prop :=
  ∃ way d, StandsAt block way d ∧ (∀ kind name reference, d ≠ .embed kind name reference) ∧
    pathOf "" way = path

/-! ## Reading extended declarations -/

namespace Declaration

open Compilation

theorem isAbsent_overridden (overrides : Record Value) (parent : String) (raw : Value) :
    (raw.overridden overrides parent).isAbsent = raw.isAbsent := by
  cases raw <;> rfl

theorem erase_overriddenMembers (overrides : Record Value) (path : String)
    (members : Record Value) :
    Record.erase (Value.overriddenMembers overrides path members) "fields" =
      members.erase "fields" := by
  induction members with
  | nil => rfl
  | cons member rest ih =>
      obtain ⟨name, value⟩ := member
      rw [Value.overriddenMembers]
      by_cases hname : name = "fields"
      · simpa [hname, Record.erase] using ih
      · simpa [hname, Record.erase] using ih

theorem givenBlock?_overriddenMembers (overrides : Record Value) (path : String)
    (members : Record Value) :
    givenBlock? (Value.overriddenMembers overrides path members) =
      (givenBlock? members).map (Value.overridden overrides path) := by
  have hget : Record.get? (Value.overriddenMembers overrides path members) "fields" =
      (members.get? "fields").map (Value.overridden overrides path) := by
    induction members with
    | nil => rfl
    | cons member rest ih =>
        obtain ⟨name, value⟩ := member
        rw [Value.overriddenMembers, Record.get?_cons, Record.get?_cons]
        by_cases hname : name = "fields"
        · simp [hname]
        · simpa [Ne.symm hname] using ih
  rw [givenBlock?, givenBlock?, hget]
  cases members.get? "fields" with
  | none => rfl
  | some raw =>
      simp only [Option.map_some, Option.bind_some, Value.toOption, isAbsent_overridden]
      split <;> rfl

theorem givenOptions?_overriddenOptions {options : List Value} {members : Record Value}
    (h : givenOptions? options = some members) (overrides : Record Value) (path : String) :
    givenOptions? (Value.overriddenOptions overrides path options) =
      some (Record.extendedBy (Value.overriddenMembers overrides path members)
        (overrides.optionsAt path)) := by
  have hnone (hhas : ¬overrides.has path = true) : overrides.optionsAt path = [] := by
    have hget : overrides.get? path = none := by simpa [Record.has] using hhas
    rw [Record.optionsAt, hget]
    rfl
  unfold givenOptions? at h
  split at h
  next =>
    obtain rfl := Option.some.inj h
    rw [Value.overriddenOptions]
    split
    next => rfl
    next hhas => rw [hnone hhas]; rfl
  next =>
    obtain rfl := Option.some.inj h
    rw [Value.overriddenOptions]
    split
    next => rfl
    next hhas => rw [hnone hhas]; rfl
  next =>
    obtain rfl := Option.some.inj h
    rfl
  next => cases h

theorem givenBlock?_extendedBy (members : Record Value) (options : OptionSet) :
    givenBlock? (members.extendedBy options) = givenBlock? members := by
  rw [givenBlock?, givenBlock?, Record.get?_extendedBy_of_ne OptionKey.name_ne_fields]

theorem name_overridden (overrides : Record Value) (parent : String) (d : Declaration) :
    (d.overridden overrides parent).name = d.name := by
  cases d <;> rfl

/-- The field that a declaration compiles as has a context. -/
theorem exists_fieldContext {around : Surroundings} {parent : String} {head : FieldHead}
    {block : Option (List Declaration)} {field : CompiledField}
    (h : compileOne around parent (block.elim (.field head) (.block head)) = .ok field) :
    ∃ ctx, fieldContext around parent head = .ok ctx := by
  cases block with
  | none =>
      obtain ⟨ctx, hctx, _⟩ := bind_eq_ok.mp h
      exact ⟨ctx, hctx⟩
  | some inner =>
      obtain ⟨ctx, _, _, hctx, _⟩ := compileBlock_eq_ok.mp h
      exact ⟨ctx, hctx⟩

/-- A field closes over extended options as it closes over its own, if it compiles. -/
theorem closeField_extendedBy {around : Surroundings} {parent name : String} {kind : FieldKind}
    {type : FieldType} {members others : Record Value} {block : Option (List Declaration)}
    {d : Declaration} {field : CompiledField}
    (h : closeField kind name (joinPath parent name) type (members.erase "fields") block = .ok d)
    (hc : compileOne around parent d = .ok field)
    (hothers : others.erase "fields" = Record.extendedBy (members.erase "fields")
      (around.overrides.optionsAt (joinPath parent name))) :
    closeField kind name (joinPath parent name) type (others.erase "fields")
        (block.map (overriddenAll around.overrides (joinPath parent name))) =
      .ok (d.overridden around.overrides parent) := by
  obtain ⟨hallowed, hneeded, hlisted, rfl⟩ := closeField_eq_ok_iff.mp h
  obtain ⟨ctx, hctx⟩ := exists_fieldContext hc
  refine closeField_eq_ok_iff.mpr ⟨?_, ?_, ?_, ?_⟩
  · simpa using hallowed
  · simpa using hneeded
  · intro htype
    have hvalues : others.get? "values" = (List.lookup OptionKey.values
        (around.overrides.optionsAt (joinPath parent name))).or (members.get? "values") := by
      have hget := Record.get?_extendedBy (OptionSet.nodup_ofEntries
        ((around.overrides.get? (joinPath parent name)).getD .absent).ownEntries)
        (members.erase "fields") .values
      have herased : (others.erase "fields").get? "values" = others.get? "values" := by
        rw [Record.get?_erase, if_neg (by decide)]
      rw [← herased, hothers]
      refine hget.trans ?_
      rw [OptionKey.name, Record.get?_erase, if_neg (by decide)]
      rfl
    rw [hvalues]
    cases hgiven : List.lookup OptionKey.values
        (around.overrides.optionsAt (joinPath parent name)) with
    | none => exact hlisted htype
    | some v => simp [Value.toOption, isAbsent_of_optionsAt hctx hgiven]
  · rw [hothers]
    cases block <;> rfl

/-- Extended option members are read alike where their block is. -/
theorem readInner_overridden {overrides : Record Value} {path : String} {members : Record Value}
    {block : Option (List Declaration)} (h : readInner path members = .ok block)
    (hblock : ∀ raw inner, givenBlock? members = some raw → block = some inner →
      readBlock path raw = .ok inner →
        readBlock path (raw.overridden overrides path) = .ok (overriddenAll overrides path inner)) :
    readInner path (Record.extendedBy (Value.overriddenMembers overrides path members)
      (overrides.optionsAt path)) = .ok (block.map (overriddenAll overrides path)) := by
  rw [readInner_eq_of_givenBlock] at h ⊢
  rw [givenBlock?_extendedBy, givenBlock?_overriddenMembers]
  cases hraw : givenBlock? members with
  | none =>
      rw [hraw] at h
      obtain rfl := Except.ok.inj h
      rfl
  | some raw =>
      rw [hraw] at h
      obtain ⟨inner, hread, h⟩ := bind_eq_ok.mp h
      obtain rfl := pure_eq_ok.mp h
      exact bind_eq_ok.mpr ⟨_, hblock raw inner hraw rfl hread, rfl⟩

/-- What is read from a raw declaration comes from its parts: a field from its options and from the
block among them, an embed from its reference. -/
theorem readTuple_cases {ordinal parent : String} {parts : List Value} {d : Declaration}
    (h : readTuple ordinal parent parts = .ok d) :
    (∃ (kind : FieldKind) (name : String) (tag : Value) (type : FieldType) (options : List Value)
        (members : Record Value) (block : Option (List Declaration)),
      parts = .text kind.name :: .text name :: tag :: options ∧ Text.isBlankText name = false ∧
        type.IsMeantBy tag ∧ givenOptions? options = some members ∧
        readInner (joinPath parent name) members = .ok block ∧
        closeField kind name (joinPath parent name) type (members.erase "fields") block = .ok d) ∨
    ∃ (kind : EmbedKind) (name : String) (reference : Value) (target : String),
      parts = [.text kind.name, .text name, reference] ∧ d = .embed kind name target := by
  have hread := h
  rw [readTuple] at hread
  obtain ⟨opening, hopen, hread⟩ := bind_eq_ok.mp hread
  rcases openTuple_parts hopen with
    ⟨kind, name, tag, type, options, rfl, hnamed, htyped, hfew, rfl⟩ |
    ⟨kind, name, reference, target, rfl, hnamed, hrefers, rfl⟩
  · obtain ⟨members, hgiven⟩ := givenOptions_of_readTuple hnamed htyped hfew h
    rw [readTuple_of_field hnamed htyped hgiven] at h
    obtain ⟨block, hinner, hclose⟩ := bind_eq_ok.mp h
    exact .inl ⟨kind, name, tag, type, options, members, block, rfl, hnamed, htyped, hgiven, hinner,
      hclose⟩
  · exact .inr ⟨kind, name, reference, target, rfl, (pure_eq_ok.mp hread).symm⟩

section Reading

variable {around : Surroundings}

mutual

/-- Where declarations compile, extending raw declarations and reading them commute. -/
theorem readBlock_overridden (parent : String) (raw : Value) {block : List Declaration}
    {fields : List (String × CompiledField)} (h : readBlock parent raw = .ok block)
    (hc : compileAll around parent block = .ok fields) :
    readBlock parent (raw.overridden around.overrides parent) =
      .ok (overriddenAll around.overrides parent block) := by
  cases raw with
  | list entries => exact readEntries_overridden parent 0 [] entries h hc
  | _ => exact absurd h malformed_ne_ok
termination_by sizeOf raw

theorem readEntries_overridden (parent : String) (count : Nat) (seen : List String)
    (entries : List Value) {block : List Declaration} {fields : List (String × CompiledField)}
    (h : readEntries parent count seen entries = .ok block)
    (hc : compileAll around parent block = .ok fields) :
    readEntries parent count seen (Value.overriddenEntries around.overrides parent entries) =
      .ok (overriddenAll around.overrides parent block) := by
  cases entries with
  | nil =>
      cases h
      rfl
  | cons entry rest =>
      rw [readEntries] at h
      obtain ⟨d, hd, h⟩ := bind_eq_ok.mp h
      split at h
      next => exact absurd h malformed_ne_ok
      next hfresh =>
        obtain ⟨others, hothers, h⟩ := bind_eq_ok.mp h
        obtain rfl := pure_eq_ok.mp h
        obtain ⟨field, laterFields, hfield, hlater, rfl⟩ := compileAll_cons_eq_ok.mp hc
        have hfirst := readOne_overridden _ parent entry hd hfield
        have hrest := readEntries_overridden parent _ _ rest hothers hlater
        rw [Value.overriddenEntries, readEntries]
        refine bind_eq_ok.mpr ⟨_, hfirst, ?_⟩
        rw [name_overridden, if_neg hfresh]
        exact bind_eq_ok.mpr ⟨_, hrest, rfl⟩
termination_by sizeOf entries

theorem readOne_overridden (ordinal parent : String) (entry : Value) {d : Declaration}
    {field : CompiledField} (h : readOne ordinal parent entry = .ok d)
    (hc : compileOne around parent d = .ok field) :
    readOne ordinal parent (Value.overriddenEntry around.overrides parent entry) =
      .ok (d.overridden around.overrides parent) := by
  cases entry with
  | list parts => exact readTuple_overridden ordinal parent parts h hc
  | _ => exact absurd h malformed_ne_ok
termination_by sizeOf entry

theorem readTuple_overridden (ordinal parent : String) (parts : List Value) {d : Declaration}
    {field : CompiledField} (h : readTuple ordinal parent parts = .ok d)
    (hc : compileOne around parent d = .ok field) :
    readOne ordinal parent (Value.overriddenEntry around.overrides parent (.list parts)) =
      .ok (d.overridden around.overrides parent) := by
  rcases readTuple_cases h with
    ⟨kind, name, tag, type, options, members, block, hparts, hnamed, htyped, hgiven, hinner,
      hclose⟩ |
    ⟨kind, name, reference, target, rfl, rfl⟩
  · rw [hparts]
    have hextended :=
      givenOptions?_overriddenOptions hgiven around.overrides (joinPath parent name)
    rw [Value.overriddenEntry, FieldKind.ofName?_eq_some_iff.mpr rfl]
    dsimp only
    rw [readOne, readTuple_of_field hnamed htyped hextended]
    refine bind_eq_ok.mpr ⟨_, readInner_overridden hinner ?_, closeField_extendedBy hclose hc ?_⟩
    · rintro raw inner hraw rfl hinner
      obtain ⟨-, -, -, rfl⟩ := closeField_eq_ok_iff.mp hclose
      obtain ⟨ctx, stated, fields, hctx, _, hfields, _⟩ := compileBlock_eq_ok.mp hc
      rw [fieldContext_path hctx] at hfields
      have hsmaller : sizeOf raw < sizeOf parts := by
        have hoptions := sizeOf_lt_of_givenBlock hgiven hraw
        simp only [hparts, List.cons.sizeOf_spec]
        omega
      exact readBlock_overridden _ raw hinner hfields
    · rw [Record.erase_extendedBy, erase_overriddenMembers]
  · have hkind : FieldKind.ofName? kind.name = none := by cases kind <;> rfl
    rw [Value.overriddenEntry, hkind]
    exact h
termination_by sizeOf parts

end

end Reading

theorem StandsAt.of_subset {block others : List Declaration} {way : List String}
    {d : Declaration} (h : StandsAt block way d) (hsubset : block ⊆ others) :
    StandsAt others way d := by
  cases h with
  | here hd => exact .here (hsubset hd)
  | inside hmem hinner => exact .inside (hsubset hmem) hinner

mutual

theorem standsAt_of_mem_fieldPaths (parent : String) (d : Declaration) {path : String}
    (h : path ∈ d.fieldPaths parent) :
    ∃ way e, StandsAt [d] way e ∧ (∀ kind name reference, e ≠ .embed kind name reference) ∧
      pathOf parent way = path := by
  cases d with
  | field head =>
      obtain rfl := List.mem_singleton.mp h
      exact ⟨_, .field head, .here List.mem_cons_self, by simp, rfl⟩
  | block head inner =>
      rcases List.mem_cons.mp h with rfl | hinner
      · exact ⟨_, .block head inner, .here List.mem_cons_self, by simp, rfl⟩
      · obtain ⟨way, e, he, hfield, rfl⟩ := standsAt_of_mem_blockPaths _ inner hinner
        exact ⟨_, e, .inside List.mem_cons_self he, hfield, rfl⟩
  | embed kind name reference => cases h
termination_by sizeOf d

theorem standsAt_of_mem_blockPaths (parent : String) (block : List Declaration) {path : String}
    (h : path ∈ blockPaths parent block) :
    ∃ way e, StandsAt block way e ∧ (∀ kind name reference, e ≠ .embed kind name reference) ∧
      pathOf parent way = path := by
  cases block with
  | nil => cases h
  | cons d rest =>
      rcases List.mem_append.mp h with hd | hrest
      · obtain ⟨way, e, he, hfield, hpath⟩ := standsAt_of_mem_fieldPaths parent d hd
        exact ⟨way, e, he.of_subset (by simp), hfield, hpath⟩
      · obtain ⟨way, e, he, hfield, hpath⟩ := standsAt_of_mem_blockPaths parent rest hrest
        exact ⟨way, e, he.cons d, hfield, hpath⟩
termination_by sizeOf block

end

theorem mem_blockPaths_of_mem {block : List Declaration} {d : Declaration} (hd : d ∈ block)
    {parent path : String} (h : path ∈ d.fieldPaths parent) : path ∈ blockPaths parent block := by
  induction block with
  | nil => cases hd
  | cons first rest ih =>
      rcases List.mem_cons.mp hd with rfl | hrest
      · exact List.mem_append_left _ h
      · exact List.mem_append_right _ (ih hrest)

theorem mem_blockPaths_of_standsAt {block : List Declaration} {way : List String}
    {d : Declaration} (h : StandsAt block way d)
    (hfield : ∀ kind name reference, d ≠ .embed kind name reference) (parent : String) :
    pathOf parent way ∈ blockPaths parent block := by
  induction h generalizing parent with
  | @here block d hd =>
      refine mem_blockPaths_of_mem hd ?_
      cases d with
      | field head => exact List.mem_cons_self
      | block head inner => exact List.mem_cons_self
      | embed kind name reference => exact absurd rfl (hfield kind name reference)
  | @inside block inner head way d hmem _ ih =>
      exact mem_blockPaths_of_mem hmem (List.mem_cons_of_mem _ (ih hfield _))

/-- The paths that a block declares are those of its fields, at any depth, embeds aside. -/
theorem mem_blockPaths_iff {block : List Declaration} {path : String} :
    path ∈ blockPaths "" block ↔ DeclaresField block path := by
  constructor
  · exact standsAt_of_mem_blockPaths "" block
  · rintro ⟨way, d, hd, hfield, rfl⟩
    exact mem_blockPaths_of_standsAt hd hfield ""

instance (block : List Declaration) (path : String) : Decidable (DeclaresField block path) :=
  decidable_of_iff _ mem_blockPaths_iff

end Declaration

namespace Schema

/-- Overrides rewrite declarations. The schema that compiles is the one that the raw declarations
compile to without overrides, once each field's options are extended by its override; and there is
one notice, in the order of the overrides, for each override of a path at which no field is
declared. -/
theorem compile_overridden {name : String} {raw : Value} {around : Surroundings} {s : Schema}
    {notices : List Notice} (h : compile name raw around = .ok (s, notices)) :
    compile name (raw.overridden around.overrides "") { around with overrides := [] } =
        .ok (s, []) ∧
      ∃ declared, Declaration.readAll raw = .ok declared ∧
        notices = (around.overrides.names.filter fun path =>
          ¬Declaration.DeclaresField declared path).map (.unknownOverride name) := by
  obtain ⟨declared, fields, hdeclared, hfields, hs, rfl⟩ := compile_eq_ok.mp h
  constructor
  · have hread := Declaration.readBlock_overridden "" raw hdeclared hfields
    have hcompiled := Compilation.compileAll_overridden "" declared hfields
    exact compile_eq_ok.mpr ⟨_, fields, hread, hcompiled, hs, rfl⟩
  · refine ⟨declared, hdeclared, congrArg _ (List.filter_congr fun path _ => ?_)⟩
    simp [← Declaration.mem_blockPaths_iff]

/-- An order with a code, lines of some size and a person who buys. -/
def briefOrder : Value :=
  .list [
    .list [.text "required", .text "code", .text "string",
      .object false [("maxLength", .number 8), ("title", .text "Code")]],
    .list [.text "optional", .text "lines", .list [.text "array", .text "object"],
      .object false [("fields", .list [.list [.text "required", .text "size", .text "integer"]])]],
    .list [.text "embeds_one", .text "buyer", .text "Person"]]

def briefOverrides : Record Value :=
  [("code", .object false [("colour", .text "red"), ("maxLength", .number 4)]),
    ("buyer.name", .object false [("title", .text "Full name")]),
    ("lines.size", .object false [("minimum", .number 1)]),
    ("buyer", .object false [("title", .text "Buyer")])]

/-- The same order, extended by its overrides. -/
def extendedOrder : Value :=
  .list [
    .list [.text "required", .text "code", .text "string",
      .object false [("maxLength", .number 4), ("title", .text "Code")]],
    .list [.text "optional", .text "lines", .list [.text "array", .text "object"],
      .object false [("fields", .list [
        .list [.text "required", .text "size", .text "integer",
          .object false [("minimum", .number 1)]]])]],
    .list [.text "embeds_one", .text "buyer", .text "Person"]]

def orderSurroundings (overrides : Record Value) : Surroundings where
  lookup reference := if reference = "Person" then some (personAbout none) else none
  typeDefaults := .builtIn
  overrides := overrides

/-- The overrides of the brief order make it the extended one; those of its buyer are noticed. -/
theorem briefOrder_overridden :
    ∃ s, compile "Order" briefOrder (orderSurroundings briefOverrides) =
        .ok (s, [.unknownOverride "Order" "buyer.name", .unknownOverride "Order" "buyer"]) ∧
      compile "Order" extendedOrder (orderSurroundings []) = .ok (s, []) := by
  obtain ⟨s, hs⟩ : ∃ s, compile "Order" briefOrder (orderSurroundings briefOverrides) =
      .ok (s, [.unknownOverride "Order" "buyer.name", .unknownOverride "Order" "buyer"]) := ⟨_, rfl⟩
  have hextended : briefOrder.overridden briefOverrides "" = extendedOrder := rfl
  refine ⟨s, hs, ?_⟩
  rw [← hextended]
  exact (compile_overridden hs).1

end Schema

end FieldSchema
