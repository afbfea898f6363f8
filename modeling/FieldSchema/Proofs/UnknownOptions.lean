import FieldSchema.Proofs.Grammar

/-!
# Unknown options

Nothing looks at an option that no field understands. Compilations whose raw declarations, at any
depth, and whose overrides differ in such options only end alike: with the same schema and the same
notices, or with the same failure.
-/

namespace FieldSchema

/-- Two records give each of the options that a field understands the same value. -/
def Record.SameKnown (members others : Record Value) : Prop :=
  ∀ key : OptionKey, others.get? key.name = members.get? key.name

mutual

/-- Two raw lists of declarations differ at most in unknown options. -/
inductive Value.SameKnown : Value → Value → Prop
  | refl (raw : Value) : SameKnown raw raw
  | list {entries others : List Value} (each : List.Forall₂ Value.EntrySameKnown entries others) :
      SameKnown (.list entries) (.list others)

/-- Two raw declarations differ at most in unknown options. Those of a field may be all that it has,
so that the other field has none; those of anything else stand where a field has its options. -/
inductive Value.EntrySameKnown : Value → Value → Prop
  | refl (entry : Value) : EntrySameKnown entry entry
  | field {kind : FieldKind} {name type : Value} {options others : List Value}
      {members otherMembers : Record Value}
      (given : Declaration.givenOptions? options = some members)
      (otherGiven : Declaration.givenOptions? others = some otherMembers)
      (known : members.SameKnown otherMembers)
      (block : Option.Rel Value.SameKnown (Declaration.givenBlock? members)
        (Declaration.givenBlock? otherMembers)) :
      EntrySameKnown (.list (.text kind.name :: name :: type :: options))
        (.list (.text kind.name :: name :: type :: others))
  | options {kind name type : Value} {bare otherBare : Bool} {members otherMembers : Record Value}
      (rest : List Value) (known : members.SameKnown otherMembers)
      (block : Option.Rel Value.SameKnown (Declaration.givenBlock? members)
        (Declaration.givenBlock? otherMembers)) :
      EntrySameKnown (.list (kind :: name :: type :: .object bare members :: rest))
        (.list (kind :: name :: type :: .object otherBare otherMembers :: rest))

end

/-- Surroundings that differ at most in unknown options of overrides. -/
structure Surroundings.SameKnown (around other : Surroundings) : Prop where
  lookup : other.lookup = around.lookup
  typeDefaults : other.typeDefaults = around.typeDefaults
  overrides : List.Forall₂ (fun entry otherEntry : String × Value =>
    otherEntry.1 = entry.1 ∧ entry.2.ownEntries.SameKnown otherEntry.2.ownEntries)
    around.overrides other.overrides

/-- Two fields differ at most in unknown options. -/
structure FieldHead.SameKnown (head other : FieldHead) : Prop where
  kind : other.kind = head.kind
  name : other.name = head.name
  type : other.type = head.type
  options : head.options.SameKnown other.options

/-- Two declarations differ at most in unknown options, at any depth. -/
inductive Declaration.SameKnown : Declaration → Declaration → Prop
  | field {head other : FieldHead} (same : head.SameKnown other) :
      SameKnown (.field head) (.field other)
  | block {head other : FieldHead} {inner others : List Declaration} (same : head.SameKnown other)
      (each : List.Forall₂ Declaration.SameKnown inner others) :
      SameKnown (.block head inner) (.block other others)
  | embed (kind : EmbedKind) (name reference : String) :
      SameKnown (.embed kind name reference) (.embed kind name reference)

/-! ## Ending alike -/

namespace Outcome

variable {α β γ δ : Type} {R : α → β → Prop} {S : γ → δ → Prop}

/-- Two outcomes are related results or one failure. -/
inductive Alike (R : α → β → Prop) : Outcome α → Outcome β → Prop
  | ok {a : α} {b : β} (h : R a b) : Alike R (.ok a) (.ok b)
  | error (failure : Failure) : Alike R (.error failure) (.error failure)

namespace Alike

theorem of_refl {R : α → α → Prop} (hR : ∀ a, R a a) (x : Outcome α) : Alike R x x := by
  cases x with
  | ok a => exact .ok (hR a)
  | error failure => exact .error failure

theorem bind {x : Outcome α} {y : Outcome β} {f : α → Outcome γ} {g : β → Outcome δ}
    (h : Alike R x y) (hfg : ∀ a b, R a b → Alike S (f a) (g b)) : Alike S (x >>= f) (y >>= g) := by
  cases h with
  | ok hab => exact hfg _ _ hab
  | error failure => exact .error failure

/-- Outcomes that are alike go on to one outcome where their results do. -/
theorem bind_eq {x : Outcome α} {y : Outcome β} {f : α → Outcome γ} {g : β → Outcome γ}
    (h : Alike R x y) (hfg : ∀ a b, R a b → g b = f a) : y >>= g = x >>= f := by
  cases h with
  | ok hab => exact hfg _ _ hab
  | error failure => rfl

end Alike

end Outcome

open Outcome

/-! ## Reading -/

theorem Record.SameKnown.refl (members : Record Value) : members.SameKnown members :=
  fun _ => rfl

/-- The block is no option. -/
theorem OptionKey.name_ne_fields (key : OptionKey) : key.name ≠ "fields" := by
  cases key <;> decide

theorem Record.SameKnown.erase {members others : Record Value} (h : members.SameKnown others) :
    Record.SameKnown (members.erase "fields") (others.erase "fields") := by
  intro key
  rw [get?_erase, get?_erase, if_neg key.name_ne_fields, if_neg key.name_ne_fields, h key]

/-- The known options among named entries depend on the entries of known names. -/
theorem OptionSet.ofEntries_sameKnown {members others : Record Value}
    (h : members.SameKnown others) : ofEntries others = ofEntries members := by
  apply List.filterMap_congr
  intro key _
  rw [h key]

namespace Declaration

mutual

theorem SameKnown.refl (d : Declaration) : d.SameKnown d := by
  cases d with
  | field head => exact .field ⟨rfl, rfl, rfl, .refl _⟩
  | block head inner => exact .block ⟨rfl, rfl, rfl, .refl _⟩ (sameKnown_refl inner)
  | embed kind name reference => exact .embed kind name reference
termination_by sizeOf d

theorem sameKnown_refl (block : List Declaration) :
    List.Forall₂ Declaration.SameKnown block block := by
  cases block with
  | nil => exact .nil
  | cons d rest => exact .cons (SameKnown.refl d) (sameKnown_refl rest)
termination_by sizeOf block

end

theorem SameKnown.name_eq {d other : Declaration} (h : d.SameKnown other) :
    other.name = d.name := by
  cases h with
  | field same => exact same.name
  | block same => exact same.name
  | embed => rfl

section Opening

variable {ordinal parent : String} {kind name type : Value} {options others : List Value}

/-- Of the parts that follow the type only the number counts for the opening of a declaration. -/
theorem openTuple_congr_length (hlength : others.length = options.length) :
    openTuple ordinal parent (kind :: name :: type :: others) =
      openTuple ordinal parent (kind :: name :: type :: options) := by
  simp only [openTuple, openField, openEmbed, List.length_cons, List.getD_cons_zero,
    List.getD_cons_succ, hlength]

theorem openTuple_congr_field (kind : FieldKind) (hoptions : options.length ≤ 1)
    (hothers : others.length ≤ 1) :
    openTuple ordinal parent (.text kind.name :: name :: type :: others) =
      openTuple ordinal parent (.text kind.name :: name :: type :: options) := by
  have hopen {parts : List Value} (hfew : parts.length ≤ 1) (word path : String) :
      openField kind word path (.text kind.name :: name :: type :: parts) =
        readType type (some path) >>= fun read => pure (.field kind word read) := by
    have hleast : ¬parts.length + 1 + 1 + 1 < 3 := by omega
    have hmost : ¬4 < parts.length + 1 + 1 + 1 := by omega
    simp only [openField, List.length_cons, if_neg hleast, if_neg hmost, List.getD_cons_succ,
      List.getD_cons_zero]
  simp only [openTuple, List.getD_cons_zero, List.getD_cons_succ, hopen hoptions, hopen hothers,
    FieldKind.ofName?_eq_some_iff.mpr rfl]

/-- A declaration is read from its opening and from its option members. -/
theorem readTuple_eq_of_given {members : Record Value}
    (hgiven : givenOptions? options = some members) :
    readTuple ordinal parent (kind :: name :: type :: options) =
      openTuple ordinal parent (kind :: name :: type :: options) >>= fun opening =>
        match opening with
        | .embed embedKind word reference => pure (.embed embedKind word reference)
        | .field fieldKind word fieldType =>
            readInner (joinPath parent word) members >>=
              closeField fieldKind word (joinPath parent word) fieldType
                (members.erase "fields") := by
  rw [readTuple]
  apply bind_congr
  intro opening
  cases opening with
  | embed => rfl
  | field fieldKind word fieldType =>
      unfold givenOptions? at hgiven
      split at hgiven
      next =>
        obtain rfl := Option.some.inj hgiven
        rfl
      next =>
        obtain rfl := Option.some.inj hgiven
        rfl
      next =>
        obtain rfl := Option.some.inj hgiven
        rfl
      next => cases hgiven

end Opening

/-- A field that is closed over alike options and an alike block is alike. -/
theorem closeField_sameKnown {members others : Record Value} (h : members.SameKnown others)
    {block otherBlock : Option (List Declaration)}
    (hblock : Option.Rel (List.Forall₂ SameKnown) block otherBlock) (kind : FieldKind)
    (name path : String) (type : FieldType) :
    Alike SameKnown (closeField kind name path type (members.erase "fields") block)
      (closeField kind name path type (others.erase "fields") otherBlock) := by
  have hsome : otherBlock.isSome = block.isSome := by cases hblock <;> rfl
  have hnone : otherBlock.isNone = block.isNone := by cases hblock <;> rfl
  have hvalues : Record.get? (others.erase "fields") "values" =
      Record.get? (members.erase "fields") "values" := h.erase .values
  unfold closeField
  rw [hsome, hnone, hvalues]
  split
  next => exact .error _
  next =>
    split
    next => exact .error _
    next =>
      split
      next => exact .error _
      next =>
        cases hblock with
        | none => exact .ok (.field ⟨rfl, rfl, rfl, h.erase⟩)
        | some hinner => exact .ok (.block ⟨rfl, rfl, rfl, h.erase⟩ hinner)

/-- A field is read alike from alike option members whose blocks are read alike. -/
theorem readTuple_sameKnown {ordinal parent : String} {kind name type : Value}
    {options others : List Value} {members otherMembers : Record Value}
    (hgiven : givenOptions? options = some members)
    (hother : givenOptions? others = some otherMembers) (hknown : members.SameKnown otherMembers)
    (hopening : openTuple ordinal parent (kind :: name :: type :: others) =
      openTuple ordinal parent (kind :: name :: type :: options))
    (hinner : ∀ path, Alike (Option.Rel (List.Forall₂ SameKnown)) (readInner path members)
      (readInner path otherMembers)) :
    Alike SameKnown (readTuple ordinal parent (kind :: name :: type :: options))
      (readTuple ordinal parent (kind :: name :: type :: others)) := by
  rw [readTuple_eq_of_given hgiven, readTuple_eq_of_given hother, hopening]
  refine (Alike.of_refl (fun _ => rfl) _).bind ?_
  rintro opening _ rfl
  cases opening with
  | embed embedKind word reference => exact .ok (.embed embedKind word reference)
  | field fieldKind word fieldType =>
      refine (hinner _).bind fun block otherBlock hblock => ?_
      exact closeField_sameKnown hknown hblock fieldKind word _ fieldType

theorem readTuple_of_too_many {ordinal parent : String} {kind name type first second : Value}
    {rest : List Value} :
    readTuple ordinal parent (kind :: name :: type :: first :: second :: rest) =
      openTuple ordinal parent (kind :: name :: type :: first :: second :: rest) >>= fun opening =>
        match opening with
        | .embed embedKind word reference => pure (.embed embedKind word reference)
        | .field fieldKind word fieldType =>
            closeField fieldKind word (joinPath parent word) fieldType [] none := by
  rw [readTuple]
  apply bind_congr
  intro opening
  cases opening with
  | embed => rfl
  | field => cases first <;> rfl

theorem sizeOf_lt_of_members {members : Record Value} {raw : Value}
    (h : givenBlock? members = some raw) : sizeOf raw < sizeOf members := by
  have hmember := List.sizeOf_lt_of_mem (Record.mem_of_get? (givenBlock?_eq_some_iff.mp h).1)
  simp only [Prod.mk.sizeOf_spec] at hmember
  omega

theorem readInner_eq_of_givenBlock (path : String) (members : Record Value) :
    readInner path members =
      match givenBlock? members with
      | none => .ok none
      | some raw => do return some (← readBlock path raw) := by
  rw [readInner_eq, givenBlock?]
  cases members.get? "fields" with
  | none => rfl
  | some raw => cases raw <;> rfl

/-- Blocks among the option members are read alike where they are read alike alone. -/
theorem readInner_sameKnown {path : String} {members otherMembers : Record Value}
    (h : Option.Rel Value.SameKnown (givenBlock? members) (givenBlock? otherMembers))
    (hblock : ∀ raw other, givenBlock? members = some raw → raw.SameKnown other →
      Alike (List.Forall₂ SameKnown) (readBlock path raw) (readBlock path other)) :
    Alike (Option.Rel (List.Forall₂ SameKnown)) (readInner path members)
      (readInner path otherMembers) := by
  rw [readInner_eq_of_givenBlock, readInner_eq_of_givenBlock]
  generalize givenBlock? members = x at h hblock
  generalize givenBlock? otherMembers = y at h
  cases h with
  | none => exact .ok .none
  | some hsame => exact (hblock _ _ rfl hsame).bind fun _ _ hinner => .ok (.some hinner)

mutual

/-- Raw declarations that differ in unknown options are read alike. -/
theorem readBlock_sameKnown (parent : String) (raw : Value) {other : Value}
    (h : raw.SameKnown other) :
    Alike (List.Forall₂ SameKnown) (readBlock parent raw) (readBlock parent other) := by
  cases h with
  | refl => exact .of_refl sameKnown_refl _
  | @list entries others each => exact readEntries_sameKnown parent 0 [] entries each
termination_by sizeOf raw

theorem readEntries_sameKnown (parent : String) (count : Nat) (seen : List String)
    (entries : List Value) {others : List Value}
    (h : List.Forall₂ Value.EntrySameKnown entries others) :
    Alike (List.Forall₂ SameKnown) (readEntries parent count seen entries)
      (readEntries parent count seen others) := by
  cases h with
  | nil => exact .ok .nil
  | @cons entry otherEntry rest otherRest hentry hrest =>
      rw [readEntries, readEntries]
      refine (readOne_sameKnown _ parent entry hentry).bind fun d other hsame => ?_
      rw [hsame.name_eq]
      split
      next => exact .error _
      next =>
        refine (readEntries_sameKnown parent _ _ rest hrest).bind fun later otherLater hlater => ?_
        exact .ok (.cons hsame hlater)
termination_by sizeOf entries

theorem readOne_sameKnown (ordinal parent : String) (entry : Value) {otherEntry : Value}
    (h : entry.EntrySameKnown otherEntry) :
    Alike SameKnown (readOne ordinal parent entry) (readOne ordinal parent otherEntry) := by
  cases h with
  | refl => exact .of_refl SameKnown.refl _
  | @field kind name type options others members otherMembers given otherGiven known block =>
      rw [readOne, readOne]
      have hfew := length_le_one_of_givenOptions given
      have hotherFew := length_le_one_of_givenOptions otherGiven
      refine readTuple_sameKnown given otherGiven known (openTuple_congr_field kind hfew hotherFew)
        fun path => ?_
      refine readInner_sameKnown block fun raw other hraw hsame => ?_
      have hsmaller := sizeOf_lt_of_givenBlock given hraw
      exact readBlock_sameKnown path raw hsame
  | @options kind name type bare otherBare members otherMembers rest known block =>
      rw [readOne, readOne]
      cases rest with
      | nil =>
          refine readTuple_sameKnown rfl rfl known (openTuple_congr_length rfl) fun path => ?_
          refine readInner_sameKnown block fun raw other hraw hsame => ?_
          have hsmaller := sizeOf_lt_of_members hraw
          exact readBlock_sameKnown path raw hsame
      | cons second rest =>
          rw [readTuple_of_too_many, readTuple_of_too_many, openTuple_congr_length rfl]
          exact .of_refl SameKnown.refl _
termination_by sizeOf entry

end

mutual

/-- Declarations that differ in unknown options declare fields at the same paths. -/
theorem fieldPaths_sameKnown (parent : String) (d : Declaration) {other : Declaration}
    (h : d.SameKnown other) : other.fieldPaths parent = d.fieldPaths parent := by
  cases h with
  | field same => rw [fieldPaths, fieldPaths, same.name]
  | @block head otherHead inner others same each =>
      rw [fieldPaths, fieldPaths, same.name, blockPaths_sameKnown _ inner each]
  | embed => rfl
termination_by sizeOf d

theorem blockPaths_sameKnown (parent : String) (block : List Declaration)
    {others : List Declaration} (h : List.Forall₂ SameKnown block others) :
    blockPaths parent others = blockPaths parent block := by
  cases h with
  | nil => rfl
  | @cons d other rest otherRest hd hrest =>
      rw [blockPaths, blockPaths, fieldPaths_sameKnown parent d hd,
        blockPaths_sameKnown parent rest hrest]
termination_by sizeOf block

end

end Declaration

/-! ## Compiling -/

namespace Surroundings.SameKnown

variable {around other : Surroundings} (h : around.SameKnown other)

include h

theorem names_eq : other.overrides.names = around.overrides.names := by
  have heach := h.overrides
  generalize around.overrides = overrides at heach
  generalize other.overrides = others at heach
  induction heach with
  | nil => rfl
  | cons hentry _ ih => exact congrArg₂ List.cons hentry.1 ih

/-- Overrides that differ in unknown options give a path the same option set. -/
theorem ofValue_eq (path : String) :
    OptionSet.ofValue ((other.overrides.get? path).getD .absent) =
      OptionSet.ofValue ((around.overrides.get? path).getD .absent) := by
  have heach := h.overrides
  generalize around.overrides = overrides at heach
  generalize other.overrides = others at heach
  induction heach with
  | nil => rfl
  | cons hentry _ ih =>
      rw [Record.get?_cons, Record.get?_cons, hentry.1]
      split
      next => exact OptionSet.ofEntries_sameKnown hentry.2
      next => exact ih

end Surroundings.SameKnown

namespace Compilation

variable {around other : Surroundings}

theorem fieldContext_sameKnown (haround : around.SameKnown other) {head otherHead : FieldHead}
    (hhead : head.SameKnown otherHead) (parent : String) :
    fieldContext other parent otherHead = fieldContext around parent head := by
  simp only [fieldContext, hhead.kind, hhead.name, hhead.type, haround.typeDefaults,
    haround.ofValue_eq, OptionSet.ofEntries_sameKnown hhead.options]

mutual

/-- Declarations that differ in unknown options compile alike. -/
theorem compileOne_sameKnown (haround : around.SameKnown other) (parent : String)
    (d : Declaration) {otherD : Declaration} (h : d.SameKnown otherD) :
    compileOne other parent otherD = compileOne around parent d := by
  cases h with
  | field same =>
      rw [compileOne, compileOne, compileField, compileField, fieldContext_sameKnown haround same,
        same.type]
  | @block head otherHead inner others same each =>
      rw [compileOne, compileOne, fieldContext_sameKnown haround same, same.type]
      apply bind_congr
      intro ctx
      rw [compileAll_sameKnown haround ctx.path inner each]
  | embed kind name reference => rw [compileOne, compileOne, haround.lookup]
termination_by sizeOf d

theorem compileAll_sameKnown (haround : around.SameKnown other) (parent : String)
    (block : List Declaration) {others : List Declaration}
    (h : List.Forall₂ Declaration.SameKnown block others) :
    compileAll other parent others = compileAll around parent block := by
  cases h with
  | nil => rfl
  | @cons d otherD rest otherRest hd hrest =>
      rw [compileAll, compileAll, compileOne_sameKnown haround parent d hd,
        compileAll_sameKnown haround parent rest hrest, hd.name_eq]
termination_by sizeOf block

end

end Compilation

namespace Schema

/-- Unknown options are inert: compilations that differ in them, in raw declarations at any depth
and in overrides, end with one schema and one list of notices, or with one failure. -/
theorem compile_sameKnown {raw otherRaw : Value} {around other : Surroundings}
    (hraw : raw.SameKnown otherRaw) (haround : around.SameKnown other) (name : String) :
    compile name otherRaw other = compile name raw around := by
  refine (Declaration.readBlock_sameKnown "" raw hraw).bind_eq fun declared others hsame => ?_
  rw [Compilation.compileAll_sameKnown haround "" declared hsame, unusedOverrides, unusedOverrides,
    haround.names_eq, Declaration.blockPaths_sameKnown "" declared hsame]

/-- A ticket with a code and lines of some size. -/
def plainTicket : Value :=
  .list [
    .list [.text "required", .text "code", .text "string"],
    .list [.text "optional", .text "lines", .list [.text "array", .text "object"],
      .object false [("fields", .list [
        .list [.text "required", .text "size", .text "integer",
          .object false [("minimum", .number 1)]]])]]]

/-- The same ticket, strewn with options that no field understands. -/
def strewnTicket : Value :=
  .list [
    .list [.text "required", .text "code", .text "string",
      .object true [("unique", .function 1)]],
    .list [.text "optional", .text "lines", .list [.text "array", .text "object"],
      .object false [
        ("index", .host .promise),
        ("fields", .list [
          .list [.text "required", .text "size", .text "integer",
            .object false [("Minimum", .number 7), ("minimum", .number 1), ("step", .absent)]]])]]]

def cappedSurroundings : Surroundings :=
  ⟨fun _ => none, .builtIn, [("lines.size", .object false [("maximum", .number 9)])]⟩

def strewnSurroundings : Surroundings :=
  ⟨fun _ => none, .builtIn,
    [("lines.size", .object false [
      ("type", .text "string"), ("maximum", .number 9), ("required", .bool false),
      ("fields", .list [])])]⟩

theorem tickets_sameKnown : plainTicket.SameKnown strewnTicket := by
  refine .list (.cons ?_ (.cons ?_ .nil))
  · exact @Value.EntrySameKnown.field .required _ _ _ _ _ _ rfl rfl
      (fun key => by cases key <;> rfl) .none
  · refine .options [] (fun key => by cases key <;> rfl) (.some (.list (.cons ?_ .nil)))
    exact .options [] (fun key => by cases key <;> rfl) .none

theorem ticketSurroundings_sameKnown : cappedSurroundings.SameKnown strewnSurroundings :=
  ⟨rfl, rfl, .cons ⟨rfl, fun key => by cases key <;> rfl⟩ .nil⟩

/-- The plain and the strewn ticket are one schema. -/
theorem tickets_compile_alike :
    ∃ s, compile "Ticket" plainTicket cappedSurroundings = .ok (s, []) ∧
      compile "Ticket" strewnTicket strewnSurroundings = .ok (s, []) := by
  obtain ⟨s, hs⟩ : ∃ s, compile "Ticket" plainTicket cappedSurroundings = .ok (s, []) := ⟨_, rfl⟩
  have hsame := compile_sameKnown tickets_sameKnown ticketSurroundings_sameKnown "Ticket"
  exact ⟨s, hs, hsame.trans hs⟩

end Schema

end FieldSchema
