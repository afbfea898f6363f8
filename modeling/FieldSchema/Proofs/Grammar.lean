import FieldSchema.Proofs.ReaderOptions

/-!
# The grammar of raw declarations

Which values are lists of raw declarations, said of the values alone: of their kinds, names, types,
options, inline blocks and references. Reading succeeds on exactly these values, below whatever
parent they stand, and the declarations that it returns stand for the entries one by one.
-/

namespace FieldSchema

/-! ## Words -/

/-- A word means a scalar type: it is the type's name, or another spelling of it. -/
def ScalarType.IsMeantBy (type : ScalarType) (word : String) : Prop :=
  word = type.name ∨ (word, type) ∈ aliases

/-- A word means the type of an array's elements. -/
def ElementType.IsMeantBy (element : ElementType) (word : String) : Prop :=
  word = element.name ∨ (word = "map" ∧ element = .object)

/-- A type tag means the type of a field. -/
inductive FieldType.IsMeantBy : FieldType → Value → Prop
  | scalar {type : ScalarType} {word : String} (h : type.IsMeantBy word) :
      IsMeantBy (.scalar type) (.text word)
  | array {element : ElementType} {word : String} (h : element.IsMeantBy word) :
      IsMeantBy (.array element) (.list [.text "array", .text word])

/-- A reference names a schema: by its name, or by an object with that name. -/
inductive Value.RefersTo : Value → String → Prop
  | name {word : String} (h : Text.isBlankText word = false) : RefersTo (.text word) word
  | schema {bare : Bool} {members : Record Value} {word : String}
      (hname : members.get? "name" = some (.text word)) (hne : word ≠ "") :
      RefersTo (.object bare members) word

/-! ## Raw declarations -/

/-- The second part of a raw declaration, where it is a text. -/
def Value.declaredName : Value → String
  | .list (_ :: .text name :: _) => name
  | _ => ""

/-- The inline block among the option members of a raw field. One given as absent is none. -/
def Declaration.givenBlock? (members : Record Value) : Option Value :=
  (members.get? "fields").bind Value.toOption

mutual

/-- A list of raw declarations, no two of one name. -/
inductive Value.IsDeclarationList : Value → Prop
  | list {entries : List Value} (each : ∀ entry ∈ entries, Value.IsDeclaration entry)
      (distinct : (entries.map Value.declaredName).Nodup) : IsDeclarationList (.list entries)

/-- A raw declaration of a field or of an embed. -/
inductive Value.IsDeclaration : Value → Prop
  | field {kind : FieldKind} {name : String} {tag : Value} {type : FieldType}
      {options : List Value} {members : Record Value}
      (named : Text.isBlankText name = false) (typed : type.IsMeantBy tag)
      (given : Declaration.givenOptions? options = some members)
      (inner : ∀ raw, Declaration.givenBlock? members = some raw → Value.IsDeclarationList raw)
      (allowed : (Declaration.givenBlock? members).isSome = true →
        type = .scalar .object ∨ type = .array .object)
      (needed : type = .array .object → (Declaration.givenBlock? members).isSome = true)
      (listed : type = .scalar .enumeration →
        ((members.get? "values").bind Value.toOption).isSome = true) :
      IsDeclaration (.list (.text kind.name :: .text name :: tag :: options))
  | embed {kind : EmbedKind} {name target : String} {reference : Value}
      (named : Text.isBlankText name = false) (refers : reference.RefersTo target) :
      IsDeclaration (.list [.text kind.name, .text name, reference])

end

/-- A raw declaration stands for a declaration. Other spellings of a type stand for the type, and
the inline block is taken out of the options. -/
inductive Value.StandsFor : Value → Declaration → Prop
  | field {kind : FieldKind} {name : String} {tag : Value} {type : FieldType}
      {options : List Value} {members : Record Value} (typed : type.IsMeantBy tag)
      (given : Declaration.givenOptions? options = some members)
      (plain : Declaration.givenBlock? members = none) :
      StandsFor (.list (.text kind.name :: .text name :: tag :: options))
        (.field ⟨kind, name, type, members.erase "fields"⟩)
  | block {kind : FieldKind} {name : String} {tag : Value} {type : FieldType}
      {options entries : List Value} {members : Record Value} {inner : List Declaration}
      (typed : type.IsMeantBy tag) (given : Declaration.givenOptions? options = some members)
      (block : Declaration.givenBlock? members = some (.list entries))
      (each : List.Forall₂ Value.StandsFor entries inner) :
      StandsFor (.list (.text kind.name :: .text name :: tag :: options))
        (.block ⟨kind, name, type, members.erase "fields"⟩ inner)
  | embed {kind : EmbedKind} {name target : String} {reference : Value}
      (refers : reference.RefersTo target) :
      StandsFor (.list [.text kind.name, .text name, reference]) (.embed kind name target)

/-! ## Reading words -/

theorem FieldKind.ofName?_eq_some_iff {word : String} {kind : FieldKind} :
    ofName? word = some kind ↔ word = kind.name := by
  constructor
  · intro h
    unfold ofName? at h
    split at h
    next hword => exact Option.some.inj h ▸ hword
    next =>
      split at h
      next hword => exact Option.some.inj h ▸ hword
      next =>
        split at h
        next hword => exact Option.some.inj h ▸ hword
        next => cases h
  · rintro rfl
    cases kind <;> rfl

theorem EmbedKind.ofName?_eq_some_iff {word : String} {kind : EmbedKind} :
    ofName? word = some kind ↔ word = kind.name := by
  constructor
  · intro h
    unfold ofName? at h
    split at h
    next hword => exact Option.some.inj h ▸ hword
    next =>
      split at h
      next hword => exact Option.some.inj h ▸ hword
      next => cases h
  · rintro rfl
    cases kind <;> rfl

theorem ScalarType.ofName?_eq_some_iff {word : String} {type : ScalarType} :
    ofName? word = some type ↔ type.IsMeantBy word := by
  constructor
  · intro h
    rcases Option.or_eq_some_iff.mp h with hname | ⟨_, halias⟩
    · have hname := List.find?_some hname
      exact .inl (beq_iff_eq.mp hname).symm
    · exact .inr (Record.mem_of_get? halias)
  · rintro (rfl | halias)
    · cases type <;> rfl
    · simp only [aliases, List.mem_cons, Prod.mk.injEq, List.not_mem_nil, or_false] at halias
      rcases halias with ⟨rfl, rfl⟩ | ⟨rfl, rfl⟩ | ⟨rfl, rfl⟩ <;> rfl

theorem ElementType.ofName?_eq_some_iff {word : String} {element : ElementType} :
    ofName? word = some element ↔ element.IsMeantBy word := by
  constructor
  · intro h
    unfold ofName? at h
    split at h
    next hword => exact Option.some.inj h ▸ .inl hword
    next =>
      split at h
      next hword => exact Option.some.inj h ▸ .inl hword
      next =>
        split at h
        next hword => exact Option.some.inj h ▸ hword.imp_right fun hmap => ⟨hmap, rfl⟩
        next => cases h
  · rintro (rfl | ⟨rfl, rfl⟩)
    · cases element <;> rfl
    · rfl

namespace Declaration

theorem readType_eq_ok_iff {tag : Value} {path : Option String} {type : FieldType} :
    readType tag path = .ok type ↔ type.IsMeantBy tag := by
  constructor
  · intro h
    unfold readType at h
    split at h
    next word =>
      split at h
      next scalar hscalar =>
        obtain rfl := Except.ok.inj h
        exact .scalar (ScalarType.ofName?_eq_some_iff.mp hscalar)
      next =>
        split at h
        next => exact absurd h Outcome.malformed_ne_ok
        next => exact absurd h Outcome.malformed_ne_ok
    next subtype =>
      split at h
      next word =>
        split at h
        next element helement =>
          obtain rfl := Except.ok.inj h
          exact .array (ElementType.ofName?_eq_some_iff.mp helement)
        next => cases h
      next => exact absurd h Outcome.malformed_ne_ok
    next =>
      obtain ⟨_, _, h⟩ := Outcome.bind_eq_ok.mp h
      exact absurd h Outcome.malformed_ne_ok
  · rintro (hscalar | helement)
    · rw [readType, ScalarType.ofName?_eq_some_iff.mpr hscalar]
    · rw [readType, ElementType.ofName?_eq_some_iff.mpr helement]

theorem referenceName?_eq_some_iff {reference : Value} {target : String} :
    referenceName? reference = some target ↔ reference.RefersTo target := by
  constructor
  · intro h
    unfold referenceName? at h
    split at h
    next word =>
      split at h
      next => cases h
      next hblank =>
        obtain rfl := Option.some.inj h
        exact .name (by simpa using hblank)
    next bare members =>
      split at h
      next word hmember =>
        split at h
        next => cases h
        next hne =>
          obtain rfl := Option.some.inj h
          rw [Value.member] at hmember
          cases hname : Record.get? members "name" with
          | none => simp [hname] at hmember
          | some value =>
              obtain rfl : value = .text word := by simpa [hname] using hmember
              exact .schema hname hne
      next => cases h
    next => cases h
  · rintro (hblank | ⟨hname, hne⟩)
    · simp [referenceName?, hblank]
    · simp [referenceName?, Value.member, hname, hne]

/-! ## Reading the parts of a declaration -/

section Opening

variable {ordinal parent name : String}

theorem openTuple_of_fieldKind (kind : FieldKind) (hnamed : Text.isBlankText name = false)
    (rest : List Value) :
    openTuple ordinal parent (.text kind.name :: .text name :: rest) =
      openField kind name (joinPath parent name) (.text kind.name :: .text name :: rest) := by
  simp only [openTuple, List.getD_cons_zero, List.getD_cons_succ, hnamed,
    FieldKind.ofName?_eq_some_iff.mpr rfl]
  rfl

theorem openTuple_of_embedKind (kind : EmbedKind) (hnamed : Text.isBlankText name = false)
    (rest : List Value) :
    openTuple ordinal parent (.text kind.name :: .text name :: rest) =
      openEmbed kind name (joinPath parent name) (.text kind.name :: .text name :: rest) := by
  have hfield : FieldKind.ofName? kind.name = none := by cases kind <;> rfl
  simp only [openTuple, List.getD_cons_zero, List.getD_cons_succ, hnamed, hfield,
    EmbedKind.ofName?_eq_some_iff.mpr rfl]
  rfl

theorem openTuple_of_field {kind : FieldKind} (hnamed : Text.isBlankText name = false)
    {tag : Value} {type : FieldType} (htyped : type.IsMeantBy tag) {options : List Value}
    (hfew : options.length ≤ 1) :
    openTuple ordinal parent (.text kind.name :: .text name :: tag :: options) =
      .ok (.field kind name type) := by
  have hleast : ¬options.length + 1 + 1 + 1 < 3 := by omega
  have hmost : ¬4 < options.length + 1 + 1 + 1 := by omega
  rw [openTuple_of_fieldKind kind hnamed, openField]
  simp only [List.length_cons, if_neg hleast, if_neg hmost, List.getD_cons_succ,
    List.getD_cons_zero, readType_eq_ok_iff.mpr htyped]
  rfl

theorem openTuple_of_embed {kind : EmbedKind} (hnamed : Text.isBlankText name = false)
    {reference : Value} {target : String} (hrefers : reference.RefersTo target) :
    openTuple ordinal parent [.text kind.name, .text name, reference] =
      .ok (.embed kind name target) := by
  rw [openTuple_of_embedKind kind hnamed, openEmbed]
  simp [referenceName?_eq_some_iff.mpr hrefers]

/-- What opens a raw declaration tells the form of its parts. -/
theorem openTuple_parts {parts : List Value} {opening : Opening}
    (h : openTuple ordinal parent parts = .ok opening) :
    (∃ (kind : FieldKind) (name : String) (tag : Value) (type : FieldType) (options : List Value),
      parts = .text kind.name :: .text name :: tag :: options ∧
        Text.isBlankText name = false ∧ type.IsMeantBy tag ∧ options.length ≤ 1 ∧
        opening = .field kind name type) ∨
    ∃ (kind : EmbedKind) (name : String) (reference : Value) (target : String),
      parts = [.text kind.name, .text name, reference] ∧ Text.isBlankText name = false ∧
        reference.RefersTo target ∧ opening = .embed kind name target := by
  obtain ⟨word, name, hword, hname, hnamed, hcases⟩ := openTuple_cases h
  -- a text is no default, so that the first two parts are there
  obtain ⟨rest, rfl⟩ : ∃ rest, parts = .text word :: .text name :: rest := by
    cases parts with
    | nil => cases hword
    | cons first others =>
        cases others with
        | nil => cases hname
        | cons second rest =>
            obtain rfl : first = .text word := hword
            obtain rfl : second = .text name := hname
            exact ⟨rest, rfl⟩
  rcases hcases with ⟨kind, type, hkind, rfl⟩ | ⟨kind, target, hkind, hlength, hrefers, rfl⟩
  · left
    obtain rfl := FieldKind.ofName?_eq_some_iff.mp hkind
    rw [openTuple_of_fieldKind kind hnamed, openField] at h
    split at h
    next => exact absurd h Outcome.malformed_ne_ok
    next hleast =>
      split at h
      next => exact absurd h Outcome.malformed_ne_ok
      next hmost =>
        obtain ⟨read, hread, h⟩ := Outcome.bind_eq_ok.mp h
        obtain rfl : read = type := by simpa [Outcome.pure_eq_ok] using h
        cases rest with
        | nil => simp at hleast
        | cons tag options =>
            refine ⟨kind, name, tag, read, options, rfl, hnamed, ?_, ?_, rfl⟩
            · exact readType_eq_ok_iff.mp hread
            · simp only [List.length_cons] at hmost
              omega
  · right
    obtain rfl := EmbedKind.ofName?_eq_some_iff.mp hkind
    obtain ⟨reference, rfl⟩ : ∃ reference, rest = [reference] :=
      List.length_eq_one_iff.mp (by simpa using hlength)
    exact ⟨kind, name, reference, target, rfl, hnamed,
      referenceName?_eq_some_iff.mp hrefers, rfl⟩

end Opening

theorem length_le_one_of_givenOptions {options : List Value} {members : Record Value}
    (h : givenOptions? options = some members) : options.length ≤ 1 := by
  unfold givenOptions? at h
  split at h
  next => simp
  next => simp
  next => simp
  next => cases h

/-- A field is closed over the block that its option members give. -/
theorem readTuple_of_field {ordinal parent name : String} {kind : FieldKind} {tag : Value}
    {type : FieldType} {options : List Value} {members : Record Value}
    (hnamed : Text.isBlankText name = false) (htyped : type.IsMeantBy tag)
    (hgiven : givenOptions? options = some members) :
    readTuple ordinal parent (.text kind.name :: .text name :: tag :: options) =
      readInner (joinPath parent name) members >>=
        closeField kind name (joinPath parent name) type (members.erase "fields") := by
  rw [readTuple, openTuple_of_field hnamed htyped (length_le_one_of_givenOptions hgiven)]
  unfold givenOptions? at hgiven
  split at hgiven
  next =>
    obtain rfl := Option.some.inj hgiven
    rfl
  next =>
    obtain rfl := Option.some.inj hgiven
    rfl
  next =>
    obtain rfl := Option.some.inj hgiven
    rfl
  next => cases hgiven

/-- The options of a field that has been read are left out, given as absent, or an object. -/
theorem givenOptions_of_readTuple {ordinal parent name : String} {kind : FieldKind} {tag : Value}
    {type : FieldType} {options : List Value} {d : Declaration}
    (hnamed : Text.isBlankText name = false) (htyped : type.IsMeantBy tag)
    (hfew : options.length ≤ 1)
    (h : readTuple ordinal parent (.text kind.name :: .text name :: tag :: options) = .ok d) :
    ∃ members, givenOptions? options = some members := by
  rw [readTuple, openTuple_of_field hnamed htyped hfew] at h
  match options with
  | [] => exact ⟨_, rfl⟩
  | [given] =>
      cases given with
      | absent => exact ⟨_, rfl⟩
      | object _ members => exact ⟨members, rfl⟩
      | _ => exact absurd h Outcome.malformed_ne_ok
  | _ :: _ :: _ => simp at hfew

theorem givenBlock?_eq_some_iff {members : Record Value} {raw : Value} :
    givenBlock? members = some raw ↔
      members.get? "fields" = some raw ∧ raw.isAbsent = false := by
  rw [givenBlock?, Option.bind_eq_some_iff]
  constructor
  · rintro ⟨value, hvalue, hpresent⟩
    unfold Value.toOption at hpresent
    split at hpresent
    next => cases hpresent
    next hthere =>
      obtain rfl := Option.some.inj hpresent
      exact ⟨hvalue, by simpa using hthere⟩
  · rintro ⟨hvalue, hthere⟩
    exact ⟨raw, hvalue, by simp [Value.toOption, hthere]⟩

section Closing

variable {ordinal parent name : String} {kind : FieldKind} {tag : Value} {type : FieldType}
  {options : List Value} {members : Record Value}

theorem readTuple_of_plain (hnamed : Text.isBlankText name = false) (htyped : type.IsMeantBy tag)
    (hgiven : givenOptions? options = some members) (hplain : givenBlock? members = none) :
    readTuple ordinal parent (.text kind.name :: .text name :: tag :: options) =
      closeField kind name (joinPath parent name) type (members.erase "fields") none := by
  have hnone : readInner (joinPath parent name) members = .ok none := by
    rw [readInner_eq]
    rw [givenBlock?] at hplain
    cases hfields : members.get? "fields" with
    | none => rfl
    | some raw =>
        rw [hfields] at hplain
        cases raw with
        | absent => rfl
        | _ => cases hplain
  rw [readTuple_of_field hnamed htyped hgiven, hnone]
  rfl

theorem readTuple_of_block (hnamed : Text.isBlankText name = false) (htyped : type.IsMeantBy tag)
    (hgiven : givenOptions? options = some members) {raw : Value}
    (hblock : givenBlock? members = some raw) :
    readTuple ordinal parent (.text kind.name :: .text name :: tag :: options) =
      readBlock (joinPath parent name) raw >>= fun inner =>
        closeField kind name (joinPath parent name) type (members.erase "fields") (some inner) := by
  obtain ⟨hfields, hthere⟩ := givenBlock?_eq_some_iff.mp hblock
  rw [readTuple_of_field hnamed htyped hgiven, readInner_eq, hfields]
  simp only [hthere]
  cases readBlock (joinPath parent name) raw <;> rfl

end Closing

theorem sizeOf_lt_of_givenBlock {options : List Value} {members : Record Value} {raw : Value}
    (hgiven : givenOptions? options = some members) (hblock : givenBlock? members = some raw) :
    sizeOf raw < sizeOf options := by
  have hmember := List.sizeOf_lt_of_mem
    (Record.mem_of_get? (givenBlock?_eq_some_iff.mp hblock).1)
  unfold givenOptions? at hgiven
  split at hgiven
  next =>
    obtain rfl := Option.some.inj hgiven
    cases hblock
  next =>
    obtain rfl := Option.some.inj hgiven
    cases hblock
  next =>
    obtain rfl := Option.some.inj hgiven
    simp only [Prod.mk.sizeOf_spec, Value.object.sizeOf_spec, List.cons.sizeOf_spec] at hmember ⊢
    omega
  next => cases hgiven

theorem allowsBlock_iff {type : FieldType} :
    allowsBlock type = true ↔ type = .scalar .object ∨ type = .array .object := by
  unfold allowsBlock
  split <;> simp_all

/-- What closes a field are the three checks of its block and its options. -/
theorem closeField_eq_ok_iff {kind : FieldKind} {name path : String} {type : FieldType}
    {members : Record Value} {block : Option (List Declaration)} {d : Declaration} :
    closeField kind name path type (members.erase "fields") block = .ok d ↔
      (block.isSome = true → type = .scalar .object ∨ type = .array .object) ∧
        (type = .array .object → block.isSome = true) ∧
        (type = .scalar .enumeration →
          ((members.get? "values").bind Value.toOption).isSome = true) ∧
        d = block.elim (.field ⟨kind, name, type, members.erase "fields"⟩)
          (.block ⟨kind, name, type, members.erase "fields"⟩) := by
  have hvalues : (((members.erase "fields").get? "values").getD .absent).isAbsent = true ↔
      ¬((members.get? "values").bind Value.toOption).isSome = true := by
    rw [Record.get?_erase, if_neg (by decide)]
    cases members.get? "values" with
    | none => simp [Value.isAbsent]
    | some value => cases value <;> simp [Value.isAbsent, Value.toOption]
  unfold closeField
  split
  next hplaced =>
    obtain ⟨hsome, hnot⟩ : block.isSome = true ∧ ¬allowsBlock type = true := by
      simpa using hplaced
    refine iff_of_false Outcome.malformed_ne_ok fun h => hnot ?_
    exact allowsBlock_iff.mpr (h.1 hsome)
  next hplaced =>
    have hallowed : block.isSome = true → allowsBlock type = true := by simpa using hplaced
    split
    next hneeded =>
      obtain ⟨htype, hnone⟩ : type = .array .object ∧ block = none := by simpa using hneeded
      exact iff_of_false Outcome.malformed_ne_ok fun h => by simpa [hnone] using h.2.1 htype
    next hneeded =>
      have hneeded : type = .array .object → block.isSome = true := by
        intro htype
        simpa [htype, Option.isSome_iff_ne_none] using hneeded
      split
      next hlisted =>
        obtain ⟨htype, habsent⟩ := by simpa only [Bool.and_eq_true, decide_eq_true_eq] using hlisted
        exact iff_of_false Outcome.malformed_ne_ok fun h => hvalues.mp habsent (h.2.2.1 htype)
      next hlisted =>
        have hlisted : type = .scalar .enumeration →
            ((members.get? "values").bind Value.toOption).isSome = true := by
          intro htype
          by_contra hnone
          exact hlisted (by simp [htype, hvalues.mpr hnone])
        constructor
        · intro h
          refine ⟨fun hsome => allowsBlock_iff.mp (hallowed hsome), hneeded, hlisted, ?_⟩
          cases block <;> exact (Except.ok.inj h).symm
        · rintro ⟨_, _, _, rfl⟩
          cases block <;> rfl

/-! ## Reading accepts the grammar only -/

theorem name_of_standsFor {entry : Value} {d : Declaration} (h : entry.StandsFor d) :
    d.name = entry.declaredName := by
  cases h <;> rfl

theorem names_of_standFor {entries : List Value} {block : List Declaration}
    (h : List.Forall₂ Value.StandsFor entries block) :
    block.map Declaration.name = entries.map Value.declaredName := by
  induction h with
  | nil => rfl
  | cons hentry _ ih => rw [List.map_cons, List.map_cons, ih, name_of_standsFor hentry]

mutual

/-- What reads as a list of declarations is in the grammar, and its entries stand for the
declarations that were read. -/
theorem readBlock_sound (parent : String) (raw : Value) {block : List Declaration}
    (h : readBlock parent raw = .ok block) :
    raw.IsDeclarationList ∧ ∃ entries, raw = .list entries ∧
      List.Forall₂ Value.StandsFor entries block := by
  have hnodup := (readBlock_isWellFormed parent raw h).nodup_names
  cases raw with
  | list entries =>
      rw [readBlock] at h
      obtain ⟨heach, hstand⟩ := readEntries_sound parent 0 [] entries h
      rw [names_of_standFor hstand] at hnodup
      exact ⟨.list heach hnodup, entries, rfl, hstand⟩
  | _ => exact absurd h Outcome.malformed_ne_ok
termination_by sizeOf raw

theorem readEntries_sound (parent : String) (count : Nat) (seen : List String)
    (entries : List Value) {block : List Declaration}
    (h : readEntries parent count seen entries = .ok block) :
    (∀ entry ∈ entries, entry.IsDeclaration) ∧
      List.Forall₂ Value.StandsFor entries block := by
  cases entries with
  | nil =>
      obtain rfl := Except.ok.inj h
      exact ⟨by simp, .nil⟩
  | cons entry rest =>
      rw [readEntries] at h
      obtain ⟨d, hd, h⟩ := Outcome.bind_eq_ok.mp h
      split at h
      next => exact absurd h Outcome.malformed_ne_ok
      next =>
        obtain ⟨others, hothers, h⟩ := Outcome.bind_eq_ok.mp h
        obtain rfl := Outcome.pure_eq_ok.mp h
        obtain ⟨hentry, hstands⟩ := readOne_sound _ parent entry hd
        obtain ⟨heach, hstand⟩ := readEntries_sound parent _ _ rest hothers
        exact ⟨List.forall_mem_cons.mpr ⟨hentry, heach⟩, .cons hstands hstand⟩
termination_by sizeOf entries

theorem readOne_sound (ordinal parent : String) (entry : Value) {d : Declaration}
    (h : readOne ordinal parent entry = .ok d) : entry.IsDeclaration ∧ entry.StandsFor d := by
  cases entry with
  | list parts => exact readTuple_sound ordinal parent parts h
  | _ => exact absurd h Outcome.malformed_ne_ok
termination_by sizeOf entry

theorem readTuple_sound (ordinal parent : String) (parts : List Value) {d : Declaration}
    (h : readTuple ordinal parent parts = .ok d) :
    (Value.list parts).IsDeclaration ∧ (Value.list parts).StandsFor d := by
  have hread := h
  rw [readTuple] at hread
  obtain ⟨opening, hopening, hread⟩ := Outcome.bind_eq_ok.mp hread
  rcases openTuple_parts hopening with
    ⟨kind, name, tag, type, options, hparts, hnamed, htyped, hfew, rfl⟩ |
    ⟨kind, name, reference, target, rfl, hnamed, hrefers, rfl⟩
  · rw [hparts] at h ⊢
    obtain ⟨members, hgiven⟩ := givenOptions_of_readTuple hnamed htyped hfew h
    cases hblock : givenBlock? members with
    | none =>
        rw [readTuple_of_plain hnamed htyped hgiven hblock] at h
        obtain ⟨-, hneeded, hlisted, rfl⟩ := closeField_eq_ok_iff.mp h
        refine ⟨.field hnamed htyped hgiven ?_ ?_ ?_ hlisted, .field htyped hgiven hblock⟩
        · simp [hblock]
        · simp [hblock]
        · simpa [hblock] using hneeded
    | some raw =>
        rw [readTuple_of_block hnamed htyped hgiven hblock] at h
        obtain ⟨inner, hinner, h⟩ := Outcome.bind_eq_ok.mp h
        obtain ⟨hallowed, -, hlisted, rfl⟩ := closeField_eq_ok_iff.mp h
        have hsmaller : sizeOf raw < sizeOf parts := by
          have hoptions := sizeOf_lt_of_givenBlock hgiven hblock
          simp only [hparts, List.cons.sizeOf_spec]
          omega
        obtain ⟨hlist, entries, rfl, hstand⟩ := readBlock_sound _ raw hinner
        refine ⟨.field hnamed htyped hgiven ?_ ?_ ?_ hlisted, .block htyped hgiven hblock hstand⟩
        · intro other hother
          obtain rfl := Option.some.inj (hblock.symm.trans hother)
          exact hlist
        · exact fun _ => hallowed rfl
        · simp [hblock]
  · obtain rfl := Outcome.pure_eq_ok.mp hread
    exact ⟨.embed hnamed hrefers, .embed hrefers⟩
termination_by sizeOf parts

end

/-! ## Reading accepts the whole grammar -/

mutual

theorem readBlock_complete (parent : String) (raw : Value) (h : raw.IsDeclarationList) :
    ∃ block, readBlock parent raw = .ok block := by
  cases h with
  | @list entries heach hdistinct =>
      rw [readBlock]
      exact readEntries_complete parent 0 [] entries heach hdistinct (by simp)
termination_by sizeOf raw

/-- Entries are read after others whose names do not come back. -/
theorem readEntries_complete (parent : String) (count : Nat) (seen : List String)
    (entries : List Value) (heach : ∀ entry ∈ entries, entry.IsDeclaration)
    (hdistinct : (entries.map Value.declaredName).Nodup)
    (hfresh : ∀ entry ∈ entries, entry.declaredName ∉ seen) :
    ∃ block, readEntries parent count seen entries = .ok block := by
  cases entries with
  | nil => exact ⟨[], rfl⟩
  | cons entry rest =>
      obtain ⟨hentry, hrest⟩ := List.forall_mem_cons.mp heach
      obtain ⟨hnew, hothers⟩ := List.nodup_cons.mp hdistinct
      obtain ⟨hunseen, hlater⟩ := List.forall_mem_cons.mp hfresh
      obtain ⟨d, hd⟩ := readOne_complete (toString (count + 1)) parent entry hentry
      have hname := name_of_standsFor (readOne_sound _ parent entry hd).2
      obtain ⟨block, hblock⟩ := readEntries_complete parent (count + 1) (d.name :: seen) rest hrest
        hothers (by
          intro other hother hseen
          rcases List.mem_cons.mp hseen with heq | hseen
          · exact hnew (hname ▸ heq ▸ List.mem_map_of_mem hother)
          · exact hlater other hother hseen)
      refine ⟨d :: block, ?_⟩
      rw [readEntries, hd]
      change (if d.name ∈ seen then _ else _) = _
      rw [if_neg (hname ▸ hunseen), hblock]
      rfl
termination_by sizeOf entries

theorem readOne_complete (ordinal parent : String) (entry : Value) (h : entry.IsDeclaration) :
    ∃ d, readOne ordinal parent entry = .ok d := by
  cases h with
  | @field kind name tag type options members hnamed htyped hgiven hinner hallowed hneeded hlisted =>
      rw [readOne]
      cases hblock : givenBlock? members with
      | none =>
          rw [readTuple_of_plain hnamed htyped hgiven hblock]
          refine ⟨_, closeField_eq_ok_iff.mpr ⟨by simp, ?_, hlisted, rfl⟩⟩
          simpa [hblock] using hneeded
      | some raw =>
          have hsmaller := sizeOf_lt_of_givenBlock hgiven hblock
          obtain ⟨block, hread⟩ := readBlock_complete (joinPath parent name) raw
            (hinner raw hblock)
          rw [readTuple_of_block hnamed htyped hgiven hblock, hread]
          refine ⟨_, closeField_eq_ok_iff.mpr ⟨fun _ => hallowed ?_, by simp, hlisted, rfl⟩⟩
          simp [hblock]
  | @embed kind name target reference hnamed hrefers =>
      refine ⟨.embed kind name target, ?_⟩
      rw [readOne, readTuple, openTuple_of_embed hnamed hrefers]
      rfl
termination_by sizeOf entry

end

/-- Below every parent reading succeeds on exactly the values of the grammar. The declarations that
it returns are those that the entries stand for, one to one and in order. -/
theorem readBlock_grammar (parent : String) (raw : Value) :
    ((∃ block, readBlock parent raw = .ok block) ↔ raw.IsDeclarationList) ∧
      ∀ block, readBlock parent raw = .ok block →
        ∃ entries, raw = .list entries ∧ List.Forall₂ Value.StandsFor entries block := by
  refine ⟨⟨?_, readBlock_complete parent raw⟩, fun block h => (readBlock_sound parent raw h).2⟩
  rintro ⟨block, h⟩
  exact (readBlock_sound parent raw h).1

/-- A shipment as it is declared: another spelling of two types, options given as absent, an inline
block with an option beside it, and an embed. -/
def shipment : Value :=
  .list [
    .list [.text "required", .text "sent_at", .text "naive_datetime", .absent],
    .list [.text "optional", .text "parcels", .list [.text "array", .text "map"],
      .object false [
        ("title", .text "Parcels"),
        ("fields", .list [.list [.text "required", .text "weight", .text "decimal"]])]],
    .list [.text "embeds_one", .text "sender", .text "Address"]]

/-- The declarations that a shipment stands for. -/
def shipmentBlock : List Declaration :=
  [.field ⟨.required, "sent_at", .scalar .datetime, []⟩,
    .block ⟨.optional, "parcels", .array .object, [("title", .text "Parcels")]⟩
      [.field ⟨.required, "weight", .scalar .decimal, []⟩],
    .embed .one "sender" "Address"]

theorem shipment_grammar :
    readBlock "" shipment = .ok shipmentBlock ∧ shipment.IsDeclarationList ∧
      ∃ entries, shipment = .list entries ∧ List.Forall₂ Value.StandsFor entries shipmentBlock :=
  have hread : readBlock "" shipment = .ok shipmentBlock := by rfl
  ⟨hread, (readBlock_grammar "" shipment).1.mp ⟨_, hread⟩,
    (readBlock_grammar "" shipment).2 _ hread⟩

end Declaration

end FieldSchema
