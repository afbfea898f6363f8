import FieldSchema.Declaration.Builder
import FieldSchema.Proofs.Containment
import FieldSchema.Proofs.Grammar

/-!
# Rebuilding declarations

The builders write declarations as raw declarations. Reading these gives the declarations back,
provided that they have the form of what has been read and that no embed refers to a blank name;
such a name can only be given by a compiled schema, and the builders give names.
-/

namespace FieldSchema

theorem FieldKind.name_ne (kind : FieldKind) (other : EmbedKind) : kind.name ≠ other.name := by
  cases kind <;> cases other <;> decide

namespace Declaration

/-- Declarations that the builders can write: they have the form of what has been read, and every
embedded schema has a name that is not blank. -/
structure CanBeRebuilt (block : List Declaration) : Prop where
  wellFormed : BlockIsWellFormed block
  named : ∀ reference ∈ blockReferences block, Text.isBlankText reference = false

theorem canBeRebuilt_cons_iff {d : Declaration} {rest : List Declaration} :
    CanBeRebuilt (d :: rest) ↔
      (d.IsWellFormed ∧ ∀ reference ∈ d.references, Text.isBlankText reference = false) ∧
        d.name ∉ rest.map Declaration.name ∧ CanBeRebuilt rest := by
  constructor
  · rintro ⟨⟨hd, hfresh, hrest⟩, hnamed⟩
    obtain ⟨hown, hlater⟩ := List.forall_mem_append.mp hnamed
    exact ⟨⟨hd, hown⟩, hfresh, hrest, hlater⟩
  · rintro ⟨⟨hd, hown⟩, hfresh, hrest, hlater⟩
    exact ⟨⟨hd, hfresh, hrest⟩, List.forall_mem_append.mpr ⟨hown, hlater⟩⟩

/-! ## Raw forms -/

theorem isMeantBy_rawType (type : FieldType) : type.IsMeantBy (rawType type) := by
  cases type with
  | scalar type => exact .scalar (.inl rfl)
  | array element => exact .array (.inl rfl)

theorem rawField_object (kind : FieldKind) (name type : Value) (options : Record Value) :
    rawField kind name type (.object false options) =
      .list [.text kind.name, name, type, .object false options] :=
  rfl

section Options

variable {options : Record Value} (hoptions : options.has "fields" = false)
include hoptions

theorem erase_fields : options.erase "fields" = options :=
  Record.erase_of_get?_eq_none (by simpa [Record.has] using hoptions)

theorem givenBlock?_eq_none : givenBlock? options = none := by
  have hnone : options.get? "fields" = none := by simpa [Record.has] using hoptions
  rw [givenBlock?, hnone]
  rfl

/-- The inline block is taken out of the options as it was put in. -/
theorem erase_set_fields (raw : Value) : (options.set "fields" raw).erase "fields" = options := by
  have hindex : arrayIndex? "fields" = none := by decide
  have hset : options.set "fields" raw = options ++ [("fields", raw)] := by
    simp [Record.set, hoptions, Record.insertNew, hindex]
  rw [hset, Record.erase_append, erase_fields hoptions]
  simp [Record.erase]

end Options

theorem givenBlock?_set (options : Record Value) (entries : List Value) :
    givenBlock? (options.set "fields" (.list entries)) = some (.list entries) := by
  rw [givenBlock?, Record.get?_set, if_pos rfl]
  rfl

theorem isSome_given_iff {given : Option Value} :
    (given.bind Value.toOption).isSome = true ↔ (given.getD .absent).isAbsent = false := by
  cases given with
  | none => simp [Value.isAbsent]
  | some value => cases value <;> simp [Value.isAbsent, Value.toOption]

/-! ## Reading raw forms -/

mutual

/-- Entries are read after others whose names do not come back. -/
theorem readEntries_blockToRaw (parent : String) (count : Nat) (seen : List String)
    (block : List Declaration) (h : CanBeRebuilt block) (hfresh : ∀ d ∈ block, d.name ∉ seen) :
    readEntries parent count seen (blockToRaw block) = .ok block := by
  cases block with
  | nil => rfl
  | cons d rest =>
      obtain ⟨⟨hd, hnamed⟩, hnew, hrest⟩ := canBeRebuilt_cons_iff.mp h
      obtain ⟨hunseen, hlater⟩ := List.forall_mem_cons.mp hfresh
      have hread := readEntries_blockToRaw parent (count + 1) (d.name :: seen) rest hrest (by
        intro other hother hseen
        rcases List.mem_cons.mp hseen with heq | hseen
        · exact hnew (heq ▸ List.mem_map_of_mem hother)
        · exact hlater other hother hseen)
      rw [blockToRaw, readEntries, readOne_toRaw _ parent d hd hnamed]
      change (if d.name ∈ seen then _ else _) = _
      rw [if_neg hunseen, hread]
      rfl
termination_by sizeOf block

theorem readOne_toRaw (ordinal parent : String) (d : Declaration) (h : d.IsWellFormed)
    (hnamed : ∀ reference ∈ d.references, Text.isBlankText reference = false) :
    readOne ordinal parent d.toRaw = .ok d := by
  cases d with
  | field head =>
      obtain ⟨hhead, htype⟩ := h
      have hplain := givenBlock?_eq_none hhead.withoutBlock
      rw [toRaw, rawField_object, readOne,
        readTuple_of_plain hhead.named (isMeantBy_rawType head.type) rfl hplain]
      refine closeField_eq_ok_iff.mpr ⟨by simp, fun h => absurd h htype, ?_, ?_⟩
      · exact fun htype => isSome_given_iff.mpr (hhead.choiceListed htype)
      · rw [erase_fields hhead.withoutBlock]
        rfl
  | block head inner =>
      obtain ⟨hhead, hallowed, hinner⟩ := h
      have hblock := givenBlock?_set head.options (blockToRaw inner)
      rw [toRaw, rawField_object, readOne,
        readTuple_of_block hhead.named (isMeantBy_rawType head.type) rfl hblock, readBlock,
        readEntries_blockToRaw _ 0 [] inner ⟨hinner, hnamed⟩ (by simp)]
      refine closeField_eq_ok_iff.mpr ⟨fun _ => ?_, by simp, fun htype => ?_, ?_⟩
      · exact allowsBlock_iff.mp hallowed
      · rw [Record.get?_set, if_neg (by decide)]
        exact isSome_given_iff.mpr (hhead.choiceListed htype)
      · rw [erase_set_fields hhead.withoutBlock]
        rfl
  | embed kind name reference =>
      have hrefers : (Value.text reference).RefersTo reference :=
        .name (hnamed reference (by simp [references]))
      rw [toRaw, rawEmbed, readOne, readTuple, openTuple_of_embed h.1 hrefers]
      rfl
termination_by sizeOf d

end

/-! ## What reading raw forms needs -/

mutual

/-- Only names that are not blank can be written as references. -/
theorem named_of_isDeclaration_toRaw (d : Declaration) (h : d.toRaw.IsDeclaration) :
    ∀ reference ∈ d.references, Text.isBlankText reference = false := by
  generalize hraw : d.toRaw = raw at h
  cases d with
  | field head => simp [references]
  | block head inner =>
      rw [toRaw, rawField_object] at hraw
      cases h with
      | field _ _ hgiven hinner =>
          simp only [Value.list.injEq, List.cons.injEq] at hraw
          obtain ⟨-, -, -, rfl⟩ := hraw
          obtain rfl := Option.some.inj hgiven
          have hlist := hinner _ (givenBlock?_set head.options (blockToRaw inner))
          exact named_of_isDeclarationList_blockToRaw inner hlist
      | embed => simp at hraw
  | embed kind name reference =>
      rw [toRaw, rawEmbed] at hraw
      cases h with
      | @field other =>
          simp only [Value.list.injEq, List.cons.injEq, Value.text.injEq] at hraw
          exact absurd hraw.1.symm (FieldKind.name_ne other kind)
      | embed _ hrefers =>
          simp only [Value.list.injEq, List.cons.injEq] at hraw
          obtain ⟨-, -, rfl, -⟩ := hraw
          cases hrefers with
          | name hblank => simpa [references] using hblank
termination_by sizeOf d

theorem named_of_isDeclarationList_blockToRaw (block : List Declaration)
    (h : (Value.list (blockToRaw block)).IsDeclarationList) :
    ∀ reference ∈ blockReferences block, Text.isBlankText reference = false := by
  cases block with
  | nil => simp [blockReferences]
  | cons d rest =>
      rw [blockToRaw] at h
      cases h with
      | list heach hdistinct =>
          obtain ⟨hd, hrest⟩ := List.forall_mem_cons.mp heach
          have hlater := Value.IsDeclarationList.list hrest (List.nodup_cons.mp hdistinct).2
          exact List.forall_mem_append.mpr ⟨named_of_isDeclaration_toRaw d hd,
            named_of_isDeclarationList_blockToRaw rest hlater⟩
termination_by sizeOf block

end

/-- Written by the builders, declarations are read as themselves exactly when they have the form of
what has been read and refer to no blank name. So what has been read without such a reference is
read again, below any parent, when it has been rebuilt. -/
theorem readBlock_rebuilt (parent : String) (block : List Declaration) :
    (readBlock parent (.list (blockToRaw block)) = .ok block ↔ CanBeRebuilt block) ∧
      ∀ other raw, readBlock other raw = .ok block →
        (∀ reference ∈ blockReferences block, Text.isBlankText reference = false) →
          readBlock parent (.list (blockToRaw block)) = .ok block := by
  have hread (h : CanBeRebuilt block) : readBlock parent (.list (blockToRaw block)) = .ok block := by
    rw [readBlock]
    exact readEntries_blockToRaw parent 0 [] block h (by simp)
  refine ⟨⟨fun h => ⟨readBlock_isWellFormed parent _ h, ?_⟩, hread⟩, ?_⟩
  · exact named_of_isDeclarationList_blockToRaw block (readBlock_sound parent _ h).1
  · exact fun other raw h hnamed => hread ⟨readBlock_isWellFormed other raw h, hnamed⟩

/-- An invoice as it is declared: another spelling of two types, options given as absent, a choice in
an inline block with an option beside it, an empty block, and an embed by a compiled schema. -/
def invoice : Value :=
  .list [
    .list [.text "required", .text "issued", .text "utc_datetime", .absent],
    .list [.text "optional", .text "lines", .list [.text "array", .text "map"],
      .object false [
        ("fields", .list [
          .list [.text "required", .text "unit", .text "enum",
            .object false [("values", .list [.text "hour", .text "piece"])]]]),
        ("title", .text "Lines")]],
    .list [.text "field", .text "notes", .text "map", .object false [("fields", .list [])]],
    .list [.text "embeds_many", .text "payers", .object false [("name", .text "Person")]]]

/-- The declarations of an invoice. -/
def invoiceBlock : List Declaration :=
  [.field ⟨.required, "issued", .scalar .datetime, []⟩,
    .block ⟨.optional, "lines", .array .object, [("title", .text "Lines")]⟩
      [.field ⟨.required, "unit", .scalar .enumeration,
        [("values", .list [.text "hour", .text "piece"])]⟩],
    .block ⟨.field, "notes", .scalar .object, []⟩ [],
    .embed .many "payers" "Person"]

theorem invoice_rebuilt :
    readBlock "" invoice = .ok invoiceBlock ∧
      (∀ reference ∈ blockReferences invoiceBlock, Text.isBlankText reference = false) ∧
      readBlock "order" (.list (blockToRaw invoiceBlock)) = .ok invoiceBlock ∧
      CanBeRebuilt invoiceBlock := by
  have hread : readBlock "" invoice = .ok invoiceBlock := by rfl
  have hnamed : ∀ reference ∈ blockReferences invoiceBlock, Text.isBlankText reference = false := by
    decide
  have hagain := (readBlock_rebuilt "order" invoiceBlock).2 "" invoice hread hnamed
  exact ⟨hread, hnamed, hagain, (readBlock_rebuilt "order" invoiceBlock).1.mp hagain⟩

end Declaration

end FieldSchema
