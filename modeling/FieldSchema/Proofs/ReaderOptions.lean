import FieldSchema.Proofs.RuleOptions
import FieldSchema.Proofs.WritingOut

/-!
# Options for readers

When two compilations differ in options for readers only, in raw declarations at any depth, in
overrides and in type defaults, and when the schemas that they embed have the same descriptors, then
the compiled descriptors are equal and every input has the same verdict.
-/

namespace FieldSchema

namespace Declaration

/-- The option members that a raw field declaration gives after the field's type. -/
def givenOptions? : List Value → Option (Record Value)
  | [] => some []
  | [.absent] => some []
  | [.object _ members] => some members
  | _ => none

end Declaration

mutual

/-- Two raw lists of declarations differ at most in options for readers. -/
inductive Value.SameForChecks : Value → Value → Prop
  | refl (raw : Value) : SameForChecks raw raw
  | list {entries others : List Value} (h : List.Forall₂ Value.EntrySameForChecks entries others) :
      SameForChecks (.list entries) (.list others)

/-- Two raw declarations differ at most in options for readers, which may also be all the options
that there are. -/
inductive Value.EntrySameForChecks : Value → Value → Prop
  | refl (entry : Value) : EntrySameForChecks entry entry
  | field {kind name type : Value} {options others : List Value}
      {members otherMembers : Record Value}
      (hoptions : Declaration.givenOptions? options = some members)
      (hothers : Declaration.givenOptions? others = some otherMembers)
      (hchecked : ∀ key : OptionKey, key.isForReaders = false →
        otherMembers.get? key.name = members.get? key.name)
      (hfields : Option.Rel Value.SameForChecks (members.get? "fields")
        (otherMembers.get? "fields")) :
      EntrySameForChecks (.list (kind :: name :: type :: options))
        (.list (kind :: name :: type :: others))

end

/-! ## Reading -/

/-- The known options among named entries answer as the entries do. -/
theorem OptionSet.lookup_ofEntries (entries : Record Value) (key : OptionKey) :
    List.lookup key (ofEntries entries) = entries.get? key.name := by
  have hlookup (keys : List OptionKey) :
      List.lookup key (keys.filterMap fun other => (entries.get? other.name).map (other, ·)) =
        if key ∈ keys then entries.get? key.name else none := by
    induction keys with
    | nil => rfl
    | cons first rest ih =>
        rw [List.filterMap_cons]
        by_cases hfirst : key = first
        · subst hfirst
          cases hget : entries.get? key.name with
          | none => simp [ih, hget]
          | some value => simp
        · have hne : (key == first) = false := by simp [hfirst]
          cases hget : entries.get? first.name with
          | none => simp [ih, hfirst]
          | some value => simp [List.lookup_cons, hne, ih, hfirst]
  rw [ofEntries, hlookup, if_pos key.mem_all]

theorem FieldHead.SameForChecks.refl (head : FieldHead) : head.SameForChecks head :=
  ⟨rfl, rfl, rfl, .refl _⟩

namespace Declaration

mutual

theorem SameForChecks.refl (d : Declaration) : d.SameForChecks d := by
  cases d with
  | field head => exact FieldHead.SameForChecks.refl head
  | block head inner => exact ⟨FieldHead.SameForChecks.refl head, BlockSameForChecks.refl inner⟩
  | embed kind name reference => rfl
termination_by sizeOf d

theorem BlockSameForChecks.refl (block : List Declaration) : BlockSameForChecks block block := by
  cases block with
  | nil => rfl
  | cons d rest => exact ⟨SameForChecks.refl d, BlockSameForChecks.refl rest⟩
termination_by sizeOf block

end

theorem SameForChecks.name_eq {d other : Declaration} (h : d.SameForChecks other) :
    other.name = d.name := by
  cases d with
  | field head =>
      cases other with
      | field otherHead => exact FieldHead.SameForChecks.name h
      | _ => exact h.elim
  | block head inner =>
      cases other with
      | block otherHead others => exact FieldHead.SameForChecks.name h.1
      | _ => exact h.elim
  | embed kind name reference =>
      obtain rfl : other = .embed kind name reference := h
      rfl

/-- What a raw declaration opens with depends on what stands before its options. -/
theorem openTuple_unique {ordinal parent : String} {kind name type : Value}
    {options others : List Value} {opening otherOpening : Opening}
    (h : openTuple ordinal parent (kind :: name :: type :: options) = .ok opening)
    (hother : openTuple ordinal parent (kind :: name :: type :: others) = .ok otherOpening) :
    otherOpening = opening := by
  have hfield {fieldKind : FieldKind} {word path : String}
      (h : openField fieldKind word path (kind :: name :: type :: options) = .ok opening)
      (hother : openField fieldKind word path (kind :: name :: type :: others) =
        .ok otherOpening) : otherOpening = opening := by
    unfold openField at h hother
    split at h
    next => exact absurd h Outcome.malformed_ne_ok
    next =>
      split at h
      next => exact absurd h Outcome.malformed_ne_ok
      next =>
        split at hother
        next => exact absurd hother Outcome.malformed_ne_ok
        next =>
          split at hother
          next => exact absurd hother Outcome.malformed_ne_ok
          next => exact Except.ok.inj (hother.symm.trans h)
  have hembed {embedKind : EmbedKind} {word path : String}
      (h : openEmbed embedKind word path (kind :: name :: type :: options) = .ok opening)
      (hother : openEmbed embedKind word path (kind :: name :: type :: others) =
        .ok otherOpening) : otherOpening = opening := by
    unfold openEmbed at h hother
    split at h
    next => exact absurd h Outcome.malformed_ne_ok
    next =>
      split at hother
      next => exact absurd hother Outcome.malformed_ne_ok
      next => exact Except.ok.inj (hother.symm.trans h)
  unfold openTuple at h hother
  simp only [List.getD_cons_zero, List.getD_cons_succ] at h hother
  split at h
  next =>
    split at h
    next => exact absurd h Outcome.malformed_ne_ok
    next hblank =>
      simp only [if_neg hblank] at hother
      split at h
      next hword =>
        simp only [hword] at hother
        exact hfield h hother
      next hword hembedWord =>
        simp only [hword, hembedWord] at hother
        exact hembed h hother
      next =>
        obtain ⟨_, _, h⟩ := Outcome.bind_eq_ok.mp h
        exact absurd h Outcome.malformed_ne_ok
  next => exact absurd h Outcome.malformed_ne_ok

/-- Whether options are left out, given as absent or given as an object, they are read from their
members. -/
theorem readTuple_of_givenOptions {ordinal parent : String} {kind name type : Value}
    {options : List Value} {members : Record Value} {d : Declaration}
    (hgiven : givenOptions? options = some members)
    (h : readTuple ordinal parent (kind :: name :: type :: options) = .ok d) :
    ∃ opening, openTuple ordinal parent (kind :: name :: type :: options) = .ok opening ∧
      ((∃ embedKind word reference, opening = .embed embedKind word reference ∧
          d = .embed embedKind word reference) ∨
        ∃ fieldKind word fieldType block, opening = .field fieldKind word fieldType ∧
          readInner (joinPath parent word) members = .ok block ∧
          closeField fieldKind word (joinPath parent word) fieldType
            (Record.erase members "fields") block = .ok d) := by
  rw [readTuple] at h
  obtain ⟨opening, hopening, h⟩ := Outcome.bind_eq_ok.mp h
  refine ⟨opening, hopening, ?_⟩
  cases opening with
  | embed embedKind word reference =>
      exact .inl ⟨embedKind, word, reference, rfl, (Outcome.pure_eq_ok.mp h).symm⟩
  | field fieldKind word fieldType =>
      refine .inr ⟨fieldKind, word, fieldType, ?_⟩
      unfold givenOptions? at hgiven
      split at hgiven
      next =>
        obtain rfl := Option.some.inj hgiven
        exact ⟨none, rfl, rfl, h⟩
      next =>
        obtain rfl := Option.some.inj hgiven
        exact ⟨none, rfl, rfl, h⟩
      next =>
        obtain rfl := Option.some.inj hgiven
        obtain ⟨block, hblock, h⟩ := Outcome.bind_eq_ok.mp h
        exact ⟨block, rfl, hblock, h⟩
      next => cases hgiven

/-- The inline block among a field's options is the one that is listed first. -/
theorem readInner_eq (path : String) (members : Record Value) :
    readInner path members =
      match members.get? "fields" with
      | none => .ok none
      | some raw =>
          if raw.isAbsent then .ok none else do return some (← readBlock path raw) := by
  induction members with
  | nil => rfl
  | cons member rest ih =>
      obtain ⟨name, value⟩ := member
      rw [readInner, Record.get?_cons]
      by_cases hname : name = "fields"
      · subst hname
        simp
      · have hne : "fields" ≠ name := Ne.symm hname
        simp [hname, hne, ih]

/-- A field that is closed over options which differ in those for readers is the same for checks. -/
theorem closeField_sameForChecks {kind : FieldKind} {name path : String} {type : FieldType}
    {members others : Record Value} {block otherBlock : Option (List Declaration)}
    {d other : Declaration}
    (hchecked : ∀ key : OptionKey, key.isForReaders = false →
      others.get? key.name = members.get? key.name)
    (hblock : Option.Rel BlockSameForChecks block otherBlock)
    (h : closeField kind name path type (Record.erase members "fields") block = .ok d)
    (hother : closeField kind name path type (Record.erase others "fields") otherBlock = .ok other) :
    d.SameForChecks other := by
  have hhead : FieldHead.SameForChecks ⟨kind, name, type, Record.erase members "fields"⟩
      ⟨kind, name, type, Record.erase others "fields"⟩ := by
    refine ⟨rfl, rfl, rfl, ?_⟩
    intro key hkey
    have hne : key.name ≠ "fields" := by cases key <;> decide
    rw [OptionSet.lookup_ofEntries, OptionSet.lookup_ofEntries, Record.get?_erase,
      Record.get?_erase, if_neg hne, if_neg hne, hchecked key hkey]
  obtain ⟨rfl, -⟩ := closeField_eq_ok h
  obtain ⟨rfl, -⟩ := closeField_eq_ok hother
  cases hblock with
  | none => exact hhead
  | some hinner => exact ⟨hhead, hinner⟩

theorem sizeOf_lt_of_givenOptions {kind name type value : Value} {options : List Value}
    {members : Record Value} (hgiven : givenOptions? options = some members) {key : String}
    (hvalue : members.get? key = some value) :
    sizeOf value < sizeOf (Value.list (kind :: name :: type :: options)) := by
  have hmember := List.sizeOf_lt_of_mem (Record.mem_of_get? hvalue)
  unfold givenOptions? at hgiven
  split at hgiven
  next =>
    obtain rfl := Option.some.inj hgiven
    cases hvalue
  next =>
    obtain rfl := Option.some.inj hgiven
    cases hvalue
  next =>
    obtain rfl := Option.some.inj hgiven
    simp only [Prod.mk.sizeOf_spec, Value.list.sizeOf_spec, Value.object.sizeOf_spec,
      List.cons.sizeOf_spec] at hmember ⊢
    omega
  next => cases hgiven

theorem isAbsent_of_sameForChecks {raw other : Value} (h : raw.SameForChecks other) :
    other.isAbsent = raw.isAbsent := by
  cases h <;> rfl

mutual

/-- Raw declarations that differ in options for readers are read as declarations that do so. -/
theorem readBlock_sameForChecks (parent : String) (raw : Value) {other : Value}
    (h : raw.SameForChecks other) {block otherBlock : List Declaration}
    (hblock : readBlock parent raw = .ok block) (hother : readBlock parent other = .ok otherBlock) :
    BlockSameForChecks block otherBlock := by
  cases h with
  | refl =>
      obtain rfl := Except.ok.inj (hblock.symm.trans hother)
      exact .refl block
  | @list entries others hentries =>
      exact readEntries_sameForChecks parent 0 [] entries hentries hblock hother
termination_by sizeOf raw

theorem readEntries_sameForChecks (parent : String) (count : Nat) (seen : List String)
    (entries : List Value) {others : List Value}
    (h : List.Forall₂ Value.EntrySameForChecks entries others) {block otherBlock : List Declaration}
    (hblock : readEntries parent count seen entries = .ok block)
    (hother : readEntries parent count seen others = .ok otherBlock) :
    BlockSameForChecks block otherBlock := by
  cases h with
  | nil =>
      obtain rfl := Except.ok.inj hblock
      obtain rfl := Except.ok.inj hother
      rfl
  | @cons entry otherEntry rest otherRest hentry hrest =>
      rw [readEntries] at hblock hother
      obtain ⟨d, hd, hblock⟩ := Outcome.bind_eq_ok.mp hblock
      obtain ⟨otherD, hotherD, hother⟩ := Outcome.bind_eq_ok.mp hother
      have hsame := readOne_sameForChecks _ parent entry hentry hd hotherD
      rw [hsame.name_eq] at hother
      split at hblock
      next => exact absurd hblock Outcome.malformed_ne_ok
      next hfresh =>
        rw [if_neg hfresh] at hother
        obtain ⟨later, hlater, hblock⟩ := Outcome.bind_eq_ok.mp hblock
        obtain rfl := Outcome.pure_eq_ok.mp hblock
        obtain ⟨otherLater, hotherLater, hother⟩ := Outcome.bind_eq_ok.mp hother
        obtain rfl := Outcome.pure_eq_ok.mp hother
        exact ⟨hsame, readEntries_sameForChecks parent _ _ rest hrest hlater hotherLater⟩
termination_by sizeOf entries

theorem readOne_sameForChecks (ordinal parent : String) (entry : Value) {otherEntry : Value}
    (h : entry.EntrySameForChecks otherEntry) {d other : Declaration}
    (hd : readOne ordinal parent entry = .ok d)
    (hother : readOne ordinal parent otherEntry = .ok other) : d.SameForChecks other := by
  cases h with
  | refl =>
      obtain rfl := Except.ok.inj (hd.symm.trans hother)
      exact .refl d
  | @field kind name type options others members otherMembers hoptions hothers hchecked hfields =>
      rw [readOne] at hd hother
      obtain ⟨opening, hopening, hd⟩ := readTuple_of_givenOptions hoptions hd
      obtain ⟨otherOpening, hotherOpening, hother⟩ := readTuple_of_givenOptions hothers hother
      obtain rfl := openTuple_unique hopening hotherOpening
      rcases hd with ⟨embedKind, word, reference, rfl, rfl⟩ |
        ⟨fieldKind, word, fieldType, block, rfl, hblock, hd⟩
      · rcases hother with ⟨_, _, _, heq, rfl⟩ | ⟨_, _, _, _, heq, _⟩
        · cases heq
          rfl
        · cases heq
      · rcases hother with ⟨_, _, _, heq, _⟩ | ⟨_, _, _, otherBlock, heq, hotherBlock, hother⟩
        · cases heq
        · cases heq
          refine closeField_sameForChecks hchecked ?_ hd hother
          rw [readInner_eq] at hblock hotherBlock
          generalize hraw : Record.get? members "fields" = x at hblock hfields
          generalize Record.get? otherMembers "fields" = y at hotherBlock hfields
          cases hfields with
          | none =>
              obtain rfl := Except.ok.inj hblock
              obtain rfl := Except.ok.inj hotherBlock
              exact .none
          | @some raw otherRaw hsame =>
              have hsmaller : sizeOf raw < sizeOf (Value.list (kind :: name :: type :: options)) :=
                sizeOf_lt_of_givenOptions hoptions hraw
              dsimp only at hblock hotherBlock
              rw [isAbsent_of_sameForChecks hsame] at hotherBlock
              split at hblock
              next habsent =>
                rw [if_pos habsent] at hotherBlock
                obtain rfl := Except.ok.inj hblock
                obtain rfl := Except.ok.inj hotherBlock
                exact .none
              next hpresent =>
                rw [if_neg hpresent] at hotherBlock
                obtain ⟨inner, hinner, hblock⟩ := Outcome.bind_eq_ok.mp hblock
                obtain rfl := Outcome.pure_eq_ok.mp hblock
                obtain ⟨otherInner, hotherInner, hotherBlock⟩ := Outcome.bind_eq_ok.mp hotherBlock
                obtain rfl := Outcome.pure_eq_ok.mp hotherBlock
                exact .some (readBlock_sameForChecks _ raw hsame hinner hotherInner)
termination_by sizeOf entry

end

end Declaration

namespace Schema

/-- Compilations that differ only in options for readers, in their names and in what the schemas
that they embed publish give one descriptor, and with it one verdict on every input. -/
theorem compile_sameForChecks {name otherName : String} {raw otherRaw : Value}
    {around other : Surroundings} {s t : Schema} {notices otherNotices : List Notice}
    (hraw : raw.SameForChecks otherRaw) (haround : around.SameForChecks other)
    (h : compile name raw around = .ok (s, notices))
    (hother : compile otherName otherRaw other = .ok (t, otherNotices)) :
    t.descriptor = s.descriptor ∧ ∀ input, t.descriptor.judge input = s.descriptor.judge input := by
  obtain ⟨declared, fields, hdeclared, hfields, rfl, -⟩ := compile_eq_ok.mp h
  obtain ⟨others, otherFields, hothers, hotherFields, rfl, -⟩ := compile_eq_ok.mp hother
  have hsame := Declaration.readBlock_sameForChecks "" raw hraw hdeclared hothers
  have hrules := Compilation.compileAll_rules_congr haround "" declared others hsame hfields
    hotherFields
  have hdescriptor : (ofFields otherName otherFields).descriptor =
      (ofFields name fields).descriptor := hrules
  exact ⟨hdescriptor, fun input => by rw [hdescriptor]⟩

/-- The schema of a person, whose name is documented by the given text. -/
def personAbout (text : Option String) : Schema :=
  ⟨"Person", [.plain ⟨"name", .string, true, {}⟩],
    .object [("name", .leaf .string ⟨true, { description := text }, {}⟩)]
      ⟨false, {}, { title := some "Person" }⟩⟩

/-- An order with a code, dated lines and a person who buys. -/
def tersePurchase : Value :=
  .list [
    .list [.text "required", .text "code", .text "string", .object false [("maxLength", .number 8)]],
    .list [.text "required", .text "lines", .list [.text "array", .text "object"],
      .object false [("fields",
        .list [.list [.text "optional", .text "placed", .text "date"]])]],
    .list [.text "embeds_one", .text "buyer", .text "Person"]]

/-- The same order with a word for its readers at each of its fields. -/
def annotatedPurchase : Value :=
  .list [
    .list [.text "required", .text "code", .text "string",
      .object false [("deprecated", .bool true), ("maxLength", .number 8)]],
    .list [.text "required", .text "lines", .list [.text "array", .text "object"],
      .object false [
        ("title", .text "Lines"),
        ("fields", .list [.list [.text "optional", .text "placed", .text "date",
          .object false [("example", .text "2020-02-29")]]])]],
    .list [.text "embeds_one", .text "buyer", .text "Person"]]

def terseSurroundings : Surroundings where
  lookup reference := if reference = "Person" then some (personAbout none) else none
  typeDefaults := .builtIn
  overrides := [("code", .object false [("minLength", .number 1)])]

def annotatedSurroundings : Surroundings where
  lookup reference := if reference = "Person" then some (personAbout "Full name") else none
  typeDefaults := []
  overrides := [
    ("code", .object false [("minLength", .number 1), ("description", .text "Two letters")]),
    ("lines.placed", .object false [("readOnly", .bool true)])]

theorem purchases_sameForChecks : tersePurchase.SameForChecks annotatedPurchase := by
  refine .list (.cons ?_ (.cons ?_ (.cons (.refl _) .nil)))
  · refine .field rfl rfl ?_ .none
    intro key hkey
    cases key <;> first | rfl | cases hkey
  · refine .field rfl rfl ?_ (.some (.list (.cons ?_ .nil)))
    · intro key hkey
      cases key <;> first | rfl | cases hkey
    · refine .field rfl rfl ?_ .none
      intro key hkey
      cases key <;> first | rfl | cases hkey

theorem surroundings_sameForChecks : terseSurroundings.SameForChecks annotatedSurroundings := by
  constructor
  case lookup =>
    intro reference s t hs ht
    by_cases hperson : reference = "Person"
    · simp only [terseSurroundings, annotatedSurroundings, if_pos hperson] at hs ht
      obtain rfl := Option.some.inj hs
      obtain rfl := Option.some.inj ht
      rfl
    · simp [terseSurroundings, if_neg hperson] at hs
  case typeDefaults =>
    intro type key hkey
    cases type <;> cases key <;> first | rfl | cases hkey
  case overrides =>
    intro path key hkey
    rw [OptionSet.ofValue, OptionSet.ofValue, OptionSet.lookup_ofEntries,
      OptionSet.lookup_ofEntries]
    by_cases hcode : path = "code"
    · subst hcode
      cases key <;> first | rfl | cases hkey
    by_cases hplaced : path = "lines.placed"
    · subst hplaced
      cases key <;> first | rfl | cases hkey
    · simp [terseSurroundings, annotatedSurroundings, Record.get?_cons, hcode, hplaced]

/-- The terse and the annotated order have one descriptor. -/
theorem purchases_sameDescriptor :
    ∃ s t, compile "Terse" tersePurchase terseSurroundings = .ok (s, []) ∧
      compile "Annotated" annotatedPurchase annotatedSurroundings = .ok (t, []) ∧
      t.descriptor = s.descriptor ∧
      (∀ input, t.descriptor.judge input = s.descriptor.judge input) := by
  obtain ⟨s, hs⟩ : ∃ s, compile "Terse" tersePurchase terseSurroundings = .ok (s, []) := ⟨_, rfl⟩
  obtain ⟨t, ht⟩ :
      ∃ t, compile "Annotated" annotatedPurchase annotatedSurroundings = .ok (t, []) := ⟨_, rfl⟩
  obtain ⟨hdescriptor, hjudge⟩ :=
    compile_sameForChecks purchases_sameForChecks surroundings_sameForChecks hs ht
  exact ⟨s, t, hs, ht, hdescriptor, hjudge⟩

end Schema

end FieldSchema
