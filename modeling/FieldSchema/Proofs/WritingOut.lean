import FieldSchema.Declaration.Builder
import FieldSchema.Proofs.Containment
import FieldSchema.Proofs.Relocation

/-!
# Writing embeds out

An embed can be written out as a field of its own that declares inside it what the embedded schema
declares. Embeds are chosen by kind and place, and written out in raw declarations; reading then
gives the declarations in which the same embeds are written out.
-/

namespace FieldSchema

/-- Which embeds are written out. A place lists the names of the fields around an embed, from the
outside in, and its own name last. -/
abbrev EmbedChoice := EmbedKind → List String → Bool

/-- What is chosen among the fields inside a field. -/
def EmbedChoice.inside (chosen : EmbedChoice) (name : String) : EmbedChoice :=
  fun kind place => chosen kind (name :: place)

/-- The raw form of an embed that is written out with raw declarations. -/
def Declaration.rawWrittenOut (kind : EmbedKind) (name reference : String) (inner : Value) :
    Value :=
  match kind with
  | .one =>
      rawField .optional (.text name) (.text "object")
        (.object false [("title", .text reference), ("fields", inner)])
  | .many =>
      rawField .optional (.text name) (rawArray (.text "object"))
        (.object false [("fields", inner)])

/-- An embed that is written out with declarations. -/
def Declaration.writtenOut (kind : EmbedKind) (name reference : String)
    (inner : List Declaration) : Declaration :=
  match kind with
  | .one => .block ⟨.optional, name, .scalar .object, [("title", .text reference)]⟩ inner
  | .many => .block ⟨.optional, name, .array .object, []⟩ inner

namespace Value

/-- A raw embed written out, if it is one and is chosen. -/
def writtenOut? (source : String → Value) (chosen : EmbedChoice) (word name : String)
    (reference : Value) : Option Value := do
  let kind ← EmbedKind.ofName? word
  let target ← Declaration.referenceName? reference
  if chosen kind [name] then return Declaration.rawWrittenOut kind name target (source target)
  none

mutual

/-- Raw declarations with the chosen embeds written out, each with the raw declarations of the
schema it refers to. -/
def writeOut (source : String → Value) (chosen : EmbedChoice) : Value → Value
  | .list entries => .list (writeOutEntries source chosen entries)
  | v => v

def writeOutEntries (source : String → Value) (chosen : EmbedChoice) : List Value → List Value
  | [] => []
  | entry :: rest => writeOutEntry source chosen entry :: writeOutEntries source chosen rest

def writeOutEntry (source : String → Value) (chosen : EmbedChoice) : Value → Value
  | .list parts => writeOutParts source chosen parts
  | v => v

def writeOutParts (source : String → Value) (chosen : EmbedChoice) : List Value → Value
  | [.text word, .text name, reference] =>
      (writtenOut? source chosen word name reference).getD
        (.list [.text word, .text name, reference])
  | [kind, .text name, type, .object bare members] =>
      .list [kind, .text name, type,
        .object bare (writeOutMembers source (chosen.inside name) members)]
  | parts => .list parts

def writeOutMembers (source : String → Value) (chosen : EmbedChoice) :
    List (String × Value) → List (String × Value)
  | [] => []
  | (name, value) :: rest =>
      if name = "fields" then (name, writeOut source chosen value) :: rest
      else (name, value) :: writeOutMembers source chosen rest

end

end Value

mutual

/-- A declaration with the chosen embeds written out. -/
def Declaration.writeOut (source : String → List Declaration) (chosen : EmbedChoice) :
    Declaration → Declaration
  | .field head => .field head
  | .block head inner =>
      .block head (Declaration.writeOutAll source (chosen.inside head.name) inner)
  | .embed kind name reference =>
      if chosen kind [name] then .writtenOut kind name reference (source reference)
      else .embed kind name reference

def Declaration.writeOutAll (source : String → List Declaration) (chosen : EmbedChoice) :
    List Declaration → List Declaration
  | [] => []
  | d :: rest => d.writeOut source chosen :: Declaration.writeOutAll source chosen rest

end

namespace Declaration

/-- What the source of a schema declares; nothing where it cannot be read. -/
def readings (source : String → Value) (reference : String) : List Declaration :=
  (readAll (source reference)).toOption.getD []

theorem readings_eq {source : String → Value} {reference : String} {declared : List Declaration}
    (h : readAll (source reference) = .ok declared) : readings source reference = declared := by
  rw [readings, h]
  rfl

theorem name_writeOut (source : String → List Declaration) (chosen : EmbedChoice)
    (d : Declaration) : (d.writeOut source chosen).name = d.name := by
  cases d with
  | field head => rfl
  | block head inner => rfl
  | embed kind name reference =>
      rw [writeOut]
      split
      next => cases kind <;> rfl
      next => rfl

/-! ## Reading one declaration -/

theorem embedKind_ofName?_of_field {word : String} {kind : FieldKind}
    (h : FieldKind.ofName? word = some kind) : EmbedKind.ofName? word = none := by
  unfold FieldKind.ofName? at h
  split at h
  next hword => subst hword; rfl
  next =>
    split at h
    next hword => subst hword; rfl
    next =>
      split at h
      next hword => subst hword; rfl
      next => cases h

/-- What a raw declaration opens with: a field, or an embed, which has three parts. -/
theorem openTuple_cases {ordinal parent : String} {parts : List Value} {opening : Opening}
    (h : openTuple ordinal parent parts = .ok opening) :
    ∃ word name, parts.getD 0 .absent = .text word ∧ parts.getD 1 .absent = .text name ∧
      Text.isBlankText name = false ∧
      ((∃ kind type, FieldKind.ofName? word = some kind ∧ opening = .field kind name type) ∨
        ∃ kind target, EmbedKind.ofName? word = some kind ∧ parts.length = 3 ∧
          referenceName? (parts.getD 2 .absent) = some target ∧
          opening = .embed kind name target) := by
  unfold openTuple at h
  split at h
  next name hname =>
    split at h
    next => exact absurd h Outcome.malformed_ne_ok
    next hblank =>
      have hnamed : Text.isBlankText name = false := by simpa using hblank
      -- a first part that is no text is no word for a kind
      cases hkind : parts.getD 0 .absent with
      | text word =>
          rw [hkind] at h
          dsimp only at h
          refine ⟨word, name, rfl, hname, hnamed, ?_⟩
          split at h
          next kind hfield =>
            obtain ⟨type, htype⟩ := openField_eq_ok h
            exact .inl ⟨kind, type, hfield, htype⟩
          next kind _ hembed =>
            unfold openEmbed at h
            split at h
            next => exact absurd h Outcome.malformed_ne_ok
            next hlength =>
              split at h
              next target htarget =>
                exact .inr ⟨kind, target, hembed, by simpa using hlength, htarget,
                  (Except.ok.inj h).symm⟩
              next => exact absurd h Outcome.malformed_ne_ok
          next =>
            obtain ⟨_, _, hfailed⟩ := Outcome.bind_eq_ok.mp h
            exact absurd hfailed Outcome.malformed_ne_ok
      | _ =>
          rw [hkind] at h
          obtain ⟨_, _, hfailed⟩ := Outcome.bind_eq_ok.mp h
          exact absurd hfailed Outcome.malformed_ne_ok
  next => exact absurd h Outcome.malformed_ne_ok

theorem closeField_eq_ok {kind : FieldKind} {name path : String} {type : FieldType}
    {options : Record Value} {block : Option (List Declaration)} {d : Declaration}
    (h : closeField kind name path type options block = .ok d) :
    d = block.elim (.field ⟨kind, name, type, options⟩) (.block ⟨kind, name, type, options⟩) ∧
      ∀ other : Option (List Declaration), other.isSome = block.isSome →
        closeField kind name path type options other =
          .ok (other.elim (.field ⟨kind, name, type, options⟩)
            (.block ⟨kind, name, type, options⟩)) := by
  unfold closeField at h ⊢
  split at h
  next => exact absurd h Outcome.malformed_ne_ok
  next hallowed =>
    split at h
    next => exact absurd h Outcome.malformed_ne_ok
    next hneeded =>
      split at h
      next => exact absurd h Outcome.malformed_ne_ok
      next hlisted =>
        constructor
        · cases block <;> exact (Except.ok.inj h).symm
        · intro other hsome
          have hnone : other.isNone = block.isNone := by
            rw [← Option.not_isSome, ← Option.not_isSome, hsome]
          rw [hsome, hnone, if_neg hallowed, if_neg hneeded, if_neg hlisted]
          cases other <;> rfl

theorem readTuple_of_options {ordinal parent name : String} {word tag : Value} {bare : Bool}
    {members : Record Value} {kind : FieldKind} {type : FieldType}
    {block : Option (List Declaration)}
    (hopen : openTuple ordinal parent [word, .text name, tag, .object bare members] =
      .ok (.field kind name type))
    (hinner : readInner (joinPath parent name) members = .ok block) :
    readTuple ordinal parent [word, .text name, tag, .object bare members] =
      closeField kind name (joinPath parent name) type (members.erase "fields") block := by
  rw [readTuple, hopen]
  change (readInner (joinPath parent name) members >>= fun block => _) = _
  rw [hinner]
  rfl

theorem isAbsent_of_readBlock {parent : String} {raw : Value} {block : List Declaration}
    (h : readBlock parent raw = .ok block) : ¬raw.isAbsent = true := by
  cases raw with
  | list entries => simp [Value.isAbsent]
  | _ => exact absurd h Outcome.malformed_ne_ok

/-- A written-out embed reads as what it stands for, wherever it stands. -/
theorem readOne_rawWrittenOut (ordinal parent : String) (kind : EmbedKind)
    {name : String} (reference : String) {raw : Value} {inner : List Declaration}
    (hname : Text.isBlankText name = false) (hraw : readAll raw = .ok inner) :
    readOne ordinal parent (rawWrittenOut kind name reference raw) =
      .ok (writtenOut kind name reference inner) := by
  have hinner : readBlock (joinPath parent name) raw = .ok inner :=
    readBlock_implies "" _ raw inner hraw
  have hfields : readInner (joinPath parent name) [("fields", raw)] = .ok (some inner) := by
    simp [readInner, isAbsent_of_readBlock hinner, hinner]
  cases kind with
  | one =>
      have hopen : openTuple ordinal parent [.text "optional", .text name, .text "object",
          .object false [("title", .text reference), ("fields", raw)]] =
          .ok (.field .optional name (.scalar .object)) := by
        simp [openTuple, hname]
        rfl
      exact readTuple_of_options hopen hfields
  | many =>
      have hopen : openTuple ordinal parent
          [.text "optional", .text name, rawArray (.text "object"),
            .object false [("fields", raw)]] =
          .ok (.field .optional name (.array .object)) := by
        simp [openTuple, hname]
        rfl
      exact readTuple_of_options hopen hfields

/-! ## Reading what has been written out -/

theorem erase_writeOutMembers (source : String → Value) (chosen : EmbedChoice)
    (members : List (String × Value)) :
    Record.erase (Value.writeOutMembers source chosen members) "fields" =
      Record.erase members "fields" := by
  induction members with
  | nil => rfl
  | cons member rest ih =>
      obtain ⟨name, value⟩ := member
      rw [Value.writeOutMembers]
      by_cases hname : name = "fields"
      · simp [hname, Record.erase]
      · simpa [hname, Record.erase] using ih

/-- A declaration of a field that has no options is left as it is. -/
theorem writeOutParts_of_field (source : String → Value) (chosen : EmbedChoice)
    {parts : List Value} {word : String} {kind : FieldKind}
    (hword : parts.getD 0 .absent = .text word) (hkind : FieldKind.ofName? word = some kind)
    (hparts : ∀ first second tag bare members,
      parts ≠ [first, second, tag, .object bare members]) :
    Value.writeOutParts source chosen parts = .list parts := by
  unfold Value.writeOutParts
  split
  next first name reference =>
    obtain rfl : first = word := Value.text.inj hword
    simp [Value.writtenOut?, embedKind_ofName?_of_field hkind]
  next first name tag bare members => exact absurd rfl (hparts first (.text name) tag bare members)
  next => rfl

theorem writeOutParts_of_embed (source : String → Value) (chosen : EmbedChoice)
    {word name target : String} {reference : Value} {kind : EmbedKind}
    (hkind : EmbedKind.ofName? word = some kind) (htarget : referenceName? reference = some target) :
    Value.writeOutParts source chosen [.text word, .text name, reference] =
      if chosen kind [name] then rawWrittenOut kind name target (source target)
      else .list [.text word, .text name, reference] := by
  rw [Value.writeOutParts, Value.writtenOut?, hkind, htarget]
  by_cases hchosen : chosen kind [name] = true <;> simp [hchosen]

section Reading

variable {source : String → Value} {read : String → List Declaration}

mutual

/-- Where the declarations of the embedded schemas can be read, writing out raw declarations and
reading them commute. -/
theorem readBlock_writeOut (chosen : EmbedChoice) (parent : String) (raw : Value)
    {block : List Declaration} (h : readBlock parent raw = .ok block)
    (hread : ∀ reference ∈ blockReferences block,
      readAll (source reference) = .ok (read reference)) :
    readBlock parent (raw.writeOut source chosen) = .ok (writeOutAll read chosen block) := by
  cases raw with
  | list entries => exact readEntries_writeOut chosen parent 0 [] entries h hread
  | _ => exact absurd h Outcome.malformed_ne_ok
termination_by sizeOf raw

theorem readEntries_writeOut (chosen : EmbedChoice) (parent : String) (count : Nat)
    (seen : List String) (entries : List Value) {block : List Declaration}
    (h : readEntries parent count seen entries = .ok block)
    (hread : ∀ reference ∈ blockReferences block,
      readAll (source reference) = .ok (read reference)) :
    readEntries parent count seen (Value.writeOutEntries source chosen entries) =
      .ok (writeOutAll read chosen block) := by
  cases entries with
  | nil =>
      cases h
      rfl
  | cons entry rest =>
      rw [readEntries] at h
      obtain ⟨d, hd, h⟩ := Outcome.bind_eq_ok.mp h
      split at h
      next => exact absurd h Outcome.malformed_ne_ok
      next hfresh =>
        obtain ⟨others, hothers, h⟩ := Outcome.bind_eq_ok.mp h
        obtain rfl := Outcome.pure_eq_ok.mp h
        have hfirst := readOne_writeOut chosen _ parent entry hd fun reference hreference =>
          hread reference (List.mem_append_left _ hreference)
        have hrest := readEntries_writeOut chosen parent _ _ rest hothers
          fun reference hreference => hread reference (List.mem_append_right _ hreference)
        rw [Value.writeOutEntries, readEntries]
        refine Outcome.bind_eq_ok.mpr ⟨_, hfirst, ?_⟩
        rw [name_writeOut, if_neg hfresh]
        exact Outcome.bind_eq_ok.mpr ⟨_, hrest, rfl⟩
termination_by sizeOf entries

theorem readOne_writeOut (chosen : EmbedChoice) (ordinal parent : String) (entry : Value)
    {d : Declaration} (h : readOne ordinal parent entry = .ok d)
    (hread : ∀ reference ∈ d.references, readAll (source reference) = .ok (read reference)) :
    readOne ordinal parent (Value.writeOutEntry source chosen entry) =
      .ok (d.writeOut read chosen) := by
  cases entry with
  | list parts => exact readTuple_writeOut chosen ordinal parent parts h hread
  | _ => exact absurd h Outcome.malformed_ne_ok
termination_by sizeOf entry

theorem readTuple_writeOut (chosen : EmbedChoice) (ordinal parent : String) (parts : List Value)
    {d : Declaration} (h : readTuple ordinal parent parts = .ok d)
    (hread : ∀ reference ∈ d.references, readAll (source reference) = .ok (read reference)) :
    readOne ordinal parent (Value.writeOutParts source chosen parts) =
      .ok (d.writeOut read chosen) := by
  have hparts := h
  rw [readTuple] at hparts
  obtain ⟨opening, hopen, hd⟩ := Outcome.bind_eq_ok.mp hparts
  clear hparts
  obtain ⟨word, name, hword, hname, hnamed, hcases⟩ := openTuple_cases hopen
  rcases hcases with ⟨kind, type, hkind, rfl⟩ | ⟨kind, target, hkind, hlength, htarget, rfl⟩
  · dsimp only at hd
    split at hd
    next first second tag bare members =>
      obtain rfl : first = .text word := hword
      obtain rfl : second = .text name := hname
      obtain ⟨block, hinner, hclose⟩ := Outcome.bind_eq_ok.mp hd
      obtain ⟨rfl, hany⟩ := closeField_eq_ok hclose
      have hwritten : readInner (joinPath parent name)
          (Value.writeOutMembers source (chosen.inside name) members) =
          .ok (block.map (writeOutAll read (chosen.inside name))) := by
        refine readInner_writeOut _ _ members hinner ?_
        rintro inner rfl
        exact hread
      have hopen' : openTuple ordinal parent [.text word, .text name, tag,
          .object bare (Value.writeOutMembers source (chosen.inside name) members)] =
          .ok (.field kind name type) := hopen
      refine (readTuple_of_options hopen' hwritten).trans ?_
      rw [erase_writeOutMembers, hany _ (by simp)]
      cases block <;> rfl
    next =>
      obtain ⟨rfl, _⟩ := closeField_eq_ok hd
      rw [writeOutParts_of_field source chosen hword hkind (by simp)]
      exact h
    next => exact absurd hd Outcome.malformed_ne_ok
    next hparts =>
      obtain ⟨rfl, _⟩ := closeField_eq_ok hd
      rw [writeOutParts_of_field source chosen hword hkind fun _ _ _ _ _ => hparts _ _ _ _]
      exact h
  · obtain rfl := Outcome.pure_eq_ok.mp hd
    obtain ⟨first, second, reference, rfl⟩ := List.length_eq_three.mp hlength
    obtain rfl : first = .text word := hword
    obtain rfl : second = .text name := hname
    have hreference : referenceName? reference = some target := htarget
    rw [writeOutParts_of_embed source chosen hkind hreference, Declaration.writeOut]
    split
    next =>
      have hsource := hread target (by simp [references])
      exact readOne_rawWrittenOut ordinal parent kind target hnamed hsource
    next => exact h
termination_by sizeOf parts

theorem readInner_writeOut (chosen : EmbedChoice) (path : String)
    (members : List (String × Value)) {block : Option (List Declaration)}
    (h : readInner path members = .ok block)
    (hread : ∀ inner, block = some inner → ∀ reference ∈ blockReferences inner,
      readAll (source reference) = .ok (read reference)) :
    readInner path (Value.writeOutMembers source chosen members) =
      .ok (block.map (writeOutAll read chosen)) := by
  match members, h with
  | [], h =>
      cases h
      rfl
  | (name, value) :: rest, h =>
      rw [readInner] at h
      rw [Value.writeOutMembers]
      split at h
      next hname =>
        rw [if_pos hname, readInner, if_pos hname]
        split at h
        next habsent =>
          cases h
          cases value with
          | absent => rfl
          | _ => cases habsent
        next hpresent =>
          obtain ⟨inner, hinner, h⟩ := Outcome.bind_eq_ok.mp h
          obtain rfl := Outcome.pure_eq_ok.mp h
          have hwritten := readBlock_writeOut chosen path value hinner (hread inner rfl)
          rw [if_neg (isAbsent_of_readBlock hwritten)]
          exact Outcome.bind_eq_ok.mpr ⟨_, hwritten, rfl⟩
      next hname =>
        rw [if_neg hname, readInner, if_neg hname]
        exact readInner_writeOut chosen path rest h hread
termination_by sizeOf members

end

end Reading

end Declaration

end FieldSchema
