import FieldSchema.Declaration.Reader

/-!
# Well-formed declarations

Reading raw declarations promises more than a list of declarations: no name is blank, no name
stands twice in a block, blocks stand only where a type allows one, arrays of objects have one, and
the inline block is not left among the options. This is the shape that everything after reading
relies on.
-/

namespace FieldSchema

/-- What holds of a field's own part of a declaration once it has been read. -/
structure FieldHead.IsSound (head : FieldHead) : Prop where
  named : Text.isBlankText head.name = false
  withoutBlock : head.options.has "fields" = false
  choiceListed : head.type = .scalar .enumeration →
    ((head.options.get? "values").getD .absent).isAbsent = false

mutual

/-- A declaration that reading can have returned. -/
def Declaration.IsWellFormed : Declaration → Prop
  | .field head => head.IsSound ∧ head.type ≠ .array .object
  | .block head inner =>
      head.IsSound ∧ Declaration.allowsBlock head.type = true ∧
        Declaration.BlockIsWellFormed inner
  | .embed _ name reference => Text.isBlankText name = false ∧ reference ≠ ""

/-- Well-formed declarations, no two of one name. -/
def Declaration.BlockIsWellFormed : List Declaration → Prop
  | [] => True
  | d :: rest =>
      d.IsWellFormed ∧ d.name ∉ rest.map Declaration.name ∧ Declaration.BlockIsWellFormed rest

end

namespace Declaration

theorem BlockIsWellFormed.nodup_names {block : List Declaration} (h : BlockIsWellFormed block) :
    (block.map Declaration.name).Nodup := by
  induction block with
  | nil => exact List.nodup_nil
  | cons d rest ih => exact List.nodup_cons.mpr ⟨h.2.1, ih h.2.2⟩

/-- Closing a field keeps its name, and the checks made there give the rest of its form. -/
theorem closeField_isWellFormed {kind : FieldKind} {name path : String} {type : FieldType}
    {options : Record Value} {block : Option (List Declaration)} {d : Declaration}
    (hnamed : Text.isBlankText name = false) (hoptions : options.has "fields" = false)
    (hblock : ∀ inner, block = some inner → BlockIsWellFormed inner)
    (h : closeField kind name path type options block = .ok d) : d.IsWellFormed := by
  unfold closeField at h
  split at h
  next => exact absurd h Outcome.malformed_ne_ok
  next hallowed =>
    split at h
    next => exact absurd h Outcome.malformed_ne_ok
    next hneeded =>
      split at h
      next => exact absurd h Outcome.malformed_ne_ok
      next hlisted =>
        -- all three checks have passed
        have hsound : FieldHead.IsSound ⟨kind, name, type, options⟩ := by
          refine ⟨hnamed, hoptions, fun htype => ?_⟩
          have htype : type = .scalar .enumeration := htype
          simpa [htype] using hlisted
        cases block with
        | none =>
            cases h
            exact ⟨hsound, by simpa using hneeded⟩
        | some inner =>
            cases h
            exact ⟨hsound, by simpa using hallowed, hblock inner rfl⟩

theorem openField_eq_ok {kind : FieldKind} {name path : String} {parts : List Value}
    {opening : Opening} (h : openField kind name path parts = .ok opening) :
    ∃ type, opening = .field kind name type := by
  unfold openField at h
  split at h
  next => exact absurd h Outcome.malformed_ne_ok
  next =>
    split at h
    next => exact absurd h Outcome.malformed_ne_ok
    next =>
      obtain ⟨type, _, htype⟩ := Outcome.bind_eq_ok.mp h
      exact ⟨type, (Outcome.pure_eq_ok.mp htype).symm⟩

theorem referenceName?_ne_empty {reference : Value} {name : String}
    (h : referenceName? reference = some name) : name ≠ "" := by
  unfold referenceName? at h
  split at h
  next text =>
    split at h
    next => exact absurd h (by simp)
    next hblank =>
      obtain rfl : text = name := Option.some.inj h
      rintro rfl
      exact hblank (by decide)
  next =>
    split at h
    next =>
      split at h
      next => exact absurd h (by simp)
      next hne => exact Option.some.inj h ▸ hne
    next => exact absurd h (by simp)
  next => exact absurd h (by simp)

theorem openEmbed_eq_ok {kind : EmbedKind} {name path : String} {parts : List Value}
    {opening : Opening} (h : openEmbed kind name path parts = .ok opening) :
    ∃ reference, reference ≠ "" ∧ opening = .embed kind name reference := by
  unfold openEmbed at h
  split at h
  next => exact absurd h Outcome.malformed_ne_ok
  next =>
    split at h
    next reference hreference =>
      exact ⟨reference, referenceName?_ne_empty hreference, (Except.ok.inj h).symm⟩
    next => exact absurd h Outcome.malformed_ne_ok

/-- What a declaration opens with has a name that is not blank, and a reference that is not
empty. -/
def Opening.IsSound : Opening → Prop
  | .field _ name _ => Text.isBlankText name = false
  | .embed _ name reference => Text.isBlankText name = false ∧ reference ≠ ""

theorem openTuple_isSound {ordinal parent : String} {parts : List Value} {opening : Opening}
    (h : openTuple ordinal parent parts = .ok opening) : opening.IsSound := by
  unfold openTuple at h
  split at h
  next name _ =>
    split at h
    next => exact absurd h Outcome.malformed_ne_ok
    next hblank =>
      have hnamed : Text.isBlankText name = false := by simpa using hblank
      dsimp only at h
      split at h
      next =>
        obtain ⟨type, rfl⟩ := openField_eq_ok h
        exact hnamed
      next =>
        obtain ⟨reference, hreference, rfl⟩ := openEmbed_eq_ok h
        exact ⟨hnamed, hreference⟩
      next =>
        obtain ⟨_, _, hkind⟩ := Outcome.bind_eq_ok.mp h
        exact absurd hkind Outcome.malformed_ne_ok
  next => exact absurd h Outcome.malformed_ne_ok

/-! ## Reading returns well-formed declarations -/

mutual

theorem readBlock_isWellFormed (parent : String) (raw : Value) {block : List Declaration}
    (h : readBlock parent raw = .ok block) : BlockIsWellFormed block := by
  cases raw with
  | list entries => exact (readEntries_isWellFormed parent 0 [] entries h).1
  | _ => exact absurd h Outcome.malformed_ne_ok
termination_by sizeOf raw

/-- Names already seen do not come back. -/
theorem readEntries_isWellFormed (parent : String) (count : Nat) (seen : List String)
    (entries : List Value) {block : List Declaration}
    (h : readEntries parent count seen entries = .ok block) :
    BlockIsWellFormed block ∧ ∀ d ∈ block, d.name ∉ seen := by
  cases entries with
  | nil =>
      cases h
      exact ⟨trivial, by simp⟩
  | cons entry rest =>
      rw [readEntries] at h
      obtain ⟨d, hd, h⟩ := Outcome.bind_eq_ok.mp h
      split at h
      next => exact absurd h Outcome.malformed_ne_ok
      next hfresh =>
        obtain ⟨others, hothers, hblock⟩ := Outcome.bind_eq_ok.mp h
        obtain rfl := Outcome.pure_eq_ok.mp hblock
        -- the rest was read with this name among those seen
        obtain ⟨hwell, hunseen⟩ := readEntries_isWellFormed parent _ _ rest hothers
        refine ⟨⟨readOne_isWellFormed _ parent entry hd, ?_, hwell⟩, ?_⟩
        · intro hmem
          obtain ⟨other, hother, hname⟩ := List.mem_map.mp hmem
          exact hunseen other hother (hname ▸ List.mem_cons_self)
        · intro other hother
          rcases List.mem_cons.mp hother with rfl | hother
          · exact hfresh
          · exact fun hseen => hunseen other hother (List.mem_cons_of_mem _ hseen)
termination_by sizeOf entries

theorem readOne_isWellFormed (ordinal parent : String) (entry : Value) {d : Declaration}
    (h : readOne ordinal parent entry = .ok d) : d.IsWellFormed := by
  cases entry with
  | list parts => exact readTuple_isWellFormed ordinal parent parts h
  | _ => exact absurd h Outcome.malformed_ne_ok
termination_by sizeOf entry

theorem readTuple_isWellFormed (ordinal parent : String) (parts : List Value) {d : Declaration}
    (h : readTuple ordinal parent parts = .ok d) : d.IsWellFormed := by
  rw [readTuple] at h
  obtain ⟨opening, hopening, h⟩ := Outcome.bind_eq_ok.mp h
  have hsound := openTuple_isSound hopening
  split at h
  next =>
    obtain rfl := Outcome.pure_eq_ok.mp h
    exact hsound
  next kind name type =>
    dsimp only at h
    split at h
    next members _ =>
      obtain ⟨block, hread, h⟩ := Outcome.bind_eq_ok.mp h
      exact closeField_isWellFormed hsound (Record.has_erase members "fields")
        (fun inner hinner => readInner_isWellFormed _ members (hinner ▸ hread)) h
    next => exact closeField_isWellFormed hsound rfl (by simp) h
    next => exact absurd h Outcome.malformed_ne_ok
    next => exact closeField_isWellFormed hsound rfl (by simp) h
termination_by sizeOf parts

theorem readInner_isWellFormed (path : String) (members : List (String × Value))
    {inner : List Declaration} (h : readInner path members = .ok (some inner)) :
    BlockIsWellFormed inner := by
  match members, h with
  | (name, value) :: rest, h =>
      rw [readInner] at h
      split at h
      next =>
        split at h
        next => cases h
        next =>
          obtain ⟨block, hblock, h⟩ := Outcome.bind_eq_ok.mp h
          obtain rfl := Option.some.inj (Outcome.pure_eq_ok.mp h)
          exact readBlock_isWellFormed path value hblock
      next => exact readInner_isWellFormed path rest h
termination_by sizeOf members

end

theorem readAll_isWellFormed {raw : Value} {block : List Declaration}
    (h : readAll raw = .ok block) : BlockIsWellFormed block :=
  readBlock_isWellFormed "" raw h

end Declaration

end FieldSchema
