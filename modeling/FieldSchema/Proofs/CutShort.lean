import FieldSchema.Proofs.Failures
import FieldSchema.Proofs.Grammar

/-!
# Compilations that are cut short

A compilation reports what is wrong with declarations, options and references. The message about a
kind or a type that is not known quotes what stands there. Where that cannot be written the message
cannot be made, and the compilation is cut short without a report. It is cut short in no other way.
-/

namespace FieldSchema

open Outcome

/-- The failure reports a mistake in what is compiled. -/
def Failure.IsReport (failure : Failure) : Prop :=
  ∃ path, failure.Reports path

/-- The parts of a raw declaration are refused for a kind or for a type that cannot be quoted. -/
inductive Declaration.IsUnquotable : List Value → Prop
  | kind {kind : Value} {name : String} {rest : List Value}
      (named : Text.isBlankText name = false) (h : kind.HasNoText) :
      IsUnquotable (kind :: .text name :: rest)
  | type {kind : FieldKind} {name : String} {tag : Value} {options : List Value}
      (named : Text.isBlankText name = false) (few : options.length ≤ 1)
      (noArray : ∀ subtype, tag ≠ .list [.text "array", subtype]) (h : tag.HoldsBigInt) :
      IsUnquotable (.text kind.name :: .text name :: tag :: options)

mutual

/-- After entries that are read comes one that cuts the reading short. -/
inductive Value.IsCutShort : Value → Prop
  | entry {before after : List Value} {entry : Value}
      (hbefore : (Value.list before).IsDeclarationList) (h : Value.CutsShort entry) :
      IsCutShort (.list (before ++ entry :: after))

/-- A raw declaration cuts the reading short: by its own parts, or within its inline block. -/
inductive Value.CutsShort : Value → Prop
  | parts {parts : List Value} (h : Declaration.IsUnquotable parts) : CutsShort (.list parts)
  | block {kind : FieldKind} {name : String} {tag : Value} {type : FieldType}
      {options : List Value} {members : Record Value} {raw : Value}
      (named : Text.isBlankText name = false) (typed : type.IsMeantBy tag)
      (given : Declaration.givenOptions? options = some members)
      (block : Declaration.givenBlock? members = some raw) (h : Value.IsCutShort raw) :
      CutsShort (.list (.text kind.name :: .text name :: tag :: options))

end

namespace Outcome

variable {α β : Type}

theorem FailsOnlyWith.isReport {x : Outcome α} {path : Option String}
    (hx : FailsOnlyWith (Failure.Reports path) x) : FailsOnlyWith Failure.IsReport x :=
  hx.mono fun _ h => ⟨path, h⟩

theorem malformed_isReport (complaint : Complaint) (path : Option String) :
    FailsOnlyWith Failure.IsReport (malformed complaint path : Outcome α) :=
  (malformed_reports complaint path).isReport

/-- Under a condition the outcome is cut short, and else every failure is a report. -/
def ReportsUnless (p : Prop) (x : Outcome α) : Prop :=
  (p ∧ x = .error .noText) ∨ (¬p ∧ FailsOnlyWith Failure.IsReport x)

namespace ReportsUnless

variable {p q : Prop} {x : Outcome α}

theorem of_reports (hx : FailsOnlyWith Failure.IsReport x) (hp : ¬p) : ReportsUnless p x :=
  .inr ⟨hp, hx⟩

theorem of_ok {a : α} (hp : ¬p) : ReportsUnless p (.ok a : Outcome α) :=
  of_reports (.of_ok a) hp

theorem of_malformed {complaint : Complaint} {path : Option String} (hp : ¬p) :
    ReportsUnless p (malformed complaint path : Outcome α) :=
  of_reports (malformed_isReport complaint path) hp

theorem of_lacksText (hx : LacksText p x) : ReportsUnless p x := by
  by_cases hp : p
  · exact .inl ⟨hp, (hx _).mpr ⟨rfl, hp⟩⟩
  · obtain ⟨a, rfl⟩ := hx.exists_ok hp
    exact of_ok hp

theorem congr (hx : ReportsUnless p x) (h : p ↔ q) : ReportsUnless q x := by
  rwa [← propext h]

/-- What comes second cuts short only where what comes first does not. -/
theorem bind {f : α → Outcome β} (hx : ReportsUnless p x)
    (hf : ∀ a, x = .ok a → ReportsUnless q (f a)) (hq : q → ∃ a, x = .ok a) :
    ReportsUnless (p ∨ q) (x >>= f) := by
  rcases hx with ⟨hp, rfl⟩ | ⟨hp, hx⟩
  · exact .inl ⟨.inl hp, rfl⟩
  cases x with
  | error failure =>
      have hnot : ¬q := fun h => by
        obtain ⟨_, ⟨⟩⟩ := hq h
      refine .inr ⟨fun h => h.elim hp hnot, .of_error (hx failure rfl)⟩
  | ok a => exact (hf a rfl).congr (or_iff_right hp).symm

/-- What comes second reports only. -/
theorem bind_reports {f : α → Outcome β} (hx : ReportsUnless p x)
    (hf : ∀ a, x = .ok a → FailsOnlyWith Failure.IsReport (f a)) : ReportsUnless p (x >>= f) :=
  (hx.bind (fun a ha => of_reports (hf a ha) not_false) False.elim).congr (or_iff_left not_false)

theorem eq_noText_iff (hx : ReportsUnless p x) : x = .error .noText ↔ p := by
  rcases hx with ⟨hp, hx⟩ | ⟨hp, hx⟩
  · exact iff_of_true hx hp
  · refine iff_of_false (fun h => ?_) hp
    obtain ⟨_, hreport⟩ := hx _ h
    exact hreport.ne_noText rfl

theorem failsOnlyWith (hx : ReportsUnless p x) :
    FailsOnlyWith (fun failure => failure.IsReport ∨ failure = .noText) x := by
  rcases hx with ⟨_, rfl⟩ | ⟨_, hx⟩
  · exact .of_error (.inr rfl)
  · exact hx.mono fun _ => .inl

end ReportsUnless

end Outcome

namespace Declaration

/-! ## Reading the parts of a declaration -/

theorem readType_reportsUnless (tag : Value) (path : Option String) :
    (readType tag path).ReportsUnless
      ((∀ subtype, tag ≠ .list [.text "array", subtype]) ∧ tag.HoldsBigInt) := by
  unfold readType
  split
  next word =>
    have hnot : ¬((∀ subtype, Value.text word ≠ .list [.text "array", subtype]) ∧
        (Value.text word).HoldsBigInt) := nofun
    split
    next => exact .of_ok hnot
    next => split <;> exact .of_malformed hnot
  next subtype =>
    have hnot : ¬((∀ other, Value.list [.text "array", subtype] ≠ .list [.text "array", other]) ∧
        (Value.list [.text "array", subtype]).HoldsBigInt) := fun h => h.1 subtype rfl
    split
    next =>
      split
      next => exact .of_ok hnot
      next =>
        refine .of_reports (.of_error ⟨path, _, rfl, ?_, rfl⟩) hnot
        simp [Defect.code, Defect.compileCodes]
    next => exact .of_malformed hnot
  next hother =>
    refine ReportsUnless.bind_reports ?_ fun json _ => malformed_isReport _ _
    exact (ReportsUnless.of_lacksText (Json.write_lacksText .compact 0 tag)).congr
      (and_iff_right hother).symm

section Opening

variable {ordinal parent : String}

/-- What is no text is no kind, and the message about it quotes it. -/
theorem openTuple_of_noText {kind : Value} {name : String} (hkind : ∀ word, kind ≠ .text word)
    (hnamed : Text.isBlankText name = false) (rest : List Value) :
    openTuple ordinal parent (kind :: .text name :: rest) = kind.toText >>= fun text =>
      malformed (.unknownKind text) (some (joinPath parent name)) := by
  simp only [openTuple, List.getD_cons_zero, List.getD_cons_succ, hnamed]
  cases kind with
  | text word => exact absurd rfl (hkind word)
  | _ => rfl

theorem isUnquotable_iff {first : Value} {name : String} {rest : List Value} :
    IsUnquotable (first :: .text name :: rest) ↔ Text.isBlankText name = false ∧
      (first.HasNoText ∨ ∃ (kind : FieldKind) (tag : Value) (options : List Value),
        first = .text kind.name ∧ rest = tag :: options ∧ options.length ≤ 1 ∧
          (∀ subtype, tag ≠ .list [.text "array", subtype]) ∧ tag.HoldsBigInt) := by
  constructor
  · intro h
    generalize hparts : first :: Value.text name :: rest = parts at h
    cases h with
    | kind hnamed hkind =>
        simp only [List.cons.injEq, Value.text.injEq] at hparts
        obtain ⟨rfl, rfl, _⟩ := hparts
        exact ⟨hnamed, .inl hkind⟩
    | @type kind _ tag options hnamed hfew hnoArray hholds =>
        simp only [List.cons.injEq, Value.text.injEq] at hparts
        obtain ⟨hfirst, rfl, hrest⟩ := hparts
        exact ⟨hnamed, .inr ⟨kind, tag, options, hfirst, hrest, hfew, hnoArray, hholds⟩⟩
  · rintro ⟨hnamed, hkind | ⟨kind, tag, options, rfl, rfl, hfew, hnoArray, hholds⟩⟩
    · exact .kind hnamed hkind
    · exact .type hnamed hfew hnoArray hholds

theorem not_isUnquotable_of_text {word : String} (hword : FieldKind.ofName? word = none)
    (name : String) (rest : List Value) :
    ¬IsUnquotable (.text word :: .text name :: rest) := by
  intro h
  rcases isUnquotable_iff.mp h with ⟨_, h | ⟨kind, _, _, hkind, _⟩⟩
  · cases h
  · obtain rfl := Value.text.inj hkind
    rw [FieldKind.ofName?_eq_some_iff.mpr rfl] at hword
    cases hword

theorem openField_reportsUnless (kind : FieldKind) {name : String}
    (hnamed : Text.isBlankText name = false) (path : String) (rest : List Value) :
    (openField kind name path (.text kind.name :: .text name :: rest)).ReportsUnless
      (IsUnquotable (.text kind.name :: .text name :: rest)) := by
  have hkind : ¬(Value.text kind.name).HasNoText := nofun
  match rest with
  | [] =>
      refine .of_malformed fun h => ?_
      rcases isUnquotable_iff.mp h with ⟨_, h | ⟨_, _, _, _, h, _⟩⟩
      · exact hkind h
      · cases h
  | tag :: options =>
      by_cases hfew : options.length ≤ 1
      · have hleast : ¬options.length + 1 + 1 + 1 < 3 := by omega
        have hmost : ¬4 < options.length + 1 + 1 + 1 := by omega
        simp only [openField, List.length_cons, if_neg hleast, if_neg hmost, List.getD_cons_succ,
          List.getD_cons_zero]
        refine ((readType_reportsUnless tag (some path)).bind_reports
          fun _ _ => .of_pure _).congr ?_
        constructor
        · rintro ⟨hnoArray, hholds⟩
          exact .type hnamed hfew hnoArray hholds
        · intro h
          rcases isUnquotable_iff.mp h with ⟨_, h | ⟨_, _, _, _, hrest, _, hnoArray, hholds⟩⟩
          · exact (hkind h).elim
          · obtain ⟨rfl, rfl⟩ := List.cons.inj hrest
            exact ⟨hnoArray, hholds⟩
      · have hleast : ¬options.length + 1 + 1 + 1 < 3 := by omega
        have hmost : 4 < options.length + 1 + 1 + 1 := by omega
        simp only [openField, List.length_cons, if_neg hleast, if_pos hmost]
        refine .of_malformed fun h => ?_
        rcases isUnquotable_iff.mp h with ⟨_, h | ⟨_, _, _, _, hrest, hfewer, _⟩⟩
        · exact hkind h
        · obtain ⟨rfl, rfl⟩ := List.cons.inj hrest
          exact hfew hfewer

theorem openEmbed_reports (kind : EmbedKind) (name path : String) (parts : List Value) :
    FailsOnlyWith Failure.IsReport (openEmbed kind name path parts) := by
  unfold openEmbed
  split
  next => exact malformed_isReport _ _
  next =>
    split
    next => exact .of_ok _
    next => exact malformed_isReport _ _

/-- Opening a raw declaration is cut short by what cannot be quoted. -/
theorem openTuple_reportsUnless (ordinal parent : String) (parts : List Value) :
    (openTuple ordinal parent parts).ReportsUnless (IsUnquotable parts) := by
  match parts with
  | [] => exact .of_malformed nofun
  | [_] => exact .of_malformed nofun
  | first :: second :: rest =>
      cases second with
      | text name =>
          cases hnamed : Text.isBlankText name with
          | true =>
              simp only [openTuple, List.getD_cons_zero, List.getD_cons_succ, hnamed, if_true]
              refine .of_malformed fun h => ?_
              simp [isUnquotable_iff, hnamed] at h
          | false =>
              cases first with
              | text word =>
                  cases hfield : FieldKind.ofName? word with
                  | some kind =>
                      obtain rfl := FieldKind.ofName?_eq_some_iff.mp hfield
                      rw [openTuple_of_fieldKind kind hnamed]
                      exact openField_reportsUnless kind hnamed _ rest
                  | none =>
                      have hnot := not_isUnquotable_of_text hfield name rest
                      cases hembed : EmbedKind.ofName? word with
                      | some kind =>
                          obtain rfl := EmbedKind.ofName?_eq_some_iff.mp hembed
                          rw [openTuple_of_embedKind kind hnamed]
                          exact .of_reports (openEmbed_reports kind name _ _) hnot
                      | none =>
                          simp only [openTuple, List.getD_cons_zero, List.getD_cons_succ, hnamed,
                            hfield, hembed]
                          exact .of_malformed hnot
              | _ =>
                  rw [openTuple_of_noText (fun _ h => by cases h) hnamed]
                  refine ((ReportsUnless.of_lacksText (Value.toText_lacksText _)).bind_reports
                    fun _ _ => malformed_isReport _ _).congr ?_
                  simp [isUnquotable_iff, hnamed]
      | _ =>
          refine .of_malformed ?_
          rintro ⟨⟩

end Opening

theorem closeField_reports (kind : FieldKind) (name path : String) (type : FieldType)
    (options : Record Value) (block : Option (List Declaration)) :
    FailsOnlyWith Failure.IsReport (closeField kind name path type options block) := by
  unfold closeField
  split
  next => exact malformed_isReport _ _
  next =>
    split
    next => exact malformed_isReport _ _
    next =>
      split
      next => exact malformed_isReport _ _
      next => cases block <;> exact .of_ok _

/-! ## Reading declarations -/

/-- The inline block of a raw field cuts the reading short. -/
def BlockCutsShort (parts : List Value) : Prop :=
  ∃ (kind : FieldKind) (name : String) (tag : Value) (type : FieldType) (options : List Value)
    (members : Record Value) (raw : Value),
    parts = .text kind.name :: .text name :: tag :: options ∧
      Text.isBlankText name = false ∧ type.IsMeantBy tag ∧ givenOptions? options = some members ∧
      givenBlock? members = some raw ∧ raw.IsCutShort

theorem cutsShort_list_iff {parts : List Value} :
    (Value.list parts).CutsShort ↔ IsUnquotable parts ∨ BlockCutsShort parts := by
  constructor
  · rintro (h | ⟨hnamed, htyped, hgiven, hblock, h⟩)
    · exact .inl h
    · exact .inr ⟨_, _, _, _, _, _, _, rfl, hnamed, htyped, hgiven, hblock, h⟩
  · rintro (h | ⟨_, _, _, _, _, _, _, rfl, hnamed, htyped, hgiven, hblock, h⟩)
    · exact .parts h
    · exact .block hnamed htyped hgiven hblock h

section Options

variable {kind : FieldKind} {name : String} {tag : Value} {type : FieldType} {options : List Value}

theorem blockCutsShort_iff (hnamed : Text.isBlankText name = false) (htyped : type.IsMeantBy tag) :
    BlockCutsShort (.text kind.name :: .text name :: tag :: options) ↔
      ∃ members raw, givenOptions? options = some members ∧ givenBlock? members = some raw ∧
        raw.IsCutShort := by
  constructor
  · rintro ⟨_, _, _, _, _, members, raw, hparts, _, _, hgiven, hblock, h⟩
    simp only [List.cons.injEq] at hparts
    obtain ⟨_, _, _, rfl⟩ := hparts
    exact ⟨members, raw, hgiven, hblock, h⟩
  · rintro ⟨members, raw, hgiven, hblock, h⟩
    exact ⟨kind, name, tag, type, options, members, raw, rfl, hnamed, htyped, hgiven, hblock, h⟩

/-- Options that are no object are refused. -/
theorem readTuple_of_noOptions {ordinal parent : String} (hnamed : Text.isBlankText name = false)
    (htyped : type.IsMeantBy tag) (hfew : options.length ≤ 1)
    (hnone : givenOptions? options = none) :
    readTuple ordinal parent (.text kind.name :: .text name :: tag :: options) =
      malformed .optionsNotPlain (some (joinPath parent name)) := by
  rw [readTuple, openTuple_of_field hnamed htyped hfew]
  match options with
  | [] => cases hnone
  | [given] =>
      cases given with
      | absent => cases hnone
      | object _ _ => cases hnone
      | _ => rfl
  | _ :: _ :: _ => simp at hfew

end Options

/-- After entries of names that are new comes one that cuts the reading short. -/
def EntriesCutShort (seen : List String) (entries : List Value) : Prop :=
  ∃ before entry after, entries = before ++ entry :: after ∧
    (∀ other ∈ before, other.IsDeclaration) ∧ (before.map Value.declaredName).Nodup ∧
    (∀ other ∈ before, other.declaredName ∉ seen) ∧ entry.CutsShort

theorem isCutShort_list_iff {entries : List Value} :
    (Value.list entries).IsCutShort ↔ EntriesCutShort [] entries := by
  constructor
  · intro h
    generalize hraw : Value.list entries = raw at h
    obtain ⟨hbefore, h⟩ := h
    obtain ⟨heach, hdistinct⟩ := hbefore
    exact ⟨_, _, _, Value.list.inj hraw, heach, hdistinct, by simp, h⟩
  · rintro ⟨before, entry, after, rfl, heach, hdistinct, _, h⟩
    exact .entry (.list heach hdistinct) h

theorem entriesCutShort_cons_iff {seen : List String} {entry : Value} {rest : List Value} :
    EntriesCutShort seen (entry :: rest) ↔ entry.CutsShort ∨
      (entry.IsDeclaration ∧ entry.declaredName ∉ seen ∧
        EntriesCutShort (entry.declaredName :: seen) rest) := by
  constructor
  · rintro ⟨before, cut, after, hentries, heach, hdistinct, hfresh, h⟩
    cases before with
    | nil =>
        obtain ⟨rfl, rfl⟩ := List.cons.inj hentries
        exact .inl h
    | cons first others =>
        obtain ⟨rfl, rfl⟩ := List.cons.inj hentries
        obtain ⟨hfirst, heach⟩ := List.forall_mem_cons.mp heach
        obtain ⟨hnew, hdistinct⟩ := List.nodup_cons.mp hdistinct
        obtain ⟨hunseen, hfresh⟩ := List.forall_mem_cons.mp hfresh
        refine .inr ⟨hfirst, hunseen, others, cut, after, rfl, heach, hdistinct, ?_, h⟩
        intro other hother hmem
        rcases List.mem_cons.mp hmem with heq | hmem
        · exact hnew (heq ▸ List.mem_map_of_mem hother)
        · exact hfresh other hother hmem
  · rintro (h | ⟨hfirst, hunseen, before, cut, after, rfl, heach, hdistinct, hfresh, h⟩)
    · exact ⟨[], entry, rest, rfl, by simp, by simp, by simp, h⟩
    · refine ⟨entry :: before, cut, after, rfl, List.forall_mem_cons.mpr ⟨hfirst, heach⟩, ?_, ?_, h⟩
      · refine List.nodup_cons.mpr ⟨fun hmem => ?_, hdistinct⟩
        obtain ⟨other, hother, heq⟩ := List.mem_map.mp hmem
        exact hfresh other hother (heq ▸ List.mem_cons_self)
      · refine List.forall_mem_cons.mpr ⟨hunseen, fun other hother hmem => ?_⟩
        exact hfresh other hother (List.mem_cons_of_mem _ hmem)

mutual

/-- Reading reports what it refuses, unless it is cut short. -/
theorem readBlock_reportsUnless (parent : String) (raw : Value) :
    (readBlock parent raw).ReportsUnless raw.IsCutShort := by
  cases raw with
  | list entries =>
      rw [readBlock]
      exact (readEntries_reportsUnless parent 0 [] entries).congr isCutShort_list_iff.symm
  | _ => exact .of_malformed nofun
termination_by sizeOf raw

theorem readEntries_reportsUnless (parent : String) (count : Nat) (seen : List String)
    (entries : List Value) :
    (readEntries parent count seen entries).ReportsUnless (EntriesCutShort seen entries) := by
  cases entries with
  | nil =>
      refine .of_ok ?_
      rintro ⟨before, _, _, h, _⟩
      cases before <;> cases h
  | cons entry rest =>
      rw [readEntries]
      refine ((readOne_reportsUnless (toString (count + 1)) parent entry).bind
        (fun d hd => ?_) fun h => ?_).congr entriesCutShort_cons_iff.symm
      · obtain ⟨hentry, hstands⟩ := readOne_sound _ parent entry hd
        rw [← name_of_standsFor hstands]
        split
        next hseen => exact .of_malformed fun h => h.2.1 hseen
        next hunseen =>
          refine ((readEntries_reportsUnless parent (count + 1) (d.name :: seen) rest).bind_reports
            fun _ _ => .of_pure _).congr ?_
          exact ⟨fun h => ⟨hentry, hunseen, h⟩, fun h => h.2.2⟩
      · exact readOne_complete _ parent entry h.1
termination_by sizeOf entries

theorem readOne_reportsUnless (ordinal parent : String) (entry : Value) :
    (readOne ordinal parent entry).ReportsUnless entry.CutsShort := by
  cases entry with
  | list parts =>
      rw [readOne]
      exact (readTuple_reportsUnless ordinal parent parts).congr cutsShort_list_iff.symm
  | _ => exact .of_malformed nofun
termination_by sizeOf entry

theorem readTuple_reportsUnless (ordinal parent : String) (parts : List Value) :
    (readTuple ordinal parent parts).ReportsUnless
      (IsUnquotable parts ∨ BlockCutsShort parts) := by
  rcases openTuple_reportsUnless ordinal parent parts with ⟨hquoted, h⟩ | ⟨hquoted, h⟩
  · exact .inl ⟨.inl hquoted, by rw [readTuple, h]; rfl⟩
  refine ReportsUnless.congr ?_ (or_iff_right hquoted).symm
  cases hopening : openTuple ordinal parent parts with
  | error failure =>
      rw [readTuple, hopening]
      refine .of_reports (.of_error (h failure hopening)) ?_
      rintro ⟨_, _, _, _, _, _, _, rfl, hnamed, htyped, hgiven, _, _⟩
      rw [openTuple_of_field hnamed htyped (length_le_one_of_givenOptions hgiven)] at hopening
      cases hopening
  | ok opening =>
      rcases openTuple_parts hopening with
        ⟨kind, name, tag, type, options, hparts, hnamed, htyped, hfew, rfl⟩ |
        ⟨kind, name, reference, target, rfl, hnamed, hrefers, rfl⟩
      · rw [hparts]
        refine ReportsUnless.congr ?_ (blockCutsShort_iff hnamed htyped).symm
        cases hgiven : givenOptions? options with
        | none =>
            rw [readTuple_of_noOptions hnamed htyped hfew hgiven]
            exact .of_malformed (by simp)
        | some members =>
            cases hblock : givenBlock? members with
            | none =>
                rw [readTuple_of_plain hnamed htyped hgiven hblock]
                exact .of_reports (closeField_reports _ _ _ _ _ _) (by simp [hblock])
            | some raw =>
                have hsmaller : sizeOf raw < sizeOf parts := by
                  have hoptions := sizeOf_lt_of_givenBlock hgiven hblock
                  simp only [hparts, List.cons.sizeOf_spec]
                  omega
                rw [readTuple_of_block hnamed htyped hgiven hblock]
                refine ((readBlock_reportsUnless _ raw).bind_reports fun _ _ =>
                  closeField_reports _ _ _ _ _ _).congr ?_
                simp [hblock]
      · rw [readTuple, hopening]
        refine .of_ok ?_
        rintro ⟨_, _, _, _, _, _, _, hparts, hnamed, htyped, hgiven, _, _⟩
        rw [hparts, openTuple_of_field hnamed htyped (length_le_one_of_givenOptions hgiven)]
          at hopening
        cases hopening
termination_by sizeOf parts

end

end Declaration

namespace Compilation

/-! ## Compiling declarations -/

variable {around : Surroundings}

theorem compileEmbed_reports (kind : EmbedKind) (name reference path : String) :
    FailsOnlyWith (Failure.Reports (some path))
      (compileEmbed around.lookup kind name reference path) := by
  unfold compileEmbed
  split
  next => exact .of_error ⟨_, rfl, by simp [Defect.code, Defect.compileCodes], rfl⟩
  next => cases kind <;> exact .of_ok _

/-- The options of a field are JSON data once they are merged, so that they can be written. -/
theorem compileField_reports (hdefaults : around.typeDefaults.IsJson) (parent : String)
    (head : FieldHead) :
    FailsOnlyWith (Failure.Reports (some (joinPath parent head.name)))
      (compileField around parent head) := by
  refine compileField_fails (fun _ h => h) fun ctx hctx key v hv => ?_
  obtain ⟨setting, hsetting⟩ := ((fieldContext_isJson hdefaults hctx).get? hv).toSetting_eq_text
  rw [hsetting]
  exact .of_ok _

mutual

theorem compileOne_reports (hdefaults : around.typeDefaults.IsJson) (parent : String)
    (d : Declaration) : FailsOnlyWith Failure.IsReport (compileOne around parent d) := by
  cases d with
  | field head => exact (compileField_reports hdefaults parent head).isReport
  | block head inner =>
      rw [compileOne]
      refine fieldContext_reports.isReport.bind fun ctx _ => ?_
      refine (keywords_reports _ _).isReport.bind fun _ _ => ?_
      exact (compileAll_reports hdefaults ctx.path inner).bind fun _ _ => .of_pure _
  | embed kind name reference =>
      exact (compileEmbed_reports kind name reference _).isReport
termination_by sizeOf d

theorem compileAll_reports (hdefaults : around.typeDefaults.IsJson) (parent : String)
    (block : List Declaration) :
    FailsOnlyWith Failure.IsReport (compileAll around parent block) := by
  cases block with
  | nil => exact .of_ok _
  | cons d rest =>
      rw [compileAll]
      exact (compileOne_reports hdefaults parent d).bind fun _ _ =>
        (compileAll_reports hdefaults parent rest).bind fun _ _ => .of_pure _
termination_by sizeOf block

end

end Compilation

namespace Schema

/-- Over type defaults that are JSON data, a compilation fails with a report or is cut short. It is
cut short exactly when the reading of its declarations is. -/
theorem compile_failures {around : Surroundings} (hdefaults : around.typeDefaults.IsJson)
    (name : String) (raw : Value) :
    (∀ failure, compile name raw around = .error failure →
      failure.IsReport ∨ failure = .noText) ∧
    (compile name raw around = .error .noText ↔ raw.IsCutShort) := by
  have hcompile : (compile name raw around).ReportsUnless raw.IsCutShort :=
    (Declaration.readBlock_reportsUnless "" raw).bind_reports fun declared _ =>
      (Compilation.compileAll_reports hdefaults "" declared).bind fun _ _ => .of_pure _
  exact ⟨hcompile.failsOnlyWith, hcompile.eq_noText_iff⟩

end Schema

theorem TypeDefaults.builtIn_isJson : builtIn.IsJson :=
  examples_isJson _ _

namespace Schema

/-- Built-in type defaults, no schemas to embed and no overrides. -/
def plainSurroundings : Surroundings where
  lookup := fun _ => none
  typeDefaults := .builtIn
  overrides := []

/-- A block with a field of a kind that cannot write itself. -/
def blockOfUnknownKind : Value :=
  .list [.list [.object true [], .text "email", .text "string"]]

/-- An order whose customer has such a block. -/
def orderOfUnknownKind : Value :=
  .list [
    .list [.text "required", .text "total", .text "decimal"],
    .list [.text "optional", .text "customer", .text "map",
      .object false [("fields", blockOfUnknownKind)]]]

theorem orderOfUnknownKind_isCutShort : orderOfUnknownKind.IsCutShort := by
  have hkind : (Value.object true []).HasNoText := .object rfl rfl rfl
  have hblock : blockOfUnknownKind.IsCutShort :=
    .entry (.list (List.forall_mem_nil _) List.nodup_nil) (.parts (.kind rfl hkind))
  have htotal :
      (Value.list [.list [.text "required", .text "total", .text "decimal"]]).IsDeclarationList :=
    (Declaration.readBlock_sound "" _ rfl).1
  have hmap : (FieldType.scalar .object).IsMeantBy (.text "map") :=
    .scalar (.inr (by simp [ScalarType.aliases]))
  have hgiven : Declaration.givenOptions? [.object false [("fields", blockOfUnknownKind)]] =
      some [("fields", blockOfUnknownKind)] := rfl
  exact .entry htotal (@Value.CutsShort.block .optional _ _ _ _ _ _ rfl hmap hgiven rfl hblock)

theorem orderOfUnknownKind_cut : plainSurroundings.typeDefaults.IsJson ∧
    compile "Order" orderOfUnknownKind plainSurroundings = .error .noText :=
  ⟨TypeDefaults.builtIn_isJson,
    (compile_failures TypeDefaults.builtIn_isJson "Order" orderOfUnknownKind).2.mpr
      orderOfUnknownKind_isCutShort⟩

/-- A field whose type tag is an integer of arbitrary size ends in no report. -/
theorem bigIntTag_notReported :
    ∃ failure, compile "Order" (.list [.list [.text "required", .text "total", .bigInt 10]])
        plainSurroundings = .error failure ∧
      ¬failure.IsReport ∧ failure.kind = "TypeError" := by
  refine ⟨.noText, rfl, ?_, rfl⟩
  rintro ⟨path, h⟩
  exact h.ne_noText rfl

end Schema

end FieldSchema
