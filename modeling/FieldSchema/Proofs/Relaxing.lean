import FieldSchema.Proofs.Overriding

/-!
# Relaxing a required field

A field at any depth is relaxed when its declaration says optional in place of required. Reading raw
declarations and relaxing the field at a position commute.
-/

namespace FieldSchema

open Outcome

/-! ## Changing what stands under a name -/

namespace Record

variable {α β : Type}

/-- Change the values under a name. -/
def modify (r : Record α) (name : String) (f : α → α) : Record α :=
  r.map fun entry => (entry.1, if entry.1 = name then f entry.2 else entry.2)

theorem modify_cons (entry : String × α) (r : Record α) (name : String) (f : α → α) :
    modify (entry :: r) name f =
      (entry.1, if entry.1 = name then f entry.2 else entry.2) :: r.modify name f :=
  rfl

@[simp] theorem names_modify (r : Record α) (name : String) (f : α → α) :
    (r.modify name f).names = r.names := by
  rw [names, modify, List.map_map]
  rfl

theorem get?_modify (r : Record α) (name other : String) (f : α → α) :
    (r.modify name f).get? other = if other = name then (r.get? name).map f else r.get? other := by
  induction r with
  | nil => split <;> rfl
  | cons entry r ih =>
      rw [modify_cons, get?_cons, get?_cons, get?_cons, ih]
      by_cases hother : other = entry.1
      · subst hother
        by_cases hname : entry.1 = name
        · simp [hname]
        · simp [hname]
      · by_cases hname : other = name
        · subst hname
          simp [hother]
        · simp [hother, hname]

theorem erase_modify (r : Record α) (name : String) (f : α → α) :
    (r.modify name f).erase name = r.erase name := by
  induction r with
  | nil => rfl
  | cons entry r ih =>
      rw [modify_cons]
      by_cases hname : entry.1 = name
      · simpa [erase, hname] using ih
      · simpa [erase, hname] using ih

/-- Where no name stands twice, a changed value is one that is overwritten. -/
theorem modify_eq_overwrite {r : Record α} (hnodup : r.names.Nodup) {name : String} {value : α}
    (h : r.get? name = some value) (f : α → α) : r.modify name f = r.overwrite name (f value) := by
  rw [modify, overwrite]
  refine List.map_congr_left fun entry hentry => ?_
  by_cases hname : entry.1 = name
  · have hvalue := get?_of_mem hnodup hentry
    rw [hname, h] at hvalue
    obtain rfl := Option.some.inj hvalue
    simp [hname]
  · simp [hname]

section Related

variable {R : String × α → String × β → Prop}
  (hR : ∀ entry other, R entry other → other.1 = entry.1)

include hR

/-- Related entries divide alike before an array index. -/
theorem forall₂_standsBefore {r : Record α} {s : Record β} (h : List.Forall₂ R r s) (i : Nat) :
    List.Forall₂ R (r.takeWhile (standsBefore i)) (s.takeWhile (standsBefore i)) ∧
      List.Forall₂ R (r.dropWhile (standsBefore i)) (s.dropWhile (standsBefore i)) := by
  induction h with
  | nil => exact ⟨.nil, .nil⟩
  | @cons entry other _ _ hentry hrest ih =>
      have hbefore : standsBefore i other = standsBefore i entry := by
        rw [standsBefore, standsBefore, hR entry other hentry]
      rw [List.takeWhile_cons, List.takeWhile_cons, List.dropWhile_cons, List.dropWhile_cons,
        hbefore]
      cases standsBefore i entry with
      | true => exact ⟨.cons hentry ih.1, ih.2⟩
      | false => exact ⟨.nil, .cons hentry hrest⟩

theorem forall₂_set {r : Record α} {s : Record β} (h : List.Forall₂ R r s) {name : String}
    {value : α} {other : β} (hentry : R (name, value) (name, other)) :
    List.Forall₂ R (r.set name value) (s.set name other) := by
  have hnames : s.names = r.names := by
    induction h with
    | nil => rfl
    | cons hfirst _ ih => exact congrArg₂ List.cons (hR _ _ hfirst) ih
  have hhas : s.has name = r.has name := by
    rw [Bool.eq_iff_iff, has_iff_mem_names, has_iff_mem_names, hnames]
  rw [set, set, hhas]
  split
  next =>
    rw [overwrite, overwrite, List.forall₂_map_left_iff, List.forall₂_map_right_iff]
    refine h.imp fun e f hef => ?_
    rw [hR e f hef]
    split
    next => exact hentry
    next => exact hef
  next =>
    unfold insertNew
    split
    next => exact List.rel_append h (.cons hentry .nil)
    next i _ =>
      obtain ⟨hbefore, hafter⟩ := forall₂_standsBefore hR h i
      exact List.rel_append hbefore (.cons hentry hafter)

/-- Entries that are related one by one are so in enumeration order too. -/
theorem forall₂_ofList {entries : List (String × α)} {others : List (String × β)}
    (h : List.Forall₂ R entries others) : List.Forall₂ R (ofList entries) (ofList others) := by
  suffices hfold : ∀ (r : Record α) (s : Record β), List.Forall₂ R r s →
      List.Forall₂ R (entries.foldl (fun (r : Record α) entry => r.set entry.1 entry.2) r)
        (others.foldl (fun (s : Record β) entry => s.set entry.1 entry.2) s) from hfold [] [] .nil
  induction h with
  | nil => exact fun _ _ hrs => hrs
  | @cons entry other _ _ hentry _ ih =>
      intro r s hrs
      obtain ⟨name, value⟩ := entry
      obtain ⟨_, _⟩ := other
      obtain rfl := hR _ _ hentry
      exact ih _ _ (forall₂_set hR hrs hentry)

end Related

theorem ofList_modify (entries : List (String × α)) (name : String) (f : α → α) :
    ofList (modify entries name f) = (ofList entries).modify name f := by
  let changed (entry : String × α) : String × α :=
    (entry.1, if entry.1 = name then f entry.2 else entry.2)
  have hentries : List.Forall₂ (fun entry other => other = changed entry) entries
      (modify entries name f) := by
    rw [modify, List.forall₂_map_right_iff, List.forall₂_same]
    exact fun _ _ => rfl
  have heq (r s : Record α) (h : List.Forall₂ (fun entry other => other = changed entry) r s) :
      s = r.modify name f := by
    induction h with
    | nil => rfl
    | cons hfirst _ ih => rw [modify_cons, hfirst, ih]
  have hname (entry other : String × α) (h : other = changed entry) : other.1 = entry.1 := by
    rw [h]
  exact heq _ _ (forall₂_ofList hname hentries)

end Record

/-! ## Relaxed declarations -/

namespace Declaration

/-- Change the declarations of a name. -/
def modify (block : List Declaration) (name : String) (f : Declaration → Declaration) :
    List Declaration :=
  block.map fun d => if d.name = name then f d else d

/-- Change the declarations of a name in the inline block. -/
def modifyInner (name : String) (f : Declaration → Declaration) : Declaration → Declaration
  | .block head inner => .block head (modify inner name f)
  | d => d

/-- A field that is declared as optional. -/
def relaxed : Declaration → Declaration
  | .field head => .field { head with kind := .optional }
  | .block head inner => .block { head with kind := .optional } inner
  | .embed kind name reference => .embed kind name reference

/-- A declaration with a field inside it relaxed; at the empty position it is itself relaxed. -/
def relaxedAt (way : List String) : Declaration → Declaration :=
  way.foldr modifyInner relaxed

/-- A block with the field at a position relaxed. -/
def withRelaxed : List String → List Declaration → List Declaration
  | [], declared => declared
  | name :: way, declared => modify declared name (relaxedAt way)

/-- The kind of a declared field. Embeds have none. -/
def kind? : Declaration → Option FieldKind
  | .field head => some head.kind
  | .block head _ => some head.kind
  | .embed _ _ _ => none

end Declaration

namespace Value

/-- The name that a raw declaration gives to its field. -/
def declaredName? : Value → Option String
  | .list (_ :: .text name :: _) => some name
  | _ => none

/-- Change the raw declarations of a name. -/
def modifyDeclared (name : String) (f : Value → Value) : Value → Value
  | .list entries =>
      .list (entries.map fun entry => if entry.declaredName? = some name then f entry else entry)
  | raw => raw

/-- Change the raw declarations of a name in the inline block of a raw declaration. -/
def modifyInner (name : String) (f : Value → Value) : Value → Value
  | .list [kind, own, tag, .object bare members] =>
      .list [kind, own, tag, .object bare (Record.modify members "fields" (modifyDeclared name f))]
  | entry => entry

/-- A raw declaration that says optional in place of its kind. -/
def relaxed : Value → Value
  | .list (_ :: parts) => .list (.text FieldKind.optional.name :: parts)
  | entry => entry

/-- A raw declaration with a field inside it relaxed; at the empty position it is itself relaxed. -/
def relaxedAt (way : List String) : Value → Value :=
  way.foldr modifyInner relaxed

/-- Raw declarations with the field at a position relaxed. -/
def withRelaxed : List String → Value → Value
  | [], raw => raw
  | name :: way, raw => raw.modifyDeclared name (relaxedAt way)

end Value

namespace Declaration

theorem name_relaxedAt (way : List String) (d : Declaration) : (d.relaxedAt way).name = d.name := by
  cases way <;> cases d <;> rfl

/-- Relaxing inside a block relaxes its inline block. -/
theorem relaxedAt_block {way : List String} (hway : way ≠ []) (head : FieldHead)
    (inner : List Declaration) :
    relaxedAt way (.block head inner) = .block head (withRelaxed way inner) := by
  cases way with
  | nil => exact absurd rfl hway
  | cons name way => rfl

theorem modify_cons (d : Declaration) (rest : List Declaration) (name : String)
    (f : Declaration → Declaration) :
    modify (d :: rest) name f = (if d.name = name then f d else d) :: modify rest name f :=
  rfl

/-! ## Reading relaxed declarations -/

section Reading

variable {parent : String}

theorem declaredName?_of_readOne {ordinal : String} {entry : Value} {d : Declaration}
    (h : readOne ordinal parent entry = .ok d) : entry.declaredName? = some d.name := by
  cases entry with
  | list parts =>
      rcases readTuple_cases h with
        ⟨kind, name, tag, type, options, members, block, rfl, _, _, _, _, hclose⟩ |
        ⟨kind, name, reference, target, rfl, rfl⟩
      · obtain ⟨-, -, -, rfl⟩ := closeField_eq_ok_iff.mp hclose
        cases block <;> rfl
      · rfl
  | _ => exact absurd h malformed_ne_ok

/-- An entry is read to a changed declaration when it has the name. -/
theorem readOne_change {ordinal name : String} {change : Value → Value}
    {adapt : Declaration → Declaration} {entry : Value} {d : Declaration}
    (h : readOne ordinal parent entry = .ok d)
    (hone : d.name = name → readOne ordinal parent (change entry) = .ok (adapt d)) :
    readOne ordinal parent (if entry.declaredName? = some name then change entry else entry) =
      .ok (if d.name = name then adapt d else d) := by
  rw [declaredName?_of_readOne h]
  by_cases hname : d.name = name
  · rw [if_pos (congrArg some hname), if_pos hname]
    exact hone hname
  · rw [if_neg fun heq => hname (Option.some.inj heq), if_neg hname]
    exact h

/-- Entries are read to changed declarations when those of the name are. -/
theorem readEntries_modify {name : String} {change : Value → Value}
    {adapt : Declaration → Declaration} (hname : ∀ d, (adapt d).name = d.name)
    {entries : List Value} {count : Nat} {seen : List String} {block : List Declaration}
    (hone : ∀ ordinal entry, ∀ d ∈ block, readOne ordinal parent entry = .ok d → d.name = name →
      readOne ordinal parent (change entry) = .ok (adapt d))
    (h : readEntries parent count seen entries = .ok block) :
    readEntries parent count seen
        (entries.map fun entry => if entry.declaredName? = some name then change entry else entry) =
      .ok (modify block name adapt) := by
  induction entries generalizing count seen block with
  | nil =>
      cases h
      rfl
  | cons entry rest ih =>
      rw [readEntries] at h
      obtain ⟨d, hd, h⟩ := bind_eq_ok.mp h
      split at h
      next => exact absurd h malformed_ne_ok
      next hfresh =>
        obtain ⟨others, hothers, h⟩ := bind_eq_ok.mp h
        obtain rfl := pure_eq_ok.mp h
        have hfirst := readOne_change hd fun hnamed =>
          hone _ entry d List.mem_cons_self hd hnamed
        have hrest := ih (fun ordinal e other hother =>
          hone ordinal e other (List.mem_cons_of_mem _ hother)) hothers
        have hsame : (if d.name = name then adapt d else d).name = d.name := by
          split
          next => exact hname d
          next => rfl
        rw [List.map_cons, readEntries]
        refine bind_eq_ok.mpr ⟨_, hfirst, ?_⟩
        rw [hsame, if_neg hfresh]
        exact bind_eq_ok.mpr ⟨_, hrest, rfl⟩

theorem readOne_relaxed {ordinal : String} {entry : Value} {d : Declaration}
    (h : readOne ordinal parent entry = .ok d) (hkind : d.kind? = some .required) :
    readOne ordinal parent entry.relaxed = .ok d.relaxed := by
  cases entry with
  | list parts =>
      rcases readTuple_cases h with
        ⟨kind, name, tag, type, options, members, block, rfl, hnamed, htyped, hgiven, hblock,
          hclose⟩ |
        ⟨kind, name, reference, target, rfl, rfl⟩
      · obtain ⟨hallowed, hneeded, hlisted, rfl⟩ := closeField_eq_ok_iff.mp hclose
        rw [Value.relaxed, readOne, readTuple_of_field hnamed htyped hgiven]
        refine bind_eq_ok.mpr ⟨block, hblock, ?_⟩
        refine closeField_eq_ok_iff.mpr ⟨hallowed, hneeded, hlisted, ?_⟩
        cases block <;> rfl
      · cases hkind
  | _ => exact absurd h malformed_ne_ok

/-- A block is given among option members. -/
theorem eq_object_of_givenBlock {options : List Value} {members : Record Value} {raw : Value}
    (hgiven : givenOptions? options = some members) (hblock : givenBlock? members = some raw) :
    ∃ bare, options = [.object bare members] := by
  unfold givenOptions? at hgiven
  split at hgiven
  next =>
    obtain rfl := Option.some.inj hgiven
    cases hblock
  next =>
    obtain rfl := Option.some.inj hgiven
    cases hblock
  next bare _ =>
    obtain rfl := Option.some.inj hgiven
    exact ⟨bare, rfl⟩
  next => cases hgiven

theorem isAbsent_modifyDeclared (name : String) (f : Value → Value) (raw : Value) :
    (raw.modifyDeclared name f).isAbsent = raw.isAbsent := by
  cases raw <;> rfl

/-- An inline block is read from what is given for it. -/
theorem exists_givenBlock {path : String} {members : Record Value} {inner : List Declaration}
    (h : readInner path members = .ok (some inner)) :
    ∃ raw, givenBlock? members = some raw ∧ readBlock path raw = .ok inner := by
  rw [readInner_eq_of_givenBlock] at h
  cases hraw : givenBlock? members with
  | none =>
      rw [hraw] at h
      cases h
  | some raw =>
      rw [hraw] at h
      obtain ⟨_, hread, h⟩ := bind_eq_ok.mp h
      obtain rfl := Option.some.inj (pure_eq_ok.mp h)
      exact ⟨raw, rfl, hread⟩

/-- A changed block is given where the block is. -/
theorem givenBlock?_modify {members : Record Value} {raw : Value}
    (h : givenBlock? members = some raw) (name : String) (f : Value → Value) :
    givenBlock? (members.modify "fields" (Value.modifyDeclared name f)) =
      some (raw.modifyDeclared name f) := by
  obtain ⟨hfields, hthere⟩ := givenBlock?_eq_some_iff.mp h
  rw [givenBlock?_eq_some_iff, Record.get?_modify, if_pos rfl, hfields]
  exact ⟨rfl, (isAbsent_modifyDeclared name f raw).trans hthere⟩

/-- A field is read to a changed inline block when the block is. -/
theorem readOne_modifyInner {ordinal name : String} {f : Value → Value} {entry : Value}
    {head : FieldHead} {inner others : List Declaration}
    (h : readOne ordinal parent entry = .ok (.block head inner))
    (hinner : ∀ raw, readBlock (joinPath parent head.name) raw = .ok inner →
      readBlock (joinPath parent head.name) (raw.modifyDeclared name f) = .ok others) :
    readOne ordinal parent (entry.modifyInner name f) = .ok (.block head others) := by
  cases entry with
  | list parts =>
      rcases readTuple_cases h with
        ⟨kind, own, tag, type, options, members, found, rfl, hnamed, htyped, hgiven, hfound,
          hclose⟩ |
        ⟨kind, own, reference, target, rfl, hembed⟩
      · obtain ⟨hallowed, hneeded, hlisted, hsame⟩ := closeField_eq_ok_iff.mp hclose
        cases found with
        | none => cases hsame
        | some found =>
            obtain ⟨rfl, rfl⟩ := Declaration.block.inj hsame
            obtain ⟨raw, hraw, hread⟩ := exists_givenBlock hfound
            obtain ⟨bare, rfl⟩ := eq_object_of_givenBlock hgiven hraw
            rw [Value.modifyInner, readOne, readTuple_of_field hnamed htyped rfl,
              readInner_eq_of_givenBlock, givenBlock?_modify hraw, Record.erase_modify]
            refine bind_eq_ok.mpr ⟨some others, bind_eq_ok.mpr ⟨_, hinner raw hread, rfl⟩, ?_⟩
            rw [closeField_eq_ok_iff]
            exact ⟨hallowed, hneeded, hlisted, rfl⟩
      · cases hembed
  | _ => exact absurd h malformed_ne_ok

/-- Reading and relaxing the field at a position commute. -/
theorem readBlock_withRelaxed {declared : List Declaration} {way : List String} {d : Declaration}
    (hd : StandsAt declared way d) (hkind : d.kind? = some .required) {raw : Value}
    (h : readBlock parent raw = .ok declared) :
    readBlock parent (raw.withRelaxed way) = .ok (withRelaxed way declared) := by
  induction hd generalizing parent raw with
  | @here declared d hmem =>
      have hnodup := (readBlock_isWellFormed parent raw h).nodup_names
      cases raw with
      | list entries =>
          rw [readBlock] at h
          refine readEntries_modify (name_relaxedAt []) (fun ordinal entry e he hread hname => ?_) h
          obtain rfl := List.inj_on_of_nodup_map hnodup he hmem hname
          exact readOne_relaxed hread hkind
      | _ => exact absurd h malformed_ne_ok
  | @inside declared inner head way d hmem hstands ih =>
      have hnodup := (readBlock_isWellFormed parent raw h).nodup_names
      cases raw with
      | list entries =>
          rw [readBlock] at h
          refine readEntries_modify (name_relaxedAt way)
            (fun ordinal entry e he hread hname => ?_) h
          obtain rfl := List.inj_on_of_nodup_map hnodup he hmem hname
          rw [relaxedAt_block hstands.ne_nil]
          -- the way goes on inside, so that the entry keeps its own kind
          cases way with
          | nil => exact absurd rfl hstands.ne_nil
          | cons name way => exact readOne_modifyInner hread fun raw hraw => ih hkind hraw
      | _ => exact absurd h malformed_ne_ok

end Reading

end Declaration

end FieldSchema
