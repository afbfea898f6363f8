import FieldSchema.Proofs.DefectPaths
import FieldSchema.Text.Pieces

/-!
# Dotted paths

Overrides and defects refer to a field by its dotted path. The names of a position may contain dots
themselves, so that its path tells no more than the pieces between the dots: two positions have one
path exactly when their names, cut at the dots, give the same pieces. An override reaches the
declarations with its path and no others, and a defect of a compilation names the path of one.
-/

namespace FieldSchema

/-- The pieces between the dots of the names of a position. -/
def piecesOf (way : List String) : List String :=
  way.flatMap (Text.splitAtChar '.')

/-- Two schemas have the same field at a position, fields that are declared inside it aside. -/
structure Schema.SameFieldAt (s t : Schema) (way : List String) (d : Declaration) : Prop where
  notes : (t.documentation.field? way).map Node.notes = (s.documentation.field? way).map Node.notes
  head : (t.rule.field? way).map Rule.head = (s.rule.field? way).map Rule.head
  /-- Without fields inside, all of it is the same. -/
  whole : (∀ head inner, d ≠ .block head inner) →
    t.documentation.field? way = s.documentation.field? way ∧ t.rule.field? way = s.rule.field? way

namespace Text

theorem pieces_append (separator : Char) (cs ds : List Char) :
    pieces separator (cs ++ separator :: ds) = pieces separator cs ++ pieces separator ds := by
  induction cs with
  | nil => simp [pieces]
  | cons c rest ih =>
      rw [List.cons_append, pieces, pieces, ih]
      by_cases hc : c = separator
      · simp [hc]
      · cases hp : pieces separator rest with
        | nil => exact absurd hp (pieces_ne_nil separator rest)
        | cons first others => simp [hc]

theorem pieces_of_not_mem {separator : Char} {cs : List Char} (h : separator ∉ cs) :
    pieces separator cs = [cs] := by
  induction cs with
  | nil => rfl
  | cons c rest ih =>
      obtain ⟨hc, hrest⟩ := not_or.mp (mt List.mem_cons.mpr h)
      rw [pieces, if_neg (Ne.symm hc), ih hrest]

theorem splitAtChar_inj {separator : Char} {s t : String}
    (h : splitAtChar separator s = splitAtChar separator t) : s = t := by
  have hpieces : pieces separator s.toList = pieces separator t.toList := by
    refine List.map_injective_iff.mpr ?_ h
    intro cs ds heq
    exact String.ofList_injective heq
  have hchars := congrArg [separator].intercalate hpieces
  rw [intercalate_pieces, intercalate_pieces] at hchars
  exact String.toList_injective hchars

end Text

/-! ## Positions with one path -/

theorem splitAtChar_joinPath {parent : String} (hparent : parent ≠ "") (name : String) :
    Text.splitAtChar '.' (joinPath parent name) =
      Text.splitAtChar '.' parent ++ Text.splitAtChar '.' name := by
  have hchars : (parent ++ "." ++ name).toList = parent.toList ++ '.' :: name.toList := by simp
  rw [joinPath, if_neg hparent, Text.splitAtChar, hchars, Text.pieces_append, List.map_append]
  rfl

theorem joinPath_ne_empty (parent : String) {name : String} (hname : name ≠ "") :
    joinPath parent name ≠ "" := by
  unfold joinPath
  split
  next => exact hname
  next => simp [hname]

/-- Below a parent the pieces of a path are those of the parent, and then those of the position. -/
theorem splitAtChar_pathOf {parent : String} (hparent : parent ≠ "") {way : List String}
    (hway : ∀ name ∈ way, name ≠ "") :
    Text.splitAtChar '.' (pathOf parent way) = Text.splitAtChar '.' parent ++ piecesOf way := by
  induction way generalizing parent with
  | nil => simp [pathOf, piecesOf]
  | cons name rest ih =>
      have hname := hway name List.mem_cons_self
      have hjoined := ih (joinPath_ne_empty parent hname) fun other hother =>
        hway other (List.mem_cons_of_mem _ hother)
      rw [splitAtChar_joinPath hparent, List.append_assoc] at hjoined
      exact hjoined

theorem splitAtChar_pathOf_root {way : List String} (hne : way ≠ [])
    (hway : ∀ name ∈ way, name ≠ "") :
    Text.splitAtChar '.' (pathOf "" way) = piecesOf way := by
  cases way with
  | nil => exact absurd rfl hne
  | cons name rest =>
      have hname := hway name List.mem_cons_self
      exact splitAtChar_pathOf hname fun other hother => hway other (List.mem_cons_of_mem _ hother)

/-- Two positions have one path exactly when their names have the same pieces. -/
theorem pathOf_eq_iff {way other : List String} (hway : way ≠ []) (hother : other ≠ [])
    (hnames : ∀ name ∈ way, name ≠ "") (hothers : ∀ name ∈ other, name ≠ "") :
    pathOf "" way = pathOf "" other ↔ piecesOf way = piecesOf other := by
  rw [← splitAtChar_pathOf_root hway hnames, ← splitAtChar_pathOf_root hother hothers]
  exact ⟨congrArg _, Text.splitAtChar_inj⟩

theorem piecesOf_of_no_dots {way : List String} (h : ∀ name ∈ way, '.' ∉ name.toList) :
    piecesOf way = way := by
  induction way with
  | nil => rfl
  | cons name rest ih =>
      have hrest := ih fun other hother => h other (List.mem_cons_of_mem _ hother)
      have hname := Text.pieces_of_not_mem (h name List.mem_cons_self)
      rw [piecesOf, List.flatMap_cons, Text.splitAtChar, hname]
      simpa [piecesOf] using hrest

open Outcome

namespace Compilation

/-! ## What overrides reach -/

variable {around : Surroundings} {others : Record Value} {below : String}

theorem fieldContext_of_override {head : FieldHead}
    (h : others.get? (joinPath below head.name) = around.overrides.get? (joinPath below head.name)) :
    fieldContext { around with overrides := others } below head = fieldContext around below head := by
  simp only [fieldContext, h]

/-- Overrides that give a declaration's own path the same options leave the field as it is, the
fields inside it aside. -/
theorem compileOne_of_override {d : Declaration} {field other : CompiledField}
    (h : others.get? (joinPath below d.name) = around.overrides.get? (joinPath below d.name))
    (hfield : compileOne around below d = .ok field)
    (hother : compileOne { around with overrides := others } below d = .ok other) :
    other.node.notes = field.node.notes ∧ other.rule.head = field.rule.head ∧
      ((∀ head inner, d ≠ .block head inner) → other = field) := by
  cases d with
  | field head =>
      have hsame : compileOne { around with overrides := others } below (.field head) =
          compileOne around below (.field head) := by
        rw [compileOne, compileOne, compileField, compileField, fieldContext_of_override h]
      obtain rfl := Except.ok.inj (hother.symm.trans (hsame.trans hfield))
      exact ⟨rfl, rfl, fun _ => rfl⟩
  | block head inner =>
      obtain ⟨ctx, stated, fields, hctx, hstated, _, rfl⟩ := compileBlock_eq_ok.mp hfield
      obtain ⟨otherCtx, otherStated, otherFields, hotherCtx, hotherStated, _, rfl⟩ :=
        compileBlock_eq_ok.mp hother
      rw [fieldContext_of_override h] at hotherCtx
      obtain rfl := Except.ok.inj (hctx.symm.trans hotherCtx)
      obtain rfl := Except.ok.inj (hstated.symm.trans hotherStated)
      refine ⟨?_, ?_, fun hplain => absurd rfl (hplain head inner)⟩
      · cases head.type <;> rfl
      · cases head.type <;> rfl
  | embed kind name reference =>
      rw [compileOne] at hfield hother
      obtain rfl := Except.ok.inj (hother.symm.trans hfield)
      exact ⟨rfl, rfl, fun _ => rfl⟩

end Compilation

namespace Schema

variable {raw : Value} {declared : List Declaration}

theorem compile_sameFieldAt (hread : Declaration.readAll raw = .ok declared) {name : String}
    {around : Surroundings} {others : Record Value} {s t : Schema}
    {notices otherNotices : List Notice} {way : List String} {d : Declaration}
    (hd : Declaration.StandsAt declared way d)
    (hsame : others.get? (pathOf "" way) = around.overrides.get? (pathOf "" way))
    (h : compile name raw around = .ok (s, notices))
    (hother : compile name raw { around with overrides := others } = .ok (t, otherNotices)) :
    s.SameFieldAt t way d := by
  obtain ⟨first, fields, hfirst, hfields, rfl, -⟩ := compile_eq_ok.mp h
  obtain rfl := Except.ok.inj (hread.symm.trans hfirst)
  obtain ⟨second, otherFields, hsecond, hotherFields, rfl, -⟩ := compile_eq_ok.mp hother
  obtain rfl := Except.ok.inj (hread.symm.trans hsecond)
  have hwell := Declaration.readAll_isWellFormed hread
  obtain ⟨field, hfield, hnode, hrule⟩ := Compilation.compileAll_standsAt hd hwell hfields
  obtain ⟨other, hotherField, hotherNode, hotherRule⟩ :=
    Compilation.compileAll_standsAt hd hwell hotherFields
  rw [← hd.joinPath_dropLast] at hsame
  obtain ⟨hnotes, hhead, hwhole⟩ := Compilation.compileOne_of_override hsame hfield hotherField
  have hfirstNode := hnode (rootNode name fields) rfl
  have hsecondNode := hotherNode (rootNode name otherFields) rfl
  have hfirstRule := hrule (ofFields name fields).rule rfl
  have hsecondRule := hotherRule (ofFields name otherFields).rule rfl
  constructor
  case notes =>
    change ((rootNode name otherFields).field? way).map _ = ((rootNode name fields).field? way).map _
    rw [hfirstNode, hsecondNode, Option.map_some, Option.map_some, hnotes]
  case head => rw [hfirstRule, hsecondRule, Option.map_some, Option.map_some, hhead]
  case whole =>
    intro hplain
    obtain rfl := hwhole hplain
    exact ⟨hsecondNode.trans hfirstNode.symm, hsecondRule.trans hfirstRule.symm⟩

theorem pathOf_eq_iff_of_read (hread : Declaration.readAll raw = .ok declared)
    {way other : List String} {d e : Declaration} (hd : Declaration.StandsAt declared way d)
    (he : Declaration.StandsAt declared other e) :
    pathOf "" way = pathOf "" other ↔ piecesOf way = piecesOf other := by
  have hwell := Declaration.readAll_isWellFormed hread
  have hnonempty {place : List String} {f : Declaration}
      (hf : Declaration.StandsAt declared place f) : ∀ name ∈ place, name ≠ "" := by
    rintro name hname rfl
    have hnamed := hf.named hwell "" hname
    exact absurd hnamed (by decide)
  exact pathOf_eq_iff hd.ne_nil he.ne_nil (hnonempty hd) (hnonempty he)

/-- Two declarations have one path exactly when the names of their positions have the same pieces;
where no declared name has a dot, a path is that of one declaration only. An override changes fields
with its path only, and a defect names the path of a declaration. -/
theorem compile_paths (hread : Declaration.readAll raw = .ok declared) :
    (∀ way other d e, Declaration.StandsAt declared way d → Declaration.StandsAt declared other e →
      (pathOf "" way = pathOf "" other ↔ piecesOf way = piecesOf other)) ∧
    ((∀ way d, Declaration.StandsAt declared way d → '.' ∉ d.name.toList) →
      ∀ way other d e, Declaration.StandsAt declared way d →
        Declaration.StandsAt declared other e → pathOf "" way = pathOf "" other →
          way = other ∧ d = e) ∧
    (∀ name around others path s t notices otherNotices,
      (∀ p, p ≠ path → Record.get? others p = around.overrides.get? p) →
      compile name raw around = .ok (s, notices) →
      compile name raw { around with overrides := others } = .ok (t, otherNotices) →
      ∀ way d, Declaration.StandsAt declared way d → pathOf "" way ≠ path →
        s.SameFieldAt t way d) ∧
    ∀ name around defect, compile name raw around = .error (.defect defect) →
      ∃ way d, Declaration.StandsAt declared way d ∧ defect.path = some (pathOf "" way) := by
  refine ⟨fun way other d e => pathOf_eq_iff_of_read hread, ?_, ?_, ?_⟩
  · intro hdots way other d e hd he hpath
    have hpieces := (pathOf_eq_iff_of_read hread hd he).mp hpath
    have hwhole {place : List String} {f : Declaration}
        (hf : Declaration.StandsAt declared place f) : piecesOf place = place := by
      apply piecesOf_of_no_dots
      intro name hname
      obtain ⟨outer, g, hg, rfl⟩ := hf.exists_named hname
      exact hdots outer g hg
    rw [hwhole hd, hwhole he] at hpieces
    subst hpieces
    exact ⟨rfl, he.unique (Declaration.readAll_isWellFormed hread) hd⟩
  · intro name around others path s t notices otherNotices hsame h hother way d hd hpath
    exact compile_sameFieldAt hread hd (hsame _ hpath) h hother
  · intro name around defect h
    rcases bind_eq_error.mp h with h | ⟨other, hother, h⟩
    · exact absurd (hread.symm.trans h) (by simp)
    obtain rfl := Except.ok.inj (hread.symm.trans hother)
    rcases bind_eq_error.mp h with h | ⟨fields, _, h⟩
    · exact Compilation.compileAll_blames "" declared h
    · cases h

/-- A person has a city of birth and an address with a city. -/
def birthAndAddress : Value :=
  .list [
    .list [.text "optional", .text "city", .text "string"],
    .list [.text "required", .text "address", .text "object",
      .object false [("fields", .list [.list [.text "required", .text "city", .text "string"]])]]]

def birthCity : Declaration := .field ⟨.optional, "city", .scalar .string, []⟩

def addressCity : Declaration := .field ⟨.required, "city", .scalar .string, []⟩

def birthAndAddressDeclared : List Declaration :=
  [birthCity, .block ⟨.required, "address", .scalar .object, []⟩ [addressCity]]

/-- Surroundings without schemas to embed, with one override that asks for two letters. -/
def twoLettersAt (path : String) : Surroundings :=
  { alone with overrides := [(path, .object false [("minLength", .number 2)])] }

theorem birthAndAddress_paths :
    ∃ s t, compile "Person" birthAndAddress alone = .ok (s, []) ∧
      compile "Person" birthAndAddress (twoLettersAt "address.city") = .ok (t, []) ∧
      Declaration.StandsAt birthAndAddressDeclared ["city"] birthCity ∧
      Declaration.StandsAt birthAndAddressDeclared ["address", "city"] addressCity ∧
      pathOf "" ["city"] ≠ "address.city" ∧ s.SameFieldAt t ["city"] birthCity := by
  have hread : Declaration.readAll birthAndAddress = .ok birthAndAddressDeclared := rfl
  obtain ⟨s, hs⟩ : ∃ s, compile "Person" birthAndAddress alone = .ok (s, []) := ⟨_, rfl⟩
  obtain ⟨t, ht⟩ : ∃ t,
      compile "Person" birthAndAddress (twoLettersAt "address.city") = .ok (t, []) := ⟨_, rfl⟩
  have hbirth : Declaration.StandsAt birthAndAddressDeclared ["city"] birthCity :=
    .here List.mem_cons_self
  have haddress : Declaration.StandsAt birthAndAddressDeclared ["address", "city"] addressCity :=
    .inside (List.mem_cons_of_mem _ List.mem_cons_self) (.here List.mem_cons_self)
  have hpath : pathOf "" ["city"] ≠ "address.city" := by decide
  obtain ⟨_, _, hoverride, _⟩ := compile_paths hread
  have hsame : ∀ p, p ≠ "address.city" →
      Record.get? (twoLettersAt "address.city").overrides p = alone.overrides.get? p := by
    intro p hp
    simp [twoLettersAt, alone, Record.get?_cons, hp]
  exact ⟨s, t, hs, ht, hbirth, haddress, hpath,
    hoverride _ _ _ _ _ _ _ _ hsame hs ht _ _ hbirth hpath⟩

/-- A team whose captain's code is declared twice: under a name with a dot, and inside the captain. -/
def dottedTeam : Value :=
  .list [
    .list [.text "required", .text "captain.code", .text "string"],
    .list [.text "required", .text "captain", .text "object",
      .object false [("fields", .list [.list [.text "required", .text "code", .text "string"]])]]]

def dottedCode : Declaration := .field ⟨.required, "captain.code", .scalar .string, []⟩

def innerCode : Declaration := .field ⟨.required, "code", .scalar .string, []⟩

def dottedTeamDeclared : List Declaration :=
  [dottedCode, .block ⟨.required, "captain", .scalar .object, []⟩ [innerCode]]

/-- Two declarations have one path, and one override reaches both. -/
theorem dottedTeam_shares_path :
    ∃ s t, Declaration.readAll dottedTeam = .ok dottedTeamDeclared ∧
      Declaration.StandsAt dottedTeamDeclared ["captain.code"] dottedCode ∧
      Declaration.StandsAt dottedTeamDeclared ["captain", "code"] innerCode ∧
      pathOf "" ["captain.code"] = pathOf "" ["captain", "code"] ∧
      compile "Team" dottedTeam alone = .ok (s, []) ∧
      compile "Team" dottedTeam (twoLettersAt "captain.code") = .ok (t, []) ∧
      s.rule.field? ["captain.code"] = some (.plain ⟨"captain.code", .string, true, {}⟩) ∧
      s.rule.field? ["captain", "code"] = some (.plain ⟨"code", .string, true, {}⟩) ∧
      t.rule.field? ["captain.code"] =
        some (.plain ⟨"captain.code", .string, true, { minLength := some 2 }⟩) ∧
      t.rule.field? ["captain", "code"] =
        some (.plain ⟨"code", .string, true, { minLength := some 2 }⟩) := by
  refine ⟨_, _, rfl, .here List.mem_cons_self,
    .inside (List.mem_cons_of_mem _ List.mem_cons_self) (.here List.mem_cons_self), by decide,
    rfl, rfl, ?_, ?_, ?_, ?_⟩
  · rfl
  · rfl
  · rfl
  · rfl

end Schema

end FieldSchema
