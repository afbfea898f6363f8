import FieldSchema.Proofs.Loading

/-!
# Line ends

The texts of a project may end their lines with a line feed, or with a carriage return before it.
Settings and schema files read the same either way. A title is not recognised before a carriage
return, so that the notes of a text with such line ends are those of its last line alone.
-/

namespace FieldSchema

namespace Text

/-- The characters with a carriage return put before every line feed. -/
def crlfChars : List Char → List Char
  | [] => []
  | c :: rest => if c = '\n' then '\r' :: '\n' :: crlfChars rest else c :: crlfChars rest

/-- The text with a carriage return put before every line feed. -/
def withCrlf (s : String) : String :=
  String.ofList (crlfChars s.toList)

@[simp] theorem crlfChars_nil : crlfChars [] = [] := rfl

@[simp] theorem crlfChars_lineFeed (cs : List Char) :
    crlfChars ('\n' :: cs) = '\r' :: '\n' :: crlfChars cs := rfl

theorem crlfChars_cons {c : Char} (h : c ≠ '\n') (cs : List Char) :
    crlfChars (c :: cs) = c :: crlfChars cs :=
  if_neg h

@[simp] theorem toList_withCrlf (s : String) : (withCrlf s).toList = crlfChars s.toList :=
  String.toList_ofList

/-- The characters up to the first line end stay the same. -/
theorem takeWhile_crlfChars (cs : List Char) :
    (crlfChars cs).takeWhile (fun c => !isLineEnd c) = cs.takeWhile fun c => !isLineEnd c := by
  induction cs with
  | nil => rfl
  | cons c cs ih =>
      by_cases hc : c = '\n'
      · subst hc
        rfl
      · rw [crlfChars_cons hc, List.takeWhile_cons, List.takeWhile_cons, ih]

end Text

/-! ## Schema files -/

namespace Json

/-- Both characters of a line end are taken alike. -/
theorem scanStep?_carriageReturn (state : Scan) : scanStep? state '\r' = scanStep? state '\n' := by
  cases state <;> rfl

theorem begin?_lineFeed : begin? '\n' = some (.between, []) := rfl

/-- After a line feed the scanner is between two tokens. -/
theorem scanStep?_lineFeed {state next : Scan} {tokens : List Token}
    (h : scanStep? state '\n' = some (next, tokens)) : next = .between := by
  cases state with
  | between =>
      obtain ⟨rfl, -⟩ := Prod.mk.inj (Option.some.inj (begin?_lineFeed.symm.trans h))
      rfl
  | word taken =>
      have hletter : ('\n').isAlpha = false := rfl
      simp only [scanStep?, hletter, begin?_lineFeed] at h
      cases hword : wordToken? taken.reverse with
      | none => simp [hword] at h
      | some token => simp_all
  | number taken =>
      have hdigit : isNumberChar '\n' = false := rfl
      simp only [scanStep?, hdigit, begin?_lineFeed] at h
      cases hnumber : numberToken? taken with
      | none => simp [hnumber] at h
      | some token => simp_all
  -- inside a quoted text there is no line feed
  | quoted taken => cases h
  | escape taken => cases h
  | hex taken count value => cases h
  | high taken unit => cases h
  | highEscape taken unit => cases h
  | lowHex taken unit count value => cases h

theorem scanFrom?_crlfChars (state : Scan) (cs : List Char) :
    scanFrom? state (Text.crlfChars cs) = scanFrom? state cs := by
  induction cs generalizing state with
  | nil => rfl
  | cons c cs ih =>
      by_cases hc : c = '\n'
      · subst hc
        rw [Text.crlfChars_lineFeed, scanFrom?, scanFrom?, scanStep?_carriageReturn]
        cases hstep : scanStep? state '\n' with
        | none => rfl
        | some step =>
            obtain ⟨next, tokens⟩ := step
            obtain rfl := scanStep?_lineFeed hstep
            have hagain : scanFrom? .between ('\n' :: Text.crlfChars cs) =
                (scanFrom? .between (Text.crlfChars cs)).map ([] ++ ·) := rfl
            simp [hagain, ih]
      · rw [Text.crlfChars_cons hc, scanFrom?, scanFrom?]
        simp only [ih]

theorem read?_withCrlf (s : String) : read? (Text.withCrlf s) = read? s := by
  simp only [read?, tokens?, Text.toList_withCrlf, scanFrom?_crlfChars]

end Json

theorem SchemaFile.read_withCrlf (content defaultName file : String) :
    SchemaFile.read (Text.withCrlf content) defaultName file =
      SchemaFile.read content defaultName file := by
  simp only [SchemaFile.read, Json.read?_withCrlf]

/-! ## Settings -/

namespace Settings

/-- Neither of the characters that end a line is in a label. -/
def KeepsToLine (label : List Char) : Prop :=
  '\n' ∉ label ∧ '\r' ∉ label

theorem KeepsToLine.tail {l : Char} {label : List Char} (h : KeepsToLine (l :: label)) :
    KeepsToLine label :=
  ⟨List.not_mem_of_not_mem_cons h.1, List.not_mem_of_not_mem_cons h.2⟩

/-- A character that is no letter is compared as it is. -/
theorem toLower_ne {l c : Char} (hc : c.isAlpha = false) (h : l ≠ c) : l.toLower ≠ c.toLower := by
  simp only [Char.isAlpha, Char.isUpper, Char.isLower, Bool.or_eq_false_iff, Bool.and_eq_false_iff,
    decide_eq_false_iff_not, ge_iff_le, UInt32.le_iff_toNat_le] at hc
  have hfirst : ('A').val.toNat = 65 := rfl
  have hlast : ('Z').val.toNat = 90 := rfl
  have hfirstLower : ('a').val.toNat = 97 := rfl
  have hlastLower : ('z').val.toNat = 122 := rfl
  have hshift : ('a'.val - 'A'.val).toNat = 32 := rfl
  have hsame : c.toLower = c := by
    apply dif_neg
    rw [ge_iff_le, UInt32.le_iff_toNat_le, UInt32.le_iff_toNat_le]
    omega
  rw [hsame]
  unfold Char.toLower
  split
  next hupper =>
    intro heq
    have hval := congrArg (fun d : Char => d.val.toNat) heq
    rw [ge_iff_le, UInt32.le_iff_toNat_le, UInt32.le_iff_toNat_le] at hupper
    rw [UInt32.toNat_add] at hval
    omega
  next => exact h

/-- A line end begins no label. -/
theorem afterLabel?_lineEnd {l c : Char} {label : List Char} (h : KeepsToLine (l :: label))
    (hc : c = '\n' ∨ c = '\r') (cs : List Char) : afterLabel? (l :: label) (c :: cs) = none := by
  have hne : l ≠ c := by
    rintro rfl
    rcases hc with rfl | rfl
    · exact h.1 List.mem_cons_self
    · exact h.2 List.mem_cons_self
  have hletter : c.isAlpha = false := by rcases hc with rfl | rfl <;> rfl
  exact if_neg (toLower_ne hletter hne)

theorem afterLabel?_crlfChars {label : List Char} (h : KeepsToLine label) (cs : List Char) :
    afterLabel? label (Text.crlfChars cs) = (afterLabel? label cs).map Text.crlfChars := by
  induction label generalizing cs with
  | nil => rfl
  | cons l label ih =>
      cases cs with
      | nil => rfl
      | cons c cs =>
          by_cases hc : c = '\n'
          · subst hc
            rw [Text.crlfChars_lineFeed, afterLabel?_lineEnd h (.inr rfl),
              afterLabel?_lineEnd h (.inl rfl), Option.map_none]
          · rw [Text.crlfChars_cons hc, afterLabel?, afterLabel?]
            split
            next => exact ih h.tail cs
            next => rfl

theorem lineAfter?_crlfChars {l : Char} {label : List Char} (h : KeepsToLine (l :: label))
    (cs : List Char) : lineAfter? (l :: label) (Text.crlfChars cs) = lineAfter? (l :: label) cs := by
  induction cs with
  | nil => rfl
  | cons c cs ih =>
      by_cases hc : c = '\n'
      · subst hc
        rw [Text.crlfChars_lineFeed, lineAfter?, lineAfter?, lineAfter?]
        rw [afterLabel?_lineEnd h (.inr rfl), afterLabel?_lineEnd h (.inl rfl),
          afterLabel?_lineEnd h (.inl rfl)]
        exact ih
      · have hafter := afterLabel?_crlfChars h (c :: cs)
        rw [Text.crlfChars_cons hc] at hafter ⊢
        rw [lineAfter?, lineAfter?, hafter]
        cases afterLabel? (l :: label) (c :: cs) with
        | none => exact ih
        | some after => simp only [Option.map_some, Text.takeWhile_crlfChars, ih]

theorem value?_withCrlf (content : String) {label : String} (h : KeepsToLine (bold label)) :
    value? (Text.withCrlf content) label = value? content label := by
  have hline : lineAfter? (bold label) (Text.crlfChars content.toList) =
      lineAfter? (bold label) content.toList := by
    cases hbold : bold label with
    | nil =>
        have hlength := congrArg List.length hbold
        simp [bold] at hlength
    | cons l rest => exact lineAfter?_crlfChars (hbold ▸ h) content.toList
  simp only [value?, Text.toList_withCrlf, hline]

theorem keepsToLine_bold {label : String} (h : KeepsToLine label.toList) :
    KeepsToLine (bold label) := by
  have hopening : KeepsToLine "**".toList := by unfold KeepsToLine; decide
  have hclosing : KeepsToLine ":**".toList := by unfold KeepsToLine; decide
  simp only [KeepsToLine, bold, String.toList_append, List.mem_append, not_or]
  exact ⟨⟨⟨hopening.1, h.1⟩, hclosing.1⟩, ⟨hopening.2, h.2⟩, hclosing.2⟩

theorem ofText_withCrlf (content : String) : ofText (Text.withCrlf content) = ofText content := by
  have hdate : KeepsToLine "Date example".toList := by unfold KeepsToLine; decide
  have hdatetime : KeepsToLine "Datetime example".toList := by unfold KeepsToLine; decide
  have hapi : KeepsToLine "API version".toList := by unfold KeepsToLine; decide
  have hformat : KeepsToLine "OpenAPI version".toList := by unfold KeepsToLine; decide
  simp only [ofText, value?_withCrlf content (keepsToLine_bold hdate),
    value?_withCrlf content (keepsToLine_bold hdatetime),
    value?_withCrlf content (keepsToLine_bold hapi),
    value?_withCrlf content (keepsToLine_bold hformat)]

end Settings

/-! ## Notes -/

namespace ProjectNotes

/-- A line that ends in a carriage return is no title. -/
theorem heading?_carriageReturn (line : List Char) : heading? (line ++ ['\r']) = none := by
  unfold heading?
  split
  next rest hline =>
    have hlast : rest.getLast? = some '\r' := by
      cases line with
      | nil => simp at hline
      | cons c line =>
          obtain ⟨-, rfl⟩ := List.cons.inj hline
          exact List.getLast?_concat
    have hparts := List.takeWhile_append_dropWhile (p := Text.isBlank) (l := rest)
    dsimp only
    split
    next hdrop =>
      -- blanks only, and the last of them ends the line
      rw [hdrop, List.append_nil] at hparts
      rw [hparts]
      split
      next last _ _ hreverse =>
        have hend : last = '\r' := by
          rw [← List.head?_reverse, hreverse] at hlast
          exact Option.some.inj hlast
        rw [hend]
        rfl
      next => rfl
    next hne =>
      have hmem : '\r' ∈ rest.dropWhile Text.isBlank := by
        rw [← hparts, List.getLast?_append_of_ne_nil _ hne] at hlast
        exact List.mem_of_getLast? hlast
      have hany : (rest.dropWhile Text.isBlank).any Text.isLineEnd = true :=
        List.any_eq_true.mpr ⟨'\r', hmem, rfl⟩
      rw [hany, Bool.or_true]
      rfl
  next => rfl

/-- The lines of a text whose line feeds have carriage returns before them. -/
def endedLines : List (List Char) → List (List Char)
  | [] => []
  | [last] => [last]
  | line :: next :: rest => (line ++ ['\r']) :: endedLines (next :: rest)

theorem pieces_crlfChars (cs : List Char) :
    Text.pieces '\n' (Text.crlfChars cs) = endedLines (Text.pieces '\n' cs) := by
  induction cs with
  | nil => rfl
  | cons c cs ih =>
      cases hpieces : Text.pieces '\n' cs with
      | nil => exact absurd hpieces (Text.pieces_ne_nil '\n' cs)
      | cons first others =>
          rw [hpieces] at ih
          by_cases hc : c = '\n'
          · subst hc
            simp [Text.pieces, ih, hpieces, endedLines]
          · rw [Text.crlfChars_cons hc]
            simp only [Text.pieces, if_neg hc, ih, hpieces]
            cases others <;> rfl

theorem ofLines_endedLines (lines : List (List Char)) :
    ofLines (endedLines lines) = ofLines lines.getLast?.toList := by
  induction lines using endedLines.induct with
  | case1 => rfl
  | case2 last => rfl
  | case3 line next rest ih =>
      rw [endedLines, ofLines, heading?_carriageReturn, List.getLast?_cons_cons]
      exact ih

/-- The notes that the last line of a text gives alone. -/
def ofLastLine (content : String) : ProjectNotes :=
  ofLines (Text.pieces '\n' content.toList).getLast?.toList

theorem ofText_withCrlf (content : String) :
    ofText (Text.withCrlf content) = ofLastLine content := by
  rw [ofText, Text.toList_withCrlf, pieces_crlfChars, ofLines_endedLines, ofLastLine]

/-- Where no line but the last is a title, the last line gives the notes. -/
theorem ofLastLine_of_no_title {content : String}
    (h : ∀ line ∈ (Text.pieces '\n' content.toList).dropLast, heading? line = none) :
    ofLastLine content = ofText content := by
  have hlines : ∀ lines : List (List Char), (∀ line ∈ lines.dropLast, heading? line = none) →
      ofLines lines.getLast?.toList = ofLines lines := by
    intro lines
    induction lines using endedLines.induct with
    | case1 => exact fun _ => rfl
    | case2 last => exact fun _ => rfl
    | case3 line next rest ih =>
        intro hnone
        rw [List.dropLast_cons_cons, List.forall_mem_cons] at hnone
        have hskipped : ofLines (line :: next :: rest) = ofLines (next :: rest) := by
          rw [ofLines, hnone.1]
        rw [List.getLast?_cons_cons, ih hnone.2, hskipped]
  exact hlines _ h

end ProjectNotes

/-! ## Folders -/

namespace Folder

/-- The folder with every text changed, each according to its path. -/
def mapTexts (f : Folder) (change : Path → String → String) : Folder :=
  { f with files := f.files.map fun file => (file.1, change file.1 file.2) }

theorem read?_mapTexts (f : Folder) (change : Path → String → String) (path : Path) :
    (f.mapTexts change).read? path = (f.read? path).map (change path) := by
  unfold read? mapTexts
  induction f.files with
  | nil => rfl
  | cons file files ih =>
      rw [List.map_cons, List.lookup_cons, List.lookup_cons]
      cases hpath : path == file.1 with
      | true =>
          obtain rfl := eq_of_beq hpath
          rfl
      | false => exact ih

theorem names_mapTexts (f : Folder) (change : Path → String → String) (directory : Path) :
    (f.mapTexts change).names directory = f.names directory := by
  have hpaths : (f.mapTexts change).paths = f.paths := by
    simp [paths, mapTexts, Function.comp_def]
  rw [names, names, hpaths]

end Folder

namespace Project

/-- Whether a path leads to a text of the project in a directory: its notes, its settings, or a JSON
file among its schemas. -/
def isProjectText (root path : Path) : Bool :=
  path = root ++ ["project.md"] || path = root ++ ["config", "compiler.md"] ||
    path.dropLast = root ++ ["schemas"] && ending.isSuffixOf (path.getLastD "").toList

/-- The folder in which the texts of the project have carriage returns before their line feeds. -/
def withCrlf (f : Folder) (root : Path) : Folder :=
  f.mapTexts fun path text => if isProjectText root path then Text.withCrlf text else text

variable (f : Folder) (root : Path)

theorem readSource_withCrlf (name : String) :
    readSource (withCrlf f root) (root ++ ["schemas"]) name =
      readSource f (root ++ ["schemas"]) name := by
  unfold readSource withCrlf
  rw [Folder.read?_mapTexts]
  cases f.read? (root ++ ["schemas"] ++ [name]) with
  | none => rfl
  | some content =>
      dsimp only [Option.map_some]
      split
      next => rw [SchemaFile.read_withCrlf]
      next => rfl

theorem settingsAt_withCrlf : settingsAt (withCrlf f root) root = settingsAt f root := by
  have hproject : isProjectText root (root ++ ["config", "compiler.md"]) = true := by
    simp [isProjectText]
  unfold settingsAt withCrlf
  rw [Folder.read?_mapTexts]
  cases f.read? (root ++ ["config", "compiler.md"]) with
  | none => rfl
  | some content =>
      simp only [hproject, if_true, Option.map_some, Option.getD_some, Settings.ofText_withCrlf]

theorem notesAt_withCrlf :
    notesAt (withCrlf f root) root =
      ((f.read? (root ++ ["project.md"])).map ProjectNotes.ofLastLine).getD {} := by
  have hproject : isProjectText root (root ++ ["project.md"]) = true := by
    simp [isProjectText]
  unfold notesAt withCrlf
  rw [Folder.read?_mapTexts]
  cases f.read? (root ++ ["project.md"]) with
  | none => rfl
  | some content =>
      simp only [hproject, if_true, Option.map_some, Option.getD_some,
        ProjectNotes.ofText_withCrlf]

/-- The project is loaded with other notes, and otherwise goes the same way. -/
theorem load_withCrlf_eq :
    load (withCrlf f root) root =
      ((load f root).1.map fun p => { p with notes := notesAt (withCrlf f root) root },
        (load f root).2) := by
  have hsettings : Settings.ofText
        (((withCrlf f root).read? (root ++ ["config", "compiler.md"])).getD "") =
      Settings.ofText ((f.read? (root ++ ["config", "compiler.md"])).getD "") :=
    settingsAt_withCrlf f root
  have hnames : schemaFileNames (withCrlf f root) (root ++ ["schemas"]) =
      schemaFileNames f (root ++ ["schemas"]) := by
    rw [schemaFileNames, schemaFileNames, withCrlf, Folder.names_mapTexts]
  have hread : readSource (withCrlf f root) (root ++ ["schemas"]) =
      readSource f (root ++ ["schemas"]) := funext (readSource_withCrlf f root)
  dsimp only [load]
  rw [hsettings, hnames, hread]
  cases (schemaFileNames f (root ++ ["schemas"])).mapM (readSource f (root ++ ["schemas"])) with
  | error failure => rfl
  | ok sources =>
      dsimp only
      cases (compileSources _ sources).outcome with
      | error failure => rfl
      | ok _ => rfl

theorem notes_of_load {p : Project} (h : (load f root).1 = .ok p) : p.notes = notesAt f root := by
  obtain ⟨sources, -, -, rfl⟩ := load_eq_ok_iff.mp h
  rfl

/-- How the lines of a project's texts end does not matter to its settings, schemas and sources, to a
failure and to the notices on the way. The whole project is loaded the same exactly when loading
fails or the notes are those that their last line gives alone. -/
theorem load_withCrlf :
    (load (withCrlf f root) root).2 = (load f root).2 ∧
    (∀ failure, (load (withCrlf f root) root).1 = .error failure ↔
      (load f root).1 = .error failure) ∧
    (∀ p, (load f root).1 = .ok p → ∃ q, (load (withCrlf f root) root).1 = .ok q ∧
      q.settings = p.settings ∧ q.registry = p.registry ∧ q.sources = p.sources) ∧
    (load (withCrlf f root) root = load f root ↔
      (∃ failure, (load f root).1 = .error failure) ∨
        ∀ content, f.read? (root ++ ["project.md"]) = some content →
          ProjectNotes.ofLastLine content = ProjectNotes.ofText content) ∧
    ∀ content, (∀ line ∈ (Text.pieces '\n' content.toList).dropLast,
        ProjectNotes.heading? line = none) →
      ProjectNotes.ofLastLine content = ProjectNotes.ofText content := by
  have hload := load_withCrlf_eq f root
  refine ⟨by rw [hload], ?_, ?_, ?_, ?_⟩
  · intro failure
    rw [hload]
    cases (load f root).1 <;> simp [Except.map]
  · intro p hp
    refine ⟨{ p with notes := notesAt (withCrlf f root) root }, ?_, rfl, rfl, rfl⟩
    rw [hload, hp]
    rfl
  · cases hresult : (load f root).1 with
    | error failure =>
        apply iff_of_true
        · rw [hload, hresult]
          exact Prod.ext hresult.symm rfl
        · exact .inl ⟨failure, rfl⟩
    | ok p =>
        have hsame : load (withCrlf f root) root = load f root ↔
            notesAt (withCrlf f root) root = notesAt f root := by
          rw [hload, Prod.ext_iff, hresult]
          simp only [Except.map, Except.ok.injEq, and_true, ← notes_of_load f root hresult]
          constructor
          · intro heq
            exact congrArg Project.notes heq
          · intro hnotes
            rw [hnotes]
        rw [hsame, notesAt_withCrlf, notesAt]
        cases f.read? (root ++ ["project.md"]) <;> simp
  · intro content hnone
    exact ProjectNotes.ofLastLine_of_no_title hnone

/-- A shop with a title, a setting and a schema, whose lines end in line feeds. -/
def shop : Folder where
  files := [
    (["project.md"], "# Shop\nSells things.\n"),
    (["config", "compiler.md"], "**API version:** 2.1.0\n"),
    (["schemas", "item.json"], "\x7b\n\"fields\": [[\"required\", \"code\", \"string\"]]\n\x7d\n")]

/-- With carriage returns the shop loses its title, and with it the description. -/
theorem shop_withCrlf_untitled :
    (∀ file ∈ shop.files, '\r' ∉ file.2.toList) ∧
      (load shop []).1.toOption.map Project.notes = some ⟨"Shop", "Sells things."⟩ ∧
      (load (withCrlf shop []) []).1.toOption.map Project.notes = some ⟨"Untitled API", ""⟩ := by
  refine ⟨by decide, ?_, ?_⟩
  · cbv
  · cbv

/-- The same shop with its title on the last line, which no line feed ends. -/
def lateTitledShop : Folder :=
  { shop with files := (["project.md"], "Sells things.\n# Shop") :: shop.files.tail }

theorem lateTitledShop_withCrlf :
    load (withCrlf lateTitledShop []) [] = load lateTitledShop [] := by
  obtain ⟨-, -, -, hsame, hlast⟩ := load_withCrlf lateTitledShop []
  apply hsame.mpr
  right
  intro content hcontent
  obtain rfl : "Sells things.\n# Shop" = content := Option.some.inj hcontent
  apply hlast
  decide

end Project

end FieldSchema
