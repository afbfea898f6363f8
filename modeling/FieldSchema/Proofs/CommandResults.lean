import Mathlib
import FieldSchema.CommandLine
import FieldSchema.Proofs.Loading
import FieldSchema.Proofs.TakenData

/-!
# Results of commands

A command first works out its result in full and publishes it then: it prints, or it writes a file.
Whatever fails on the way, reading files, compiling schemas or writing out a value, leaves nothing
printed and no file changed. A validation publishes its verdict, and it has a text, because what is
accepted of JSON data and the errors of what is rejected are JSON data.
-/

namespace FieldSchema

namespace CommandLine

/-- A run has printed and written nothing in the meantime. It may have reported something. -/
structure Console.NothingPublished (before after : Console) : Prop where
  folder : after.folder = before.folder
  printed : after.printed = before.printed

namespace Console.NothingPublished

variable {before between after : Console}

theorem refl (c : Console) : c.NothingPublished c :=
  ⟨rfl, rfl⟩

theorem trans (h : before.NothingPublished between) (hnext : between.NothingPublished after) :
    before.NothingPublished after :=
  ⟨hnext.folder.trans h.folder, hnext.printed.trans h.printed⟩

end Console.NothingPublished

/-! ## Jobs -/

namespace Job

variable {α β : Type}

/-- What a job comes to on a console. -/
def on (job : Job α) (c : Console) : Outcome α × Console :=
  job.run.run c

theorem on_pure (a : α) (c : Console) : on (pure a) c = (.ok a, c) := rfl

theorem on_get (c : Console) : on get c = (.ok c, c) := rfl

theorem on_ofOutcome (outcome : Outcome α) (c : Console) :
    on (ofOutcome outcome) c = (outcome, c) := by
  cases outcome <;> rfl

theorem on_bind (job : Job α) (next : α → Job β) (c : Console) :
    on (job >>= next) c = match job.on c with
      | (.ok a, between) => (next a).on between
      | (.error failure, between) => (.error failure, between) := by
  unfold on
  simp only [ExceptT.run_bind, StateT.run_bind]
  rcases job.run.run c with ⟨_ | _, _⟩ <;> rfl

/-- A job comes to what the folder says, and publishes nothing. -/
def IsQuiet (job : Job α) (outcomeIn : Folder → Outcome α) : Prop :=
  ∀ c, ∃ after, job.on c = (outcomeIn c.folder, after) ∧ c.NothingPublished after

/-- Where a job fails, it has published nothing. -/
def Withholds (job : Job α) : Prop :=
  ∀ c failure after, job.on c = (.error failure, after) → c.NothingPublished after

theorem isQuiet_ofOutcome (outcome : Outcome α) : (ofOutcome outcome).IsQuiet fun _ => outcome :=
  fun c => ⟨c, on_ofOutcome outcome c, .refl c⟩

theorem isQuiet_reportText (text : String) : (reportText text).IsQuiet fun _ => .ok () :=
  fun _ => ⟨_, rfl, ⟨rfl, rfl⟩⟩

/-- A job that begins by looking at the folder. -/
theorem isQuiet_get_bind {next : Console → Job α} {outcomeIn : Folder → Outcome α}
    (h : ∀ c, (next c).IsQuiet fun _ => outcomeIn c.folder) : (get >>= next).IsQuiet outcomeIn := by
  intro c
  obtain ⟨after, hafter, hnothing⟩ := h c c
  refine ⟨after, ?_, hnothing⟩
  rw [on_bind, on_get]
  exact hafter

theorem IsQuiet.congr {job : Job α} {outcomeIn other : Folder → Outcome α}
    (h : job.IsQuiet outcomeIn) (heq : ∀ f, outcomeIn f = other f) : job.IsQuiet other :=
  funext heq ▸ h

section Quiet

variable {job : Job α} {outcomeIn : Folder → Outcome α} {next : α → Job β}

theorem IsQuiet.on_bind_of_ok (h : job.IsQuiet outcomeIn) {c : Console} {a : α}
    (ha : outcomeIn c.folder = .ok a) :
    ∃ between, on (job >>= next) c = (next a).on between ∧ c.NothingPublished between := by
  obtain ⟨between, hon, hnothing⟩ := h c
  refine ⟨between, ?_, hnothing⟩
  rw [on_bind, hon, ha]

theorem IsQuiet.on_bind_of_error (h : job.IsQuiet outcomeIn) {c : Console} {failure : Failure}
    (hfailure : outcomeIn c.folder = .error failure) :
    ∃ after, on (job >>= next) c = (.error failure, after) ∧ c.NothingPublished after := by
  obtain ⟨after, hon, hnothing⟩ := h c
  refine ⟨after, ?_, hnothing⟩
  rw [on_bind, hon, hfailure]

theorem IsQuiet.bind (h : job.IsQuiet outcomeIn) {outcomesIn : α → Folder → Outcome β}
    (hnext : ∀ a, (next a).IsQuiet (outcomesIn a)) :
    (job >>= next).IsQuiet fun f => outcomeIn f >>= fun a => outcomesIn a f := by
  intro c
  cases houtcome : outcomeIn c.folder with
  | error failure =>
      obtain ⟨after, hon, hnothing⟩ := h.on_bind_of_error houtcome
      refine ⟨after, ?_, hnothing⟩
      dsimp only
      rw [hon, houtcome]
      rfl
  | ok a =>
      obtain ⟨between, hon, hnothing⟩ := h.on_bind_of_ok houtcome
      obtain ⟨after, hafter, hrest⟩ := hnext a between
      refine ⟨after, ?_, hnothing.trans hrest⟩
      -- nothing has been written in between, so the second job finds the same folder
      dsimp only
      rw [hon, hafter, hnothing.folder, houtcome]
      rfl

/-- A quiet job that comes to nothing in particular may go before another one. -/
theorem IsQuiet.before {first : Job Unit} (hfirst : first.IsQuiet fun _ => .ok ())
    {next : Unit → Job α} (h : (next ()).IsQuiet outcomeIn) :
    (first >>= next).IsQuiet outcomeIn :=
  hfirst.bind fun _ => h

theorem IsQuiet.map (h : job.IsQuiet outcomeIn) (f : α → β) :
    IsQuiet (job >>= fun a => pure (f a)) fun folder => (outcomeIn folder).map f :=
  h.bind fun a c => ⟨c, on_pure (f a) c, .refl c⟩

/-- What a quiet job prepares may be published in the end. -/
theorem IsQuiet.bind_withholds (h : job.IsQuiet outcomeIn) (hnext : ∀ a, (next a).Withholds) :
    (job >>= next).Withholds := by
  intro c failure after hafter
  cases houtcome : outcomeIn c.folder with
  | error other =>
      obtain ⟨between, hon, hnothing⟩ := h.on_bind_of_error houtcome
      obtain ⟨-, rfl⟩ := Prod.mk.inj (hon.symm.trans hafter)
      exact hnothing
  | ok a =>
      obtain ⟨between, hon, hnothing⟩ := h.on_bind_of_ok houtcome
      exact hnothing.trans (hnext a between failure after (hon.symm.trans hafter))

end Quiet

/-- A job that can come to no failure any more. -/
def NeverFails (job : Job α) : Prop :=
  ∀ c, ∃ a after, job.on c = (.ok a, after)

/-- A job comes to nothing else than a value, unless it fails. -/
def Yields (job : Job α) (a : α) : Prop :=
  ∀ c found after, job.on c = (.ok found, after) → found = a

theorem NeverFails.withholds {job : Job α} (h : job.NeverFails) : job.Withholds := by
  intro c failure after hafter
  obtain ⟨a, later, hlater⟩ := h c
  cases hlater.symm.trans hafter

theorem NeverFails.bind {job : Job α} {next : α → Job β} (h : job.NeverFails)
    (hnext : ∀ a, (next a).NeverFails) : (job >>= next).NeverFails := by
  intro c
  obtain ⟨a, between, hbetween⟩ := h c
  obtain ⟨b, after, hafter⟩ := hnext a between
  refine ⟨b, after, ?_⟩
  rw [on_bind, hbetween]
  exact hafter

theorem neverFails_pure (a : α) : NeverFails (pure a) :=
  fun c => ⟨a, c, rfl⟩

theorem yields_pure (a : α) : Yields (pure a) a := by
  rintro c found after ⟨⟩
  rfl

theorem yields_bind {job : Job α} {next : α → Job β} {b : β} (h : ∀ a, (next a).Yields b) :
    (job >>= next).Yields b := by
  intro c found after hafter
  rw [on_bind] at hafter
  split at hafter
  next a between _ => exact h a between found after hafter
  next => cases hafter

end Job

open Job

/-! ## Commands in stages -/

/-- The text of a file, or the failure to read it. -/
def textAt (f : Folder) (path : Path) : Outcome String :=
  match f.read? path with
  | some content => .ok content
  | none => .error .fileAccess

theorem isQuiet_readFile (path : Path) : (readFile path).IsQuiet (textAt · path) := by
  refine isQuiet_get_bind fun c => ?_
  unfold textAt
  cases c.folder.read? path with
  | some content => exact isQuiet_ofOutcome (.ok content)
  | none => exact isQuiet_ofOutcome (.error .fileAccess)

theorem isQuiet_reports (notices : List Notice) :
    IsQuiet (notices.forM fun notice => reportText notice.line) fun _ => .ok () := by
  induction notices with
  | nil => exact fun c => ⟨c, rfl, .refl c⟩
  | cons notice rest ih => exact (isQuiet_reportText notice.line).bind fun _ => ih

/-- To open a project is to load it. -/
theorem isQuiet_openProject (root : Path) :
    (openProject root).IsQuiet fun f => (Project.load f root).1 := by
  refine (isQuiet_reportText _).before (isQuiet_get_bind fun c => ?_)
  refine (isQuiet_reports _).before ?_
  refine IsQuiet.congr (IsQuiet.bind (isQuiet_ofOutcome (Project.load c.folder root).1) fun p =>
    (isQuiet_reportText _).map fun _ => p) fun _ => ?_
  exact bind_pure _

theorem isQuiet_jsonText (v : Value) :
    (jsonText v).IsQuiet fun _ => (Json.indented? v).map (·.getD "undefined") :=
  (isQuiet_ofOutcome _).map _

/-- Work out the verdict on a file. -/
def judgeFile (root : Path) (schemaName : String) (inputPath : Path) : Job Verdict := do
  let project ← openProject root
  let input ← ofOutcome (Json.read (← readFile inputPath))
  let schema ← ofOutcome (project.registry.lookup schemaName)
  ofOutcome (schema.descriptor.judge input)

/-- The value that is printed for a verdict. -/
def shownFor : Verdict → Value
  | .accepted value => value
  | .rejected errors => .object false [("errors", errors.toValue)]

/-- The exit code for a verdict. -/
def codeFor : Verdict → Nat
  | .accepted _ => 0
  | .rejected _ => 1

/-- Print a verdict. -/
def publishVerdict (verdict : Verdict) : Job Nat := do
  printText (← jsonText (shownFor verdict))
  return codeFor verdict

theorem validate_eq (root : Path) (schemaName : String) (inputPath : Path) :
    validate root schemaName inputPath =
      judgeFile root schemaName inputPath >>= publishVerdict := by
  unfold validate judgeFile
  -- both go the same way up to the verdict, and only there they tell its cases apart
  simp only [bind_assoc]
  refine bind_congr fun p => bind_congr fun content => bind_congr fun input => ?_
  refine bind_congr fun s => bind_congr fun verdict => ?_
  cases verdict <;> rfl

/-- The verdict that the schema of a name in a project gives on a file of a folder. -/
def verdictIn (f : Folder) (root : Path) (schemaName : String) (inputPath : Path) :
    Outcome Verdict := do
  let project ← (Project.load f root).1
  let input ← Json.read (← textAt f inputPath)
  let schema ← project.registry.lookup schemaName
  schema.descriptor.judge input

theorem isQuiet_judgeFile (root : Path) (schemaName : String) (inputPath : Path) :
    (judgeFile root schemaName inputPath).IsQuiet fun f =>
      verdictIn f root schemaName inputPath :=
  (isQuiet_openProject root).bind fun _ => (isQuiet_readFile inputPath).bind fun _ =>
    (isQuiet_ofOutcome _).bind fun _ => (isQuiet_ofOutcome _).bind fun _ => isQuiet_ofOutcome _

theorem neverFails_printText (text : String) : (printText text).NeverFails :=
  fun _ => ⟨(), _, rfl⟩

theorem neverFails_reportText (text : String) : (reportText text).NeverFails :=
  fun _ => ⟨(), _, rfl⟩

theorem neverFails_printAll (texts : List String) : (texts.forM printText).NeverFails := by
  induction texts with
  | nil => exact neverFails_pure _
  | cons text rest ih => exact (neverFails_printText text).bind fun _ => ih

theorem on_jsonText {v : Value} {text : String} (h : Json.indented? v = .ok (some text))
    (c : Console) : (jsonText v).on c = (.ok text, c) := by
  unfold jsonText
  rw [on_bind, on_ofOutcome, h]
  rfl

/-- A verdict that is shown as JSON data is printed, and nothing goes wrong. -/
theorem on_publishVerdict {verdict : Verdict} (hjson : (shownFor verdict).IsJson) (c : Console) :
    ∃ text, Json.indented? (shownFor verdict) = .ok (some text) ∧
      (publishVerdict verdict).on c =
        (.ok (codeFor verdict), { c with printed := c.printed ++ [text] }) := by
  obtain ⟨text, htext⟩ := hjson.write_eq_some (.indented 2) 0
  refine ⟨text, htext, ?_⟩
  unfold publishVerdict
  rw [on_bind, on_jsonText htext]
  rfl

theorem publishVerdict_withholds (verdict : Verdict) : (publishVerdict verdict).Withholds :=
  (isQuiet_jsonText _).bind_withholds fun text =>
    ((neverFails_printText text).bind fun _ => neverFails_pure _).withholds

theorem on_writeFile (path : Path) (text : String) (c : Console) :
    (writeFile path text).on c = match c.folder.write? path text with
      | some folder => (.ok (), { c with folder })
      | none => (.error .fileAccess, c) := by
  unfold writeFile
  rw [on_bind, on_get]
  dsimp only
  cases c.folder.write? path text <;> rfl

/-- A file that cannot be written is left as it is. -/
theorem writeFile_bind_withholds {α : Type} (path : Path) (text : String) {next : Unit → Job α}
    (hnext : (next ()).NeverFails) : (writeFile path text >>= next).Withholds := by
  intro c failure after hafter
  rw [on_bind, on_writeFile] at hafter
  cases hwritten : c.folder.write? path text with
  | none =>
      rw [hwritten] at hafter
      obtain ⟨-, rfl⟩ := Prod.mk.inj hafter
      exact .refl c
  | some folder =>
      -- once the file is there, nothing may fail any more
      rw [hwritten] at hafter
      obtain ⟨a, later, hlater⟩ := hnext { c with folder }
      cases hlater.symm.trans hafter

theorem compile_withholds (root : Path) (out : Option Path) : (compile root out).Withholds := by
  refine (isQuiet_openProject root).bind_withholds fun p => ?_
  refine (isQuiet_ofOutcome _).bind_withholds fun document => ?_
  refine (isQuiet_jsonText document).bind_withholds fun json => ?_
  cases out with
  | some path =>
      exact writeFile_bind_withholds path _
        ((neverFails_reportText _).bind fun _ => neverFails_pure 0)
  | none => exact ((neverFails_printText json).bind fun _ => neverFails_pure 0).withholds

theorem compile_yields (root : Path) (out : Option Path) : (compile root out).Yields 0 := by
  refine yields_bind fun p => yields_bind fun document => yields_bind fun json => ?_
  cases out with
  | some path => exact yields_bind fun _ => yields_bind fun _ => yields_pure 0
  | none => exact yields_bind fun _ => yields_pure 0

theorem listSchemas_withholds (root : Path) : (listSchemas root).Withholds :=
  (isQuiet_openProject root).bind_withholds fun _ =>
    ((neverFails_printAll _).bind fun _ => neverFails_pure 0).withholds

theorem listSchemas_yields (root : Path) : (listSchemas root).Yields 0 :=
  yields_bind fun _ => yields_bind fun _ => yields_pure 0

theorem validate_withholds (root : Path) (schemaName : String) (inputPath : Path) :
    (validate root schemaName inputPath).Withholds := by
  rw [validate_eq]
  exact (isQuiet_judgeFile root schemaName inputPath).bind_withholds publishVerdict_withholds

theorem isQuiet_validateUsage : runCommand.validateUsage.IsQuiet fun _ => .ok 1 :=
  (isQuiet_reportText _).map fun _ => 1

theorem neverFails_printUsage (code : Nat) : (printUsage code).NeverFails :=
  (neverFails_printText usage).bind fun _ => neverFails_pure code

theorem runCommand_withholds (cwd : Path) (command project : String) (arguments : List String) :
    (runCommand cwd command project arguments).Withholds := by
  have husage : runCommand.validateUsage.NeverFails :=
    (neverFails_reportText _).bind fun _ => neverFails_pure 1
  unfold runCommand
  dsimp only
  split
  next => exact compile_withholds _ _
  next => exact listSchemas_withholds _
  next =>
    split
    next =>
      split
      next => exact husage.withholds
      next => exact validate_withholds _ _ _
    next => exact husage.withholds
  next => exact ((neverFails_reportText _).bind fun _ => neverFails_printUsage 1).withholds

/-- Whatever the arguments are, what fails has published nothing. -/
theorem dispatch_withholds (cwd : Path) (arguments : List String) :
    (dispatch cwd arguments).Withholds := by
  unfold dispatch
  split
  next => exact (neverFails_printUsage 0).withholds
  next =>
    split
    next => exact (neverFails_printUsage 0).withholds
    next =>
      split
      next => exact ((neverFails_printText _).bind fun _ => neverFails_pure 0).withholds
      next =>
        split
        next =>
          split
          next => exact (neverFails_printUsage 1).withholds
          next => exact runCommand_withholds _ _ _ _
        next => exact (neverFails_printUsage 1).withholds

end CommandLine

/-! ## Schemas of loaded projects -/

theorem SchemaFile.readName_ne_empty {file defaultName name : String} {v : Value}
    (h : readName file defaultName v = .ok name) : name ≠ "" := by
  unfold readName at h
  split at h
  next =>
    split at h
    next => cases h
    next hne =>
      obtain rfl := Except.ok.inj h
      exact hne
  next => cases h

theorem SchemaFile.name_ne_empty {content defaultName file : String} {found : SchemaFile}
    (h : read content defaultName file = .ok found) : found.name ≠ "" := by
  unfold read at h
  split at h
  next => cases h
  next data _ =>
    dsimp only at h
    split at h
    next => cases h
    next =>
      obtain ⟨name, hname, h⟩ := Outcome.bind_eq_ok.mp h
      split at h
      next => cases h
      next =>
        obtain ⟨overrides, _, h⟩ := Outcome.bind_eq_ok.mp h
        obtain rfl := Outcome.pure_eq_ok.mp h
        exact readName_ne_empty hname

theorem Settings.typeDefaults_isJson (s : Settings) : s.typeDefaults.IsJson :=
  TypeDefaults.examples_isJson _ _

namespace Project

variable {f : Folder} {root : Path} {p : Project}

/-- The settings of a project give texts only, so that every default in it is JSON data. -/
theorem hasJsonDefaults_of_load (hload : (load f root).1 = .ok p) {name : String} {s : Schema}
    (hs : p.registry.get? name = some s) : s.descriptor.HasJsonDefaults := by
  obtain ⟨sources, hsources⟩ := (load_succeeds_iff f root).mp ⟨p, hload⟩
  have hanswers := (isLoadedFrom hload hsources).answers
  rw [hanswers.entries] at hs
  exact Session.run_hasJsonDefaults (settingsAt f root).typeDefaults_isJson _ hs

/-- Schema files give no empty name. -/
theorem get?_empty_of_load (hload : (load f root).1 = .ok p) : p.registry.get? "" = none := by
  obtain ⟨sources, hsources⟩ := (load_succeeds_iff f root).mp ⟨p, hload⟩
  cases hs : p.registry.get? "" with
  | none => rfl
  | some s =>
      have hmem : "" ∈ p.registry.names :=
        (p.registry.schemas.isSome_get?_iff "").mp (Option.isSome_of_eq_some hs)
      obtain ⟨before, source, after, _, rfl, hname, -⟩ :=
        (isLoadedFrom hload hsources).latest "" hmem
      obtain ⟨file, _, ⟨content, -, hread, -⟩, -⟩ :=
        List.forall₂_cons_right_iff.mp (List.forall₂_drop_append _ _ _ hsources.read)
      exact absurd hname (SchemaFile.name_ne_empty hread)

end Project

theorem Json.read_eq_ok_iff {s : String} {v : Value} : read s = .ok v ↔ read? s = some v := by
  unfold read
  cases read? s <;> simp

theorem Registry.lookup_eq_ok_iff {r : Registry} {name : String} {s : Schema} :
    r.lookup name = .ok s ↔ r.get? name = some s := by
  unfold lookup
  cases r.get? name <;> simp

namespace CommandLine

open Job

/-! ## Verdicts on files -/

/-- An argument names a file with a JSON text, which spells this value. An empty argument names no
file. -/
def NamesJson (cwd : Path) (f : Folder) (input : String) (x : Value) : Prop :=
  input ≠ "" ∧ ∃ content, f.read? (Path.resolve cwd input) = some content ∧
    Json.read? content = some x

/-- The project in a directory loads and holds a schema of a name, whose descriptor gives a verdict
on the JSON value in the file that an argument names. -/
def GivesVerdict (cwd : Path) (f : Folder) (root : Path) (schema input : String)
    (verdict : Verdict) : Prop :=
  ∃ p s x, (Project.load f root).1 = .ok p ∧ p.registry.get? schema = some s ∧
    NamesJson cwd f input x ∧ s.descriptor.judge x = .ok verdict

theorem textAt_eq_ok_iff {f : Folder} {path : Path} {content : String} :
    textAt f path = .ok content ↔ f.read? path = some content := by
  unfold textAt
  cases f.read? path <;> simp

theorem verdictIn_eq_ok_iff {f : Folder} {root : Path} {schema : String} {path : Path}
    {verdict : Verdict} :
    verdictIn f root schema path = .ok verdict ↔
      ∃ p, (Project.load f root).1 = .ok p ∧ ∃ content, f.read? path = some content ∧
        ∃ x, Json.read? content = some x ∧ ∃ s, p.registry.get? schema = some s ∧
          s.descriptor.judge x = .ok verdict := by
  simp only [verdictIn, Outcome.bind_eq_ok, textAt_eq_ok_iff, Json.read_eq_ok_iff,
    Registry.lookup_eq_ok_iff]

theorem givesVerdict_iff {cwd : Path} {f : Folder} {root : Path} {schema input : String}
    (hinput : input ≠ "") {verdict : Verdict} :
    GivesVerdict cwd f root schema input verdict ↔
      verdictIn f root schema (Path.resolve cwd input) = .ok verdict := by
  rw [verdictIn_eq_ok_iff]
  constructor
  · rintro ⟨p, s, x, hload, hs, ⟨-, content, hcontent, hx⟩, hjudge⟩
    exact ⟨p, hload, content, hcontent, x, hx, s, hs, hjudge⟩
  · rintro ⟨p, hload, content, hcontent, x, hx, s, hs, hjudge⟩
    exact ⟨p, s, x, hload, hs, ⟨hinput, content, hcontent, hx⟩, hjudge⟩

namespace GivesVerdict

variable {cwd : Path} {f : Folder} {root : Path} {schema input : String} {verdict other : Verdict}

theorem unique (h : GivesVerdict cwd f root schema input verdict)
    (hother : GivesVerdict cwd f root schema input other) : verdict = other := by
  have hinput : input ≠ "" := by
    obtain ⟨_, _, _, _, _, hnamed, _⟩ := h
    exact hnamed.1
  rw [givesVerdict_iff hinput] at h hother
  exact Except.ok.inj (h.symm.trans hother)

/-- What is printed for a verdict is JSON data. -/
theorem shownFor_isJson (h : GivesVerdict cwd f root schema input verdict) :
    (shownFor verdict).IsJson := by
  obtain ⟨p, s, x, hload, hs, ⟨-, content, -, hx⟩, hjudge⟩ := h
  cases verdict with
  | accepted value =>
      exact (Project.hasJsonDefaults_of_load hload hs).judge (Json.read?_isPlainJson hx).json hjudge
  | rejected errors =>
      exact .object (List.forall_mem_singleton.mpr errors.toValue_isJson)

/-- No schema has an empty name. -/
theorem schema_ne_empty (h : GivesVerdict cwd f root schema input verdict) : schema ≠ "" := by
  rintro rfl
  obtain ⟨p, s, x, hload, hs, -⟩ := h
  rw [Project.get?_empty_of_load hload] at hs
  cases hs

end GivesVerdict

/-! ## Runs -/

/-- A run ended with exit code 1, printed nothing and left the folder as it was. -/
structure Refused (f : Folder) (ran : Nat × Console) : Prop where
  code : ran.1 = 1
  printed : ran.2.printed = []
  folder : ran.2.folder = f

/-- A run printed the JSON text of a value and nothing else, and left the folder as it was. -/
structure PrintedOnly (v : Value) (f : Folder) (ran : Nat × Console) : Prop where
  printed : ∃ text, Json.indented? v = .ok (some text) ∧ ran.2.printed = [text]
  folder : ran.2.folder = f

theorem PrintedOnly.printed_eq {v : Value} {f : Folder} {ran : Nat × Console}
    (h : PrintedOnly v f ran) {text : String} (htext : Json.indented? v = .ok (some text)) :
    ran.2.printed = [text] := by
  obtain ⟨found, hfound, hprinted⟩ := h.printed
  obtain rfl : found = text := by simpa using hfound.symm.trans htext
  exact hprinted

section Runs

variable {cwd : Path} {f : Folder} {arguments : List String} {after : Console}

theorem run_of_ok {code : Nat}
    (h : (dispatch cwd arguments).on { folder := f } = (.ok code, after)) :
    run cwd f arguments = (code, after) := by
  unfold run
  rw [show (dispatch cwd arguments).run.run { folder := f } = (.ok code, after) from h]

/-- Whatever fails, nothing has been published. -/
theorem refused_of_error {failure : Failure}
    (h : (dispatch cwd arguments).on { folder := f } = (.error failure, after)) :
    Refused f (run cwd f arguments) := by
  have hnothing := dispatch_withholds cwd arguments _ failure after h
  unfold run
  rw [show (dispatch cwd arguments).run.run { folder := f } = (.error failure, after) from h]
  exact ⟨rfl, hnothing.printed, hnothing.folder⟩

/-- A run that ends with another exit code than its command yields has failed. -/
theorem refused_of_yields {code : Nat} (h : (dispatch cwd arguments).Yields code)
    (hcode : (run cwd f arguments).1 ≠ code) : Refused f (run cwd f arguments) := by
  cases hon : (dispatch cwd arguments).on { folder := f } with
  | mk outcome after =>
      cases outcome with
      | error failure => exact refused_of_error hon
      | ok found =>
          rw [run_of_ok hon] at hcode
          exact absurd (h _ _ _ hon) hcode

theorem refused_of_quiet {α : Type} {job : Job α} {outcomeIn : Folder → Outcome α}
    {next : α → Job Nat} (hquiet : job.IsQuiet outcomeIn)
    (hdispatch : dispatch cwd arguments = job >>= next) {failure : Failure}
    (hfailure : outcomeIn f = .error failure) : Refused f (run cwd f arguments) := by
  obtain ⟨after, hafter, -⟩ : ∃ after,
      on (job >>= next) { folder := f } = (.error failure, after) ∧
        Console.NothingPublished { folder := f } after :=
    hquiet.on_bind_of_error hfailure
  rw [← hdispatch] at hafter
  exact refused_of_error hafter

theorem refused_of_usage (hdispatch : dispatch cwd arguments = runCommand.validateUsage) :
    Refused f (run cwd f arguments) := by
  obtain ⟨after, hafter, hnothing⟩ := isQuiet_validateUsage { folder := f }
  rw [← hdispatch] at hafter
  rw [run_of_ok hafter]
  exact ⟨rfl, hnothing.printed, hnothing.folder⟩

end Runs

section Commands

variable {cwd : Path} {f : Folder} {command project : String} (hproject : project ≠ "")
  (arguments : List String)

include hproject

theorem dispatch_eq (hcommand : command ∈ ["compile", "schemas", "validate"]) :
    dispatch cwd (command :: project :: arguments) =
      runCommand cwd command project (command :: project :: arguments) := by
  have hplain : ["", "--help", "-h"].contains command = false ∧
      ["version", "--version", "-v"].contains command = false := by
    simp only [List.mem_cons, List.not_mem_nil, or_false] at hcommand
    rcases hcommand with rfl | rfl | rfl <;> decide
  simp only [dispatch, hplain, hproject]
  rfl

/-- No command does anything on a project that does not load. -/
theorem refused_of_load_error (hcommand : command ∈ ["compile", "schemas", "validate"])
    {failure : Failure} (hload : (Project.load f (Path.resolve cwd project)).1 = .error failure) :
    Refused f (run cwd f (command :: project :: arguments)) := by
  have hdispatch : dispatch cwd (command :: project :: arguments) =
      runCommand cwd command project (command :: project :: arguments) :=
    dispatch_eq hproject arguments hcommand
  simp only [List.mem_cons, List.not_mem_nil, or_false] at hcommand
  rcases hcommand with rfl | rfl | rfl
  · exact refused_of_quiet (isQuiet_openProject _) hdispatch hload
  · exact refused_of_quiet (isQuiet_openProject _) hdispatch hload
  · match arguments with
    | [] => exact refused_of_usage hdispatch
    | [_] => exact refused_of_usage hdispatch
    | schema :: input :: more =>
        by_cases hempty : schema = "" ∨ input = ""
        · exact refused_of_usage (hdispatch.trans (if_pos hempty))
        · exact refused_of_quiet (isQuiet_openProject _) (hdispatch.trans (if_neg hempty)) hload

/-- What compiling or listing a project publishes goes with exit code 0. -/
theorem refused_of_code_ne_zero (hcommand : command ∈ ["compile", "schemas"])
    (hcode : (run cwd f (command :: project :: arguments)).1 ≠ 0) :
    Refused f (run cwd f (command :: project :: arguments)) := by
  refine refused_of_yields ?_ hcode
  rw [dispatch_eq hproject arguments (List.mem_of_mem_dropLast hcommand)]
  simp only [List.mem_cons, List.not_mem_nil, or_false] at hcommand
  rcases hcommand with rfl | rfl
  · exact compile_yields _ _
  · exact listSchemas_yields _

/-- A validation publishes the one verdict on its input, or it is refused. -/
theorem run_validate_cases (schema input : String) (more : List String) :
    (∃ verdict, GivesVerdict cwd f (Path.resolve cwd project) schema input verdict ∧
        (run cwd f ("validate" :: project :: schema :: input :: more)).1 = codeFor verdict ∧
        PrintedOnly (shownFor verdict) f
          (run cwd f ("validate" :: project :: schema :: input :: more))) ∨
      (∀ verdict, ¬GivesVerdict cwd f (Path.resolve cwd project) schema input verdict) ∧
        Refused f (run cwd f ("validate" :: project :: schema :: input :: more)) := by
  have hdispatch : dispatch cwd ("validate" :: project :: schema :: input :: more) =
      if schema = "" ∨ input = "" then runCommand.validateUsage
      else validate (Path.resolve cwd project) schema (Path.resolve cwd input) :=
    dispatch_eq hproject (schema :: input :: more) (by simp)
  by_cases hempty : schema = "" ∨ input = ""
  · rw [if_pos hempty] at hdispatch
    refine .inr ⟨fun verdict h => ?_, refused_of_usage hdispatch⟩
    -- the empty argument names neither a schema nor a file, so there is no verdict to miss
    obtain ⟨_, _, _, _, _, ⟨hinput, -⟩, -⟩ := id h
    exact hempty.elim h.schema_ne_empty hinput
  · rw [if_neg hempty, validate_eq] at hdispatch
    rw [not_or] at hempty
    have hquiet := isQuiet_judgeFile (Path.resolve cwd project) schema (Path.resolve cwd input)
    have hgives : ∀ verdict, GivesVerdict cwd f (Path.resolve cwd project) schema input verdict ↔
        verdictIn f (Path.resolve cwd project) schema (Path.resolve cwd input) = .ok verdict :=
      fun _ => givesVerdict_iff hempty.2
    cases hverdict : verdictIn f (Path.resolve cwd project) schema (Path.resolve cwd input) with
    | error failure =>
        refine .inr ⟨fun verdict h => ?_, refused_of_quiet hquiet hdispatch hverdict⟩
        cases hverdict.symm.trans ((hgives verdict).mp h)
    | ok verdict =>
        have hverdictGiven := (hgives verdict).mpr hverdict
        obtain ⟨between, hbetween, hnothing⟩ : ∃ between,
            on (judgeFile (Path.resolve cwd project) schema (Path.resolve cwd input) >>=
              publishVerdict) { folder := f } = (publishVerdict verdict).on between ∧
                Console.NothingPublished { folder := f } between :=
          hquiet.on_bind_of_ok hverdict
        obtain ⟨text, htext, hpublished⟩ :=
          on_publishVerdict hverdictGiven.shownFor_isJson between
        rw [← hdispatch, hpublished] at hbetween
        rw [run_of_ok hbetween]
        refine .inl ⟨verdict, hverdictGiven, rfl, ⟨text, htext, ?_⟩, hnothing.folder⟩
        exact congrArg (· ++ [text]) hnothing.printed

/-- The command line publishes complete results only. On a project that does not load, a command
ends with exit code 1, prints nothing and writes no file, and so it does where anything else fails
while the project is compiled or listed. A validation ends with exit code 0 exactly when the project
loads, the schema is registered, the input can be read as JSON and the schema accepts it, and then
it prints the value that was accepted. It prints the errors of an input that is rejected, and
nothing in any other case. An empty argument names no project. -/
theorem run_publishes_complete_results (hcommand : command ∈ ["compile", "schemas", "validate"]) :
    (∀ failure, (Project.load f (Path.resolve cwd project)).1 = .error failure →
      Refused f (run cwd f (command :: project :: arguments))) ∧
    (command ∈ ["compile", "schemas"] → (run cwd f (command :: project :: arguments)).1 ≠ 0 →
      Refused f (run cwd f (command :: project :: arguments))) ∧
    ∀ schema input more, command = "validate" → arguments = schema :: input :: more →
      ((run cwd f (command :: project :: arguments)).1 = 0 ↔
        ∃ value, GivesVerdict cwd f (Path.resolve cwd project) schema input (.accepted value)) ∧
      (∀ value, GivesVerdict cwd f (Path.resolve cwd project) schema input (.accepted value) →
        PrintedOnly value f (run cwd f (command :: project :: arguments))) ∧
      (∀ errors, GivesVerdict cwd f (Path.resolve cwd project) schema input (.rejected errors) →
        (run cwd f (command :: project :: arguments)).1 = 1 ∧
        PrintedOnly (.object false [("errors", errors.toValue)]) f
          (run cwd f (command :: project :: arguments))) ∧
      ((∀ verdict, ¬GivesVerdict cwd f (Path.resolve cwd project) schema input verdict) →
        Refused f (run cwd f (command :: project :: arguments))) := by
  refine ⟨fun failure hload => refused_of_load_error hproject arguments hcommand hload,
    fun hcommand hcode => refused_of_code_ne_zero hproject arguments hcommand hcode, ?_⟩
  rintro schema input more rfl rfl
  rcases run_validate_cases hproject schema input more with
    ⟨verdict, hgives, hcode, hprinted⟩ | ⟨hnone, hrefused⟩
  · refine ⟨⟨fun hzero => ?_, fun ⟨value, h⟩ => ?_⟩, fun value h => ?_, fun errors h => ?_, ?_⟩
    · rw [hcode] at hzero
      cases verdict with
      | accepted value => exact ⟨value, hgives⟩
      | rejected errors => cases hzero
    · rw [hcode, hgives.unique h]
      rfl
    · rw [hgives.unique h] at hprinted
      exact hprinted
    · rw [hgives.unique h] at hcode hprinted
      exact ⟨hcode, hprinted⟩
    · exact fun hnone => absurd hgives (hnone verdict)
  · refine ⟨iff_of_false ?_ ?_, fun value h => ?_, fun errors h => ?_, fun _ => hrefused⟩
    · rw [hrefused.code]
      exact Nat.one_ne_zero
    · exact fun ⟨value, h⟩ => hnone _ h
    · exact absurd h (hnone _)
    · exact absurd h (hnone _)

end Commands

/-- A shop with a schema of visits, a project whose schema file holds no object, and two inputs. -/
def visits : Folder where
  files := [
    (["shop", "schemas", "visit.json"],
      "\x7b\"name\":\"Visit\",\"fields\":[[\"required\",\"guest\",\"string\"]]\x7d"),
    (["broken", "schemas", "visit.json"], "[]"),
    (["ada.json"], "\x7b\"guest\":\"Ada\",\"seen\":true\x7d"),
    (["nobody.json"], "\x7b\x7d")]

def visitRules : Descriptor := [.plain ⟨"guest", .string, true, {}⟩]

theorem visitRules_judge (x : Value) : visitRules.judge x =
    (Validator.object [("guest", ⟨true, false, none⟩, .text {})]).judge x :=
  Descriptor.judge_eq (by cbv) x

theorem visits_givesVerdict {input : String} {x : Value} {verdict : Verdict}
    (hinput : NamesJson [] visits input x) (hjudge : visitRules.judge x = .ok verdict) :
    GivesVerdict [] visits ["shop"] "Visit" input verdict := by
  have hrules : ((Project.load visits ["shop"]).1.toOption.bind fun p =>
      p.registry.get? "Visit").map Schema.descriptor = some visitRules := by cbv
  cases hload : (Project.load visits ["shop"]).1 with
  | error failure =>
      rw [hload] at hrules
      cases hrules
  | ok p =>
      rw [hload] at hrules
      obtain ⟨s, hs, hdescriptor⟩ := Option.map_eq_some_iff.mp hrules
      exact ⟨p, s, x, hload, hs, hinput, hdescriptor ▸ hjudge⟩

/-- A visit is accepted without the member that no rule describes, an empty one is rejected, and a
missing input and a broken project are refused. -/
theorem run_visits :
    (run [] visits ["validate", "shop", "Visit", "ada.json"]).1 = 0 ∧
    (run [] visits ["validate", "shop", "Visit", "ada.json"]).2.printed =
      ["\x7b\n  \"guest\": \"Ada\"\n\x7d"] ∧
    (run [] visits ["validate", "shop", "Visit", "nobody.json"]).1 = 1 ∧
    (run [] visits ["validate", "shop", "Visit", "nobody.json"]).2.printed =
      ["\x7b\n  \"errors\": \x7b\n    \"guest\": [\n      " ++
        "\"Invalid input: expected string, received undefined\"\n    ]\n  \x7d\n\x7d"] ∧
    Refused visits (run [] visits ["validate", "shop", "Visit", "late.json"]) ∧
    Refused visits (run [] visits ["compile", "broken", "--out", "visits.json"]) := by
  have hada : GivesVerdict [] visits ["shop"] "Visit" "ada.json"
      (.accepted (.object false [("guest", .text "Ada")])) := by
    have hread : NamesJson [] visits "ada.json"
        (.object false [("guest", .text "Ada"), ("seen", .bool true)]) :=
      ⟨by decide, _, by cbv, by cbv⟩
    exact visits_givesVerdict hread ((visitRules_judge _).trans rfl)
  have hnobody : GivesVerdict [] visits ["shop"] "Visit" "nobody.json" (.rejected
      [("guest", ["Invalid input: expected string, received undefined"])]) := by
    have hread : NamesJson [] visits "nobody.json" (.object false []) :=
      ⟨by decide, _, by cbv, by cbv⟩
    exact visits_givesVerdict hread ((visitRules_judge _).trans rfl)
  have hlate : ∀ verdict, ¬GivesVerdict [] visits ["shop"] "Visit" "late.json" verdict := by
    rintro verdict ⟨_, _, _, _, _, ⟨-, content, hcontent, -⟩, -⟩
    have hnone : visits.read? (Path.resolve [] "late.json") = none := by cbv
    cases hcontent.symm.trans hnone
  obtain ⟨failure, hbroken⟩ : ∃ failure, (Project.load visits ["broken"]).1 = .error failure :=
    ⟨_, by cbv⟩
  have hshop : ["shop"] = Path.resolve [] "shop" := by cbv
  have hvalidate (input : String) :=
    (@run_publishes_complete_results [] visits "validate" "shop" (by decide) ["Visit", input]
      (by decide)).2.2 "Visit" input [] rfl rfl
  rw [hshop] at hada hnobody hlate
  obtain ⟨hcode, hprinted, -, -⟩ := hvalidate "ada.json"
  obtain ⟨-, -, hrejected, -⟩ := hvalidate "nobody.json"
  obtain ⟨hone, hreported⟩ := hrejected _ hnobody
  refine ⟨hcode.mpr ⟨_, hada⟩, (hprinted _ hada).printed_eq (by cbv), hone,
    hreported.printed_eq (by cbv), (hvalidate "late.json").2.2.2 hlate, ?_⟩
  exact (@run_publishes_complete_results [] visits "compile" "broken" (by decide)
    ["--out", "visits.json"] (by decide)).1 failure hbroken

end CommandLine

end FieldSchema
