import FieldSchema.Project
import FieldSchema.Proofs.Freezing
import FieldSchema.Proofs.Snapshots
import FieldSchema.Proofs.UnitOrder

/-!
# Loading projects

A project is loaded in two passes: all schema files are read and announced, then they are compiled
one after another. Announcing changes nothing but states that compiling overwrites, so that loading
comes to what compiling each file after the ones before it comes to. It succeeds exactly when every
file can be read and compiles in its turn, and how the directory lists its files does not matter.
-/

namespace FieldSchema

theorem Outcome.mapM_eq_ok_iff {α β : Type} {f : α → Outcome β} {items : List α}
    {results : List β} :
    items.mapM f = .ok results ↔
      List.Forall₂ (fun item result => f item = .ok result) items results := by
  induction items generalizing results with
  | nil =>
      rw [List.mapM_nil, Outcome.pure_eq_ok, List.forall₂_nil_left_iff]
      exact eq_comm
  | cons item rest ih =>
      simp only [List.mapM_cons, Outcome.bind_eq_ok, Outcome.pure_eq_ok,
        List.forall₂_cons_left_iff, ih]
      constructor
      · rintro ⟨first, hfirst, others, hothers, rfl⟩
        exact ⟨first, others, hfirst, hothers, rfl⟩
      · rintro ⟨first, others, hfirst, hothers, rfl⟩
        exact ⟨first, hfirst, others, hothers, rfl⟩

/-- A name that items give is given by one of them last. -/
theorem exists_last_named {α : Type} {nameOf : α → String} {items : List α} {name : String}
    (h : name ∈ items.map nameOf) :
    ∃ before item after, items = before ++ item :: after ∧ nameOf item = name ∧
      name ∉ after.map nameOf := by
  induction items with
  | nil => simp at h
  | cons first rest ih =>
      by_cases hlater : name ∈ rest.map nameOf
      · obtain ⟨before, item, after, rfl, hname, hlast⟩ := ih hlater
        exact ⟨first :: before, item, after, rfl, hname, hlast⟩
      · have hname : nameOf first = name := by
          rcases List.mem_cons.mp h with heq | hmem
          · exact heq.symm
          · exact absurd hmem hlater
        exact ⟨[], first, rest, rfl, hname, hlater⟩

namespace Registry

/-- The second registry is the first after some names were announced: it holds the same, and the
names that had no state are declared. -/
structure Announced (announced : List String) (r other : Registry) : Prop where
  names : other.names = r.names
  entries : ∀ name, other.get? name = r.get? name
  states : ∀ name, other.stateOf name =
    (r.stateOf name).or (if name ∈ announced then some .declared else none)
  frozen : other.frozen = r.frozen
  typeDefaults : other.typeDefaults = r.typeDefaults

namespace Announced

variable {announced : List String} {r other : Registry}

theorem refl (r : Registry) : Announced [] r r :=
  ⟨rfl, fun _ => rfl, fun _ => by simp, rfl, rfl⟩

theorem declare (h : Announced announced r other) (hopen : r.frozen = false) (name : String) :
    Announced (announced ++ [name]) r (other.declare name).state := by
  have hother : other.frozen = false := h.frozen.trans hopen
  rcases other.declare_cases name with ⟨hfrozen, _⟩ | ⟨_, houtcome, hstate⟩
  · exact absurd (hother.symm.trans hfrozen) (by simp)
  · have hstates : ∀ n, (other.declare name).state.stateOf n =
        (r.stateOf n).or (if n ∈ announced ++ [name] then some .declared else none) := by
      intro n
      rw [stateOf_declare houtcome, h.states, h.states]
      by_cases heq : n = name
      · subst heq
        cases r.stateOf n <;> by_cases hmem : n ∈ announced <;> simp [hmem]
      · simp [heq]
    refine ⟨(other.names_declare name).trans h.names, ?_, hstates, ?_, ?_⟩
    · intro n
      rw [get?_declare, h.entries]
    · rcases hstate with ⟨_, hstate⟩ | ⟨_, hstate⟩ <;> rw [hstate] <;> exact h.frozen
    · rcases hstate with ⟨_, hstate⟩ | ⟨_, hstate⟩ <;> rw [hstate] <;> exact h.typeDefaults

/-- A compilation does not notice what has been announced, and what was announced before it still is
afterwards. -/
theorem compile (h : Announced announced r other) (name : String) (raw : Value)
    (overrides : Record Value) :
    (r.compile name raw overrides).Corresponds (Announced announced)
      (other.compile name raw overrides) := by
  obtain ⟨houtcome, hnotices⟩ :=
    compile_reply_congr h.entries h.frozen h.typeDefaults name raw overrides
  refine ⟨houtcome, hnotices, ?_, ?_, ?_, ?_, ?_⟩
  · cases hresult : (r.compile name raw overrides).outcome with
    | error failure =>
        rw [(compile_error_sameAnswers hresult).names,
          (compile_error_sameAnswers (houtcome.trans hresult)).names, h.names]
    | ok s =>
        rw [(compile_ok_state hresult).1, (compile_ok_state (houtcome.trans hresult)).1,
          names_hold, names_hold]
        have hmarked : (other.mark name .compiling).names = (r.mark name .compiling).names := h.names
        rw [hmarked]
  · intro n
    rw [get?_compile, get?_compile, houtcome, h.entries, h.entries]
  · intro n
    rw [stateOf_compile, stateOf_compile, houtcome, h.states, h.states]
    split
    next heq => rw [heq, Option.or_assoc]
    next => rfl
  · rw [frozen_compile, frozen_compile, h.frozen]
  · rw [typeDefaults_compile, typeDefaults_compile, h.typeDefaults]

end Announced

end Registry

namespace Project

/-! ## Sources in their turn -/

def Source.name (source : Source) : String := source.file.name

/-- The call that compiles a source. -/
def Source.call (source : Source) : Call :=
  .compile source.file.name source.file.fields (source.file.overrides.getD [])

/-- The registry compiles a source, and this is the schema. -/
def Source.CompilesIn (source : Source) (r : Registry) (s : Schema) : Prop :=
  (r.compile source.file.name source.file.fields (source.file.overrides.getD [])).outcome = .ok s

/-- Each source compiles after the ones before it were compiled in a session. -/
def CompileInTurn (session : Session) (sources : List Source) : Prop :=
  ∀ before source after, sources = before ++ source :: after →
    ∃ s, source.CompilesIn (session.run (before.map Source.call)).registry s

variable {session : Session} {source : Source} {rest sources : List Source}

theorem compileInTurn_nil (session : Session) : CompileInTurn session [] := by
  intro before source after hsplit
  simp at hsplit

theorem compileInTurn_cons_iff :
    CompileInTurn session (source :: rest) ↔
      (∃ s, source.CompilesIn session.registry s) ∧
        CompileInTurn (session.step source.call).state rest := by
  constructor
  · intro h
    refine ⟨h [] source rest rfl, ?_⟩
    rintro before other after rfl
    exact h (source :: before) other after rfl
  · rintro ⟨hfirst, hrest⟩ before other after hsplit
    cases before with
    | nil =>
        obtain ⟨rfl, -⟩ := List.cons.inj hsplit
        exact hfirst
    | cons first before =>
        obtain ⟨rfl, hafter⟩ := List.cons.inj hsplit
        exact hrest before other after hafter

/-- After any of the sources the others still compile in their turn. -/
theorem CompileInTurn.suffix {before after : List Source}
    (h : CompileInTurn session (before ++ after)) :
    CompileInTurn (session.run (before.map Source.call)) after := by
  rintro between source others rfl
  obtain ⟨s, hs⟩ := h (before ++ between) source others (by simp)
  refine ⟨s, ?_⟩
  rw [List.map_append] at hs
  simpa [Session.run] using hs

theorem registration?_call {s : Schema} (h : source.CompilesIn session.registry s) :
    ∃ g, session.registration? source.call = some g ∧ g.schema = s ∧ g.name = source.name := by
  obtain ⟨_, _, hcompile⟩ := Registry.compile_ok_state h
  refine ⟨⟨s, source.file.fields, source.file.overrides.getD []⟩, ?_, rfl,
    Schema.compile_name hcompile⟩
  have hcompiled : session.compiled? source.call = some s := by
    simp only [Session.compiled?, Source.call]
    rw [show (session.registry.compile source.file.name source.file.fields
      (source.file.overrides.getD [])).outcome = .ok s from h]
    rfl
  simp only [Session.registration?, hcompiled]
  rfl

theorem CompileInTurn.registeredNames (h : CompileInTurn session sources) :
    session.registeredNames (sources.map Source.call) = sources.map Source.name := by
  induction sources generalizing session with
  | nil => rfl
  | cons source rest ih =>
      obtain ⟨⟨s, hs⟩, hrest⟩ := compileInTurn_cons_iff.mp h
      obtain ⟨g, hg, -, hname⟩ := registration?_call hs
      have htail := ih hrest
      simp only [Session.registeredNames] at htail
      simp [Session.registeredNames, Session.registrations, hg, hname, htail]

/-! ## Compiling the sources -/

/-- What compiling has come to over two registries of which one announced names. -/
def Progress.Announced (announced : List String) (p other : Progress) : Prop :=
  Registry.Announced announced p.registry other.registry ∧ other.sources = p.sources

/-- Compiling the sources goes the same way, whatever has been announced. -/
theorem compileSources_announced {announced : List String} {p other : Progress}
    (h : Progress.Announced announced p other) (sources : List Source) :
    (compileSources p sources).Corresponds (Progress.Announced announced)
      (compileSources other sources) := by
  induction sources generalizing p other with
  | nil => exact ⟨rfl, rfl, h⟩
  | cons source rest ih =>
      obtain ⟨houtcome, hnotices, hstate⟩ := h.1.compile source.file.name source.file.fields
        (source.file.overrides.getD [])
      simp only [compileSources, houtcome, hnotices]
      cases (p.registry.compile source.file.name source.file.fields
          (source.file.overrides.getD [])).outcome with
      | error failure => exact ⟨rfl, rfl, hstate, h.2⟩
      | ok s =>
          have hsources : Progress.Announced announced
              ⟨_, p.sources.put source.file.name source.path⟩
              ⟨_, other.sources.put source.file.name source.path⟩ := ⟨hstate, by rw [h.2]⟩
          have hnext := ih hsources
          exact ⟨hnext.outcome, by rw [hnext.notices], hnext.state⟩

theorem compileSources_ok_iff (table : NameTable String) (sources : List Source) :
    (compileSources ⟨session.registry, table⟩ sources).outcome = .ok () ↔
      CompileInTurn session sources := by
  induction sources generalizing session table with
  | nil => exact iff_of_true rfl (compileInTurn_nil session)
  | cons source rest ih =>
      rw [compileInTurn_cons_iff]
      simp only [compileSources, Source.CompilesIn]
      cases houtcome : (session.registry.compile source.file.name source.file.fields
          (source.file.overrides.getD [])).outcome with
      | error failure => simp
      | ok s =>
          simp only [Except.ok.injEq, exists_eq', true_and]
          exact @ih (session.step source.call).state _

/-- The table of the files that the sources were read from. -/
def sourceTable (table : NameTable String) (sources : List Source) : NameTable String :=
  sources.foldl (fun t source => t.put source.file.name source.path) table

theorem compileSources_state (h : CompileInTurn session sources) (table : NameTable String) :
    (compileSources ⟨session.registry, table⟩ sources).state =
      ⟨(session.run (sources.map Source.call)).registry, sourceTable table sources⟩ := by
  induction sources generalizing session table with
  | nil => rfl
  | cons source rest ih =>
      obtain ⟨⟨s, hs⟩, hrest⟩ := compileInTurn_cons_iff.mp h
      simp only [Source.CompilesIn] at hs
      simp only [compileSources, hs]
      exact ih hrest _

theorem names_sourceTable (sources : List Source) :
    (sourceTable [] sources).names = (sources.map Source.name).eraseDups := by
  induction sources using List.reverseRecOn with
  | nil => rfl
  | append_singleton sources source ih =>
      have hadded : sourceTable [] (sources ++ [source]) =
          (sourceTable [] sources).put source.file.name source.path := by
        simp [sourceTable]
      rw [hadded, NameTable.names_put, ih, List.map_append, List.map_singleton,
        Session.eraseDups_concat]
      exact if_congr List.mem_eraseDups rfl rfl

theorem get?_sourceTable_of_not_mem {table : NameTable String} {name : String}
    (h : name ∉ sources.map Source.name) :
    (sourceTable table sources).get? name = table.get? name := by
  induction sources generalizing table with
  | nil => rfl
  | cons source rest ih =>
      obtain ⟨hne, hrest⟩ := not_or.mp (mt List.mem_cons.mpr h)
      refine (ih hrest).trans ?_
      rw [NameTable.get?_put]
      exact if_neg hne

/-- A name stands for the file of the last source that gives it. -/
theorem get?_sourceTable (table : NameTable String) {before after : List Source}
    (h : source.name ∉ after.map Source.name) :
    (sourceTable table (before ++ source :: after)).get? source.name = some source.path := by
  rw [sourceTable, List.foldl_append, List.foldl_cons, ← sourceTable, ← sourceTable,
    get?_sourceTable_of_not_mem h, NameTable.get?_put]
  exact if_pos rfl

/-! ## Folders -/

theorem pairwise_schemaFileNames (f : Folder) (directory : Path) :
    (schemaFileNames f directory).Pairwise fun a b => Text.units a < Text.units b :=
  Text.pairwise_lt_sortByUnits ((Session.nodup_eraseDups _).filter _)

theorem mem_schemaFileNames (f : Folder) (directory : Path) (name : String) :
    name ∈ schemaFileNames f directory ↔
      name ∈ f.names directory ∧ isSchemaFileName name = true :=
  (Text.sortByUnits_perm _).mem_iff.trans List.mem_filter

/-- The notes of the project in a directory. -/
def notesAt (f : Folder) (root : Path) : ProjectNotes :=
  match f.read? (root ++ ["project.md"]) with
  | some content => ProjectNotes.ofText content
  | none => {}

/-- The settings of the project in a directory. -/
def settingsAt (f : Folder) (root : Path) : Settings :=
  Settings.ofText ((f.read? (root ++ ["config", "compiler.md"])).getD "")

/-- A source is read from the schema file of a name in a directory: the file can be read, and its
text has the form of a schema file. -/
def Source.IsReadFrom (source : Source) (f : Folder) (directory : Path) (name : String) : Prop :=
  ∃ content, f.read? (directory ++ [name]) = some content ∧
    SchemaFile.read content (schemaNameOf name) ("schemas/" ++ name) = .ok source.file ∧
    source.path = "schemas/" ++ name

theorem readSource_eq_ok_iff {f : Folder} {directory : Path} {name : String} :
    readSource f directory name = .ok source ↔ source.IsReadFrom f directory name := by
  unfold readSource Source.IsReadFrom
  cases f.read? (directory ++ [name]) with
  | none => simp
  | some content =>
      simp only [Outcome.bind_eq_ok, Outcome.pure_eq_ok, Option.some.injEq, exists_eq_left']
      constructor
      · rintro ⟨file, hfile, rfl⟩
        exact ⟨hfile, rfl⟩
      · rintro ⟨hfile, hpath⟩
        exact ⟨source.file, hfile, by rw [← hpath]⟩

/-- The schema files of the project in a directory, in ascending order of their names, are read as
these sources, and each compiles against the registry built from those before it. -/
structure CompilesInOrder (f : Folder) (root : Path) (sources : List Source) : Prop where
  read : List.Forall₂ (fun name source => source.IsReadFrom f (root ++ ["schemas"]) name)
    (schemaFileNames f (root ++ ["schemas"])) sources
  compiled : CompileInTurn (Session.start (settingsAt f root).typeDefaults) sources

/-- What a project is that was loaded from sources in their order. -/
structure IsLoadedFrom (p : Project) (defaults : TypeDefaults) (sources : List Source) : Prop where
  frozen : p.registry.frozen = true
  /-- The registry answers as if no name had ever been announced. -/
  answers : ((Session.start defaults).run (sources.map Source.call)).registry.freeze.SameAnswers
    p.registry
  compiled : ∀ name ∈ p.registry.names, p.registry.stateOf name = some .compiled
  noneDeclared : ∀ name, p.registry.stateOf name ≠ some .declared
  names : p.registry.names = (sources.map Source.name).eraseDups
  sourceNames : p.sources.names = p.registry.names
  /-- What stands under a name comes from the last source that gives it. -/
  latest : ∀ name ∈ p.registry.names, ∃ before source after s, sources = before ++ source :: after ∧
    source.name = name ∧ name ∉ after.map Source.name ∧
    p.sources.get? name = some source.path ∧
    source.CompilesIn ((Session.start defaults).run (before.map Source.call)).registry s ∧
    p.registry.get? name = some s

theorem announce_announced (r : Registry) (hopen : r.frozen = false) (sources : List Source) :
    Registry.Announced (sources.map Source.name) r (announce r sources) := by
  induction sources using List.reverseRecOn with
  | nil => exact .refl r
  | append_singleton sources source ih =>
      have hlast : announce r (sources ++ [source]) =
          ((announce r sources).declare source.file.name).state := by
        simp [announce]
      rw [hlast, List.map_append]
      exact ih.declare hopen source.file.name

theorem mapM_readSource_eq_ok_iff {f : Folder} {directory : Path} {names : List String} :
    names.mapM (readSource f directory) = .ok sources ↔
      List.Forall₂ (fun name source => source.IsReadFrom f directory name) names sources := by
  simp only [Outcome.mapM_eq_ok_iff, readSource_eq_ok_iff]

/-- Compiling sources that have all been announced before. -/
def compileAnnounced (defaults : TypeDefaults) (sources : List Source) : Step Progress Unit :=
  compileSources { registry := announce { typeDefaults := defaults } sources } sources

theorem load_eq_ok_iff {f : Folder} {root : Path} {p : Project} :
    (load f root).1 = .ok p ↔
      ∃ sources,
        List.Forall₂ (fun name source => source.IsReadFrom f (root ++ ["schemas"]) name)
          (schemaFileNames f (root ++ ["schemas"])) sources ∧
        (compileAnnounced (settingsAt f root).typeDefaults sources).outcome = .ok () ∧
        p = ⟨notesAt f root, settingsAt f root,
          (compileAnnounced (settingsAt f root).typeDefaults sources).state.registry.freeze,
          (compileAnnounced (settingsAt f root).typeDefaults sources).state.sources⟩ := by
  simp only [← mapM_readSource_eq_ok_iff]
  dsimp only [load]
  cases (schemaFileNames f (root ++ ["schemas"])).mapM (readSource f (root ++ ["schemas"])) with
  | error failure => simp
  | ok sources =>
      simp only [Except.ok.injEq, exists_eq_left']
      refine Outcome.bind_eq_ok.trans ?_
      constructor
      · rintro ⟨_, houtcome, hproject⟩
        exact ⟨houtcome, (Outcome.pure_eq_ok.mp hproject).symm⟩
      · rintro ⟨houtcome, rfl⟩
        exact ⟨(), houtcome, rfl⟩

/-- Compiling announced sources comes to compiling them in their turn. -/
theorem compileAnnounced_corresponds (defaults : TypeDefaults) (sources : List Source) :
    (compileSources ⟨(Session.start defaults).registry, []⟩ sources).Corresponds
      (Progress.Announced (sources.map Source.name)) (compileAnnounced defaults sources) := by
  apply compileSources_announced
  exact ⟨announce_announced _ rfl sources, rfl⟩

theorem not_announces_calls (name : String) (session : Session) (sources : List Source) :
    ¬Session.Announces name session (sources.map Source.call) := by
  induction sources generalizing session with
  | nil => exact id
  | cons source rest ih =>
      rintro (⟨hcall, _⟩ | hrest)
      · cases hcall
      · exact ih _ hrest

/-- Once all announced sources are compiled, no answer shows that they were announced. -/
theorem compileAnnounced_sameAnswers {defaults : TypeDefaults} {sources : List Source}
    (h : CompileInTurn (Session.start defaults) sources) :
    ((Session.start defaults).run (sources.map Source.call)).registry.SameAnswers
      (compileAnnounced defaults sources).state.registry := by
  have hannounced := (compileAnnounced_corresponds defaults sources).state.1
  rw [compileSources_state h] at hannounced
  refine ⟨hannounced.names, hannounced.entries, ?_, hannounced.frozen⟩
  intro name
  rw [hannounced.states]
  split
  next hmem =>
    -- a name that was announced has been compiled in the meantime
    rw [← h.registeredNames] at hmem
    rw [(Session.run_stateOf_eq_compiled_iff defaults _ name).mpr hmem, Option.some_or]
  next => exact Option.or_none

theorem CompileInTurn.get?_run {defaults : TypeDefaults} {before after : List Source} {s : Schema}
    (h : CompileInTurn (Session.start defaults) (before ++ source :: after))
    (hs : source.CompilesIn ((Session.start defaults).run (before.map Source.call)).registry s)
    (hlast : source.name ∉ after.map Source.name) :
    ((Session.start defaults).run ((before ++ source :: after).map Source.call)).registry.get?
      source.name = some s := by
  obtain ⟨g, hg, rfl, hname⟩ := registration?_call hs
  have hafter := (compileInTurn_cons_iff.mp h.suffix).2
  have hlatest : (Session.start defaults).RegistersLast (before.map Source.call) source.call
      (after.map Source.call) g := by
    refine ⟨hg, ?_⟩
    rwa [hafter.registeredNames, hname]
  rw [List.map_append, List.map_cons, ← hname]
  exact hlatest.get?_run

theorem isLoadedFrom {f : Folder} {root : Path} {p : Project} {sources : List Source}
    (hload : (load f root).1 = .ok p) (h : CompilesInOrder f root sources) :
    p.IsLoadedFrom (settingsAt f root).typeDefaults sources := by
  obtain ⟨others, hread, -, rfl⟩ := load_eq_ok_iff.mp hload
  obtain rfl : others = sources :=
    Except.ok.inj ((mapM_readSource_eq_ok_iff.mpr hread).symm.trans
      (mapM_readSource_eq_ok_iff.mpr h.read))
  have hinTurn := h.compiled
  generalize (settingsAt f root).typeDefaults = defaults at hinTurn ⊢
  have hanswers := compileAnnounced_sameAnswers hinTurn
  have hnames : (compileAnnounced defaults others).state.registry.names =
      (others.map Source.name).eraseDups := by
    rw [hanswers.names, Session.run_names_eq, hinTurn.registeredNames]
  have htable : (compileAnnounced defaults others).state.sources = sourceTable [] others := by
    rw [(compileAnnounced_corresponds defaults others).state.2, compileSources_state hinTurn]
  refine ⟨rfl, ⟨hanswers.names, hanswers.entries, hanswers.states, rfl⟩, ?_, ?_, hnames, ?_, ?_⟩
  · intro name hname
    refine (hanswers.states name).trans ?_
    rw [Session.run_stateOf_eq_compiled_iff, ← Session.mem_run_names_iff, ← hanswers.names]
    exact hname
  · intro name hdeclared
    have hstate := (hanswers.states name).symm.trans hdeclared
    rw [Session.run_stateOf_eq_declared_iff] at hstate
    exact not_announces_calls name _ others hstate.1
  · exact (congrArg NameTable.names htable).trans ((names_sourceTable others).trans hnames.symm)
  · intro name hname
    have hgiven : name ∈ others.map Source.name :=
      List.mem_eraseDups.mp (hnames ▸ hname)
    obtain ⟨before, source, after, rfl, rfl, hlast⟩ := exists_last_named hgiven
    obtain ⟨s, hs⟩ := hinTurn before source after rfl
    refine ⟨before, source, after, s, rfl, rfl, hlast, ?_, hs, ?_⟩
    · exact (congrArg (·.get? source.name) htable).trans (get?_sourceTable [] hlast)
    · exact (hanswers.entries source.name).trans (hinTurn.get?_run hs hlast)

theorem load_succeeds_iff (f : Folder) (root : Path) :
    (∃ p, (load f root).1 = .ok p) ↔ ∃ sources, CompilesInOrder f root sources := by
  have hturn (sources : List Source) :
      (compileAnnounced (settingsAt f root).typeDefaults sources).outcome = .ok () ↔
        CompileInTurn (Session.start (settingsAt f root).typeDefaults) sources := by
    rw [(compileAnnounced_corresponds _ sources).outcome, compileSources_ok_iff]
  constructor
  · rintro ⟨p, hload⟩
    obtain ⟨sources, hread, houtcome, -⟩ := load_eq_ok_iff.mp hload
    exact ⟨sources, hread, (hturn sources).mp houtcome⟩
  · rintro ⟨sources, hread, hcompiled⟩
    exact ⟨_, load_eq_ok_iff.mpr ⟨sources, hread, (hturn sources).mpr hcompiled, rfl⟩⟩

/-- Folders with the same texts, whose directory of schemas lists the same names in any order, are
loaded alike. -/
theorem load_congr {f g : Folder} {root : Path} (htexts : ∀ path, g.read? path = f.read? path)
    (hlisted : (g.names (root ++ ["schemas"])).Perm (f.names (root ++ ["schemas"]))) :
    load g root = load f root := by
  have hnames : schemaFileNames g (root ++ ["schemas"]) = schemaFileNames f (root ++ ["schemas"]) :=
    Text.sortByUnits_eq_of_perm (hlisted.filter _)
  have hread : readSource g (root ++ ["schemas"]) = readSource f (root ++ ["schemas"]) := by
    funext name
    simp only [readSource, htexts]
  simp only [load, htexts, hnames, hread]

/-- Loading a project compiles its schema files in ascending order of their names, each against the
registry built from the files before it. It succeeds exactly when all of them can be read and
compile so, and then the registry is frozen, holds only compiled names, and has under each name what
the last file of that name compiled to, just as if nothing had been announced. How the directory
lists its files does not matter. -/
theorem load_compiles_in_order (f : Folder) (root : Path) :
    (schemaFileNames f (root ++ ["schemas"])).Pairwise (fun a b => Text.units a < Text.units b) ∧
    (∀ name, name ∈ schemaFileNames f (root ++ ["schemas"]) ↔
      name ∈ f.names (root ++ ["schemas"]) ∧ isSchemaFileName name = true) ∧
    ((∃ p, (load f root).1 = .ok p) ↔ ∃ sources, CompilesInOrder f root sources) ∧
    (∀ p sources, (load f root).1 = .ok p → CompilesInOrder f root sources →
      p.IsLoadedFrom (settingsAt f root).typeDefaults sources) ∧
    ∀ g : Folder, (∀ path, g.read? path = f.read? path) →
      (g.names (root ++ ["schemas"])).Perm (f.names (root ++ ["schemas"])) →
      load g root = load f root := by
  refine ⟨pairwise_schemaFileNames f _, mem_schemaFileNames f _, load_succeeds_iff f root, ?_, ?_⟩
  · intro p sources hload h
    exact isLoadedFrom hload h
  · intro g htexts hlisted
    exact load_congr htexts hlisted

/-- A user with a home, an address that is given twice and a draft, in no order. -/
def movedHomes : Folder where
  files := [
    (["schemas", "02-user.json"],
      "\x7b\"name\":\"User\",\"fields\":[[\"embeds_one\",\"home\",\"Address\"]]\x7d"),
    (["schemas", "03-address.json"], "\x7b\"name\":\"Address\",\"fields\":[]\x7d"),
    (["schemas", "_draft.json"], "\x7b"),
    (["schemas", "01-address.json"],
      "\x7b\"name\":\"Address\",\"fields\":[[\"required\",\"street\",\"string\"]]\x7d")]

/-- The sources in the order in which they are compiled. -/
def movedHomesSources : List Source := [
  ⟨⟨"Address", .list [.list [.text "required", .text "street", .text "string"]], none⟩,
    "schemas/01-address.json"⟩,
  ⟨⟨"User", .list [.list [.text "embeds_one", .text "home", .text "Address"]], none⟩,
    "schemas/02-user.json"⟩,
  ⟨⟨"Address", .list [], none⟩, "schemas/03-address.json"⟩]

theorem movedHomes_names : schemaFileNames movedHomes ["schemas"] =
    ["01-address.json", "02-user.json", "03-address.json"] := by
  have hlisted : (movedHomes.names ["schemas"]).filter isSchemaFileName =
      ["02-user.json", "03-address.json", "01-address.json"] := by decide
  have hperm : ["02-user.json", "03-address.json", "01-address.json"].Perm
      ["01-address.json", "02-user.json", "03-address.json"] := by decide
  rw [schemaFileNames, hlisted, Text.sortByUnits_eq_of_perm hperm]
  apply List.mergeSort_of_pairwise
  decide

theorem movedHomes_inOrder : CompilesInOrder movedHomes [] movedHomesSources := by
  have hread : ["01-address.json", "02-user.json", "03-address.json"].mapM
      (readSource movedHomes ["schemas"]) = .ok movedHomesSources := by cbv
  have hnames := movedHomes_names
  refine ⟨?_, ?_⟩
  · rw [List.nil_append, hnames, ← mapM_readSource_eq_ok_iff]
    exact hread
  · simp only [movedHomesSources, compileInTurn_cons_iff]
    refine ⟨⟨_, rfl⟩, ⟨_, rfl⟩, ⟨_, rfl⟩, compileInTurn_nil _⟩

/-- The draft is passed over, the other files are loaded in the order of their names, and the later
address counts, however the directory lists them. -/
theorem movedHomes_loaded :
    ∃ p, (load movedHomes []).1 = .ok p ∧
      p.registry.names = ["Address", "User"] ∧
      p.sources.get? "Address" = some "schemas/03-address.json" ∧
      load { files := movedHomes.files.reverse } [] = load movedHomes [] := by
  obtain ⟨-, -, hsucceeds, hloaded, hcongr⟩ := load_compiles_in_order movedHomes []
  obtain ⟨p, hp⟩ := hsucceeds.mpr ⟨_, movedHomes_inOrder⟩
  have hfrom := hloaded p _ hp movedHomes_inOrder
  have hnames : p.registry.names = ["Address", "User"] := hfrom.names.trans (by decide)
  refine ⟨p, hp, hnames, ?_, ?_⟩
  · obtain ⟨before, source, after, _, hsplit, hname, hlast, htable, -⟩ :=
      hfrom.latest "Address" (hnames ▸ by decide)
    have hlatest : source.path = "schemas/03-address.json" := by
      rcases before with _ | ⟨_, _ | ⟨_, _ | ⟨_, before⟩⟩⟩ <;>
        simp only [movedHomesSources, List.nil_append, List.cons_append, List.cons.injEq] at hsplit
      · -- the first address is given again later
        obtain ⟨rfl, rfl⟩ := hsplit
        exact absurd (by decide) hlast
      · obtain ⟨-, rfl, -⟩ := hsplit
        exact absurd hname (by decide)
      · obtain ⟨-, -, rfl, -⟩ := hsplit
        rfl
      · simp at hsplit
    rw [htable, hlatest]
  · apply hcongr
    · intro path
      simp only [Folder.read?, movedHomes, List.reverse_cons, List.reverse_nil, List.nil_append,
        List.cons_append, List.lookup]
      grind
    · decide

end Project

end FieldSchema
