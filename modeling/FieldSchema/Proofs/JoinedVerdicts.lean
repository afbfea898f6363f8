import FieldSchema.Proofs.Idempotence

/-!
# Joined verdicts

Verdicts that concern parts of an object join to one: their values are put together, and the
messages under each name come one after another. Errors join when the issues that they report do.
What a value has wrong with it is reported under a longer name where an object holds the value.
-/

namespace FieldSchema

namespace FieldErrors

/-- The messages under a name. -/
def messagesAt (errors : FieldErrors) (key : String) : List String :=
  (Record.get? errors key).getD []

/-- Errors have just the names of others, and under each name the messages of all of them. -/
structure Joins (errors : FieldErrors) (parts : List FieldErrors) : Prop where
  nodup : (Record.names errors).Nodup
  mem_names : ∀ key, key ∈ Record.names errors ↔ ∃ part ∈ parts, key ∈ Record.names part
  messages : ∀ key, (errors.messagesAt key).Perm (parts.flatMap fun part => part.messagesAt key)

/-- The errors of a value, reported from outside, where the value stands at a path. What is wrong
with a member of the value stands under the path and the member's own name; the value that is no
object has only itself to be reported. -/
def placed (path : String) (v : Value) (errors : FieldErrors) : FieldErrors :=
  errors.map fun entry => (if v.isKeyed then path ++ "." ++ entry.1 else path, entry.2)

end FieldErrors

namespace Verdict

/-- The errors of a verdict; an accepted value has none. -/
def errors : Verdict → FieldErrors
  | .accepted _ => []
  | .rejected errors => errors

/-- A verdict joins others. Accepted objects make up one, in which no name stands twice; where one
of the others is a rejection the errors of all are joined. -/
inductive Joins : Verdict → List Verdict → Prop
  | accepted {members : Record Value} {parts : List (Record Value)} (nodup : members.names.Nodup)
      (perm : members.Perm parts.flatten) :
      Joins (.accepted (.object false members))
        (parts.map fun part => .accepted (.object false part))
  | rejected {errors : FieldErrors} {verdicts : List Verdict}
      (exists_rejected : ∃ part, .rejected part ∈ verdicts)
      (joins : errors.Joins (verdicts.map Verdict.errors)) : Joins (.rejected errors) verdicts

/-- A verdict tells what a check found: the value when nothing is wrong, and else the issues. -/
inductive Tells : Verdict → Checked → Prop
  | accepted (value : Value) : Tells (.accepted value) ⟨[], value⟩
  | rejected {errors : FieldErrors} {issues : List Issue} (value : Value) (hne : issues ≠ [])
      (h : errors.Report issues) : Tells (.rejected errors) ⟨issues, value⟩

end Verdict

/-- What the checks of some fields found, as the check of an object that has these fields. -/
def CheckedFields.asObject (found : CheckedFields) : Checked :=
  ⟨found.issues, .object false found.members⟩

/-! ## Messages of issues -/

theorem messagesUnder_ne_nil_iff {issues : List Issue} {key : String} :
    messagesUnder issues key ≠ [] ↔ ∃ i ∈ issues, i.key = key := by
  simp [messagesUnder]

theorem messagesUnder_flatten (each : List (List Issue)) (key : String) :
    messagesUnder each.flatten key = each.flatMap (messagesUnder · key) := by
  rw [messagesUnder, List.filter_flatten, List.map_flatten, List.map_map, List.flatMap]
  rfl

/-- Where no other name turns into a changed name, the messages under it stay the same. -/
theorem messagesUnder_map {issues : List Issue} {f : String → String} {g : Issue → Issue}
    (hkey : ∀ i ∈ issues, (g i).key = f i.key) (hcause : ∀ i ∈ issues, (g i).cause = i.cause)
    {key : String} (hinj : ∀ i ∈ issues, f i.key = f key → i.key = key) :
    messagesUnder (issues.map g) (f key) = messagesUnder issues key := by
  have hfilter : (issues.map g).filter (fun i => i.key = f key) =
      (issues.filter fun i => i.key = key).map g := by
    rw [List.filter_map]
    congr 1
    apply List.filter_congr
    intro i hi
    have hiff : (g i).key = f key ↔ i.key = key := by
      rw [hkey i hi]
      exact ⟨hinj i hi, congrArg f⟩
    simp [hiff]
  rw [messagesUnder, hfilter, List.map_map, messagesUnder]
  apply List.map_congr_left
  intro i hi
  exact congrArg Cause.message (hcause i (List.mem_filter.mp hi).1)

theorem messagesUnder_perm {issues others : List Issue} (h : issues.Perm others) (key : String) :
    (messagesUnder issues key).Perm (messagesUnder others key) :=
  (h.filter _).map _

namespace FieldErrors.Report

variable {errors : FieldErrors} {issues : List Issue}

theorem messagesAt_eq (h : errors.Report issues) (key : String) :
    errors.messagesAt key = messagesUnder issues key :=
  h.get?_getD key

theorem mem_names_iff (h : errors.Report issues) (key : String) :
    key ∈ Record.names errors ↔ ∃ i ∈ issues, i.key = key := by
  rw [← messagesUnder_ne_nil_iff]
  constructor
  · intro hkey
    obtain ⟨⟨key, messages⟩, hmem, rfl⟩ := List.mem_map.mp hkey
    obtain ⟨rfl, hne⟩ := (h.mem_iff key messages).mp hmem
    exact hne
  · intro hne
    exact List.mem_map_of_mem ((h.mem_iff key _).mpr ⟨rfl, hne⟩)

/-- Issues have one report, but for the order of the names. -/
theorem perm {others : FieldErrors} (h : errors.Report issues) (hothers : others.Report issues) :
    errors.Perm others := by
  have hnodup {reported : FieldErrors} (h : (Record.names reported).Nodup) : reported.Nodup :=
    List.Nodup.of_map _ h
  rw [List.perm_ext_iff_of_nodup (hnodup h.nodup) (hnodup hothers.nodup)]
  rintro ⟨key, messages⟩
  rw [h.mem_iff, hothers.mem_iff]

/-- Issues whose names change are reported under the changed names, unless two of them meet. -/
theorem map {f : String → String} {g : Issue → Issue} (h : errors.Report issues)
    (hkey : ∀ i ∈ issues, (g i).key = f i.key) (hcause : ∀ i ∈ issues, (g i).cause = i.cause)
    (hinj : ∀ i ∈ issues, ∀ j ∈ issues, f i.key = f j.key → i.key = j.key) :
    Report (errors.map fun entry => (f entry.1, entry.2)) (issues.map g) := by
  have hmessages : ∀ j ∈ issues,
      messagesUnder (issues.map g) (f j.key) = messagesUnder issues j.key := fun j hj =>
    messagesUnder_map hkey hcause fun i hi => hinj i hi j hj
  constructor
  case nodup =>
    have hnames : Record.names (errors.map fun entry => (f entry.1, entry.2)) =
        (Record.names errors).map f := by
      rw [Record.names, Record.names, List.map_map, List.map_map]
      rfl
    rw [hnames]
    refine h.nodup.map_on fun key hname other hother heq => ?_
    obtain ⟨i, hi, rfl⟩ := (h.mem_names_iff key).mp hname
    obtain ⟨j, hj, rfl⟩ := (h.mem_names_iff other).mp hother
    exact hinj i hi j hj heq
  case mem_iff =>
    intro key messages
    constructor
    · intro hmem
      obtain ⟨⟨own, found⟩, hfound, heq⟩ := List.mem_map.mp hmem
      obtain ⟨rfl, rfl⟩ := Prod.mk.inj heq
      obtain ⟨rfl, hne⟩ := (h.mem_iff own found).mp hfound
      obtain ⟨j, hj, rfl⟩ := messagesUnder_ne_nil_iff.mp hne
      exact ⟨(hmessages j hj).symm, hne⟩
    · rintro ⟨rfl, hne⟩
      obtain ⟨i, hi, rfl⟩ := messagesUnder_ne_nil_iff.mp hne
      obtain ⟨j, hj, rfl⟩ := List.mem_map.mp hi
      rw [hkey j hj, hmessages j hj] at hne ⊢
      exact List.mem_map.mpr ⟨(j.key, _), (h.mem_iff _ _).mpr ⟨rfl, hne⟩, rfl⟩

end FieldErrors.Report

/-! ## Joining -/

namespace FieldErrors

/-- Errors join when the issues that they report do. -/
theorem Joins.of_reports {errors : FieldErrors} {issues : List Issue} {parts : List FieldErrors}
    {each : List (List Issue)} (h : errors.Report issues)
    (hparts : List.Forall₂ Report parts each) (hperm : issues.Perm each.flatten) :
    errors.Joins parts := by
  have hmem (key : String) : (∃ part ∈ parts, key ∈ Record.names part) ↔
      ∃ i ∈ each.flatten, i.key = key := by
    clear hperm
    induction hparts with
    | nil => simp
    | cons hpart _ ih => simp [ih, hpart.mem_names_iff, or_and_right, exists_or]
  have hmessages (key : String) : parts.flatMap (fun part => part.messagesAt key) =
      each.flatMap (messagesUnder · key) := by
    clear hperm hmem
    induction hparts with
    | nil => rfl
    | cons hpart _ ih => rw [List.flatMap_cons, List.flatMap_cons, ih, hpart.messagesAt_eq]
  constructor
  case nodup => exact h.nodup
  case mem_names =>
    intro key
    rw [h.mem_names_iff, hmem]
    exact exists_congr fun i => and_congr_left fun _ => hperm.mem_iff
  case messages =>
    intro key
    rw [h.messagesAt_eq, hmessages, ← messagesUnder_flatten]
    exact messagesUnder_perm hperm key

end FieldErrors

namespace Verdict

theorem Tells.report_errors {verdict : Verdict} {checked : Checked} (h : verdict.Tells checked) :
    verdict.errors.Report checked.issues := by
  cases h with
  | accepted => exact .empty
  | rejected _ _ h => exact h

theorem Tells.eq_accepted {verdict : Verdict} {checked : Checked} (h : verdict.Tells checked)
    (hissues : checked.issues = []) : verdict = .accepted checked.value := by
  cases h with
  | accepted => rfl
  | rejected _ hne => exact absurd hissues hne

theorem Tells.exists_rejected {verdict : Verdict} {checked : Checked} (h : verdict.Tells checked)
    (hissues : checked.issues ≠ []) : ∃ errors, verdict = .rejected errors := by
  cases h with
  | accepted => exact absurd rfl hissues
  | rejected => exact ⟨_, rfl⟩

theorem exists_rejected_of_tells {parts : List Verdict} {each : List Checked}
    (h : List.Forall₂ Tells parts each) (hissues : ∃ found ∈ each, found.issues ≠ []) :
    ∃ errors, .rejected errors ∈ parts := by
  induction h with
  | nil => simp at hissues
  | cons hpart _ ih =>
      obtain ⟨found, hfound, hne⟩ := hissues
      rcases List.mem_cons.mp hfound with rfl | hrest
      · obtain ⟨errors, rfl⟩ := hpart.exists_rejected hne
        exact ⟨errors, List.mem_cons_self⟩
      · obtain ⟨errors, herrors⟩ := ih ⟨found, hrest, hne⟩
        exact ⟨errors, List.mem_cons_of_mem _ herrors⟩

/-- Verdicts that tell of checks without issues accept what the checks took over. -/
theorem eq_accepted_of_tells {parts : List Verdict} {each : List CheckedFields}
    (hparts : List.Forall₂ Tells parts (each.map CheckedFields.asObject))
    (hnone : ∀ part ∈ each, part.issues = []) :
    parts = (each.map CheckedFields.members).map
      fun members => .accepted (.object false members) := by
  induction each generalizing parts with
  | nil =>
      cases hparts
      rfl
  | cons first rest ih =>
      obtain ⟨hfirst, hrest⟩ := List.forall_mem_cons.mp hnone
      rw [List.map_cons] at hparts
      cases hparts with
      | cons hpart hothers =>
          rw [List.map_cons, List.map_cons, ← ih hothers hrest, hpart.eq_accepted hfirst]
          rfl

/-- Verdicts join when the checks that they tell of have found the same taken together. -/
theorem Tells.joins {verdict : Verdict} {found : CheckedFields} {parts : List Verdict}
    {each : List CheckedFields} (h : verdict.Tells found.asObject)
    (hparts : List.Forall₂ Tells parts (each.map CheckedFields.asObject))
    (hissues : found.issues.Perm (each.map CheckedFields.issues).flatten)
    (hmembers : found.members.Perm (each.map CheckedFields.members).flatten)
    (hnodup : (Record.names found.members).Nodup) : verdict.Joins parts := by
  by_cases hclean : found.issues = []
  · have hnone : ∀ part ∈ each, part.issues = [] := by
      have hflat := (hclean ▸ hissues).nil_eq
      intro part hpart
      exact List.flatten_eq_nil_iff.mp hflat.symm _ (List.mem_map_of_mem hpart)
    rw [eq_accepted_of_tells hparts hnone, h.eq_accepted hclean]
    exact .accepted hnodup hmembers
  · obtain ⟨errors, rfl⟩ := h.exists_rejected hclean
    refine .rejected (exists_rejected_of_tells hparts ?_) ?_
    · obtain ⟨i, hi⟩ := List.exists_mem_of_ne_nil _ hclean
      obtain ⟨issues, hmem, hi⟩ := List.mem_flatten.mp (hissues.mem_iff.mp hi)
      obtain ⟨part, hpart, rfl⟩ := List.mem_map.mp hmem
      exact ⟨part.asObject, List.mem_map_of_mem hpart, List.ne_nil_of_mem hi⟩
    · refine FieldErrors.Joins.of_reports h.report_errors ?_ hissues
      rw [List.forall₂_map_left_iff, List.forall₂_map_right_iff]
      rw [List.forall₂_map_right_iff] at hparts
      exact hparts.imp fun _ _ hpart => hpart.report_errors

end Verdict

/-! ## Errors seen from outside -/

theorem Issue.key_within (i : Issue) (step : String) :
    (i.within step).key = if i.path.isEmpty then step else step ++ "." ++ i.key := by
  unfold key within
  cases i.path with
  | nil => rfl
  | cons first rest => simp

/-- Issues of a value are reported from outside under the path at which the value stands. -/
theorem FieldErrors.Report.placed {errors : FieldErrors} {issues : List Issue}
    (h : errors.Report issues) {v : Value} {path : String} {g : Issue → Issue}
    (hpaths : ∀ i ∈ issues, i.path.isEmpty = !v.isKeyed)
    (hkey : ∀ i ∈ issues, (g i).key = if i.path.isEmpty then path else path ++ "." ++ i.key)
    (hcause : ∀ i ∈ issues, (g i).cause = i.cause) :
    (errors.placed path v).Report (issues.map g) := by
  refine @map errors issues (fun key => if v.isKeyed then path ++ "." ++ key else path) g h
    (fun i hi => ?_) hcause fun i hi j hj heq => ?_
  · rw [hkey i hi, hpaths i hi]
    cases v.isKeyed <;> rfl
  · cases hv : v.isKeyed with
    | true =>
        simp only [hv, if_true] at heq
        exact String.append_right_inj _ |>.mp heq
    | false =>
        have hnil : ∀ k ∈ issues, k.key = "_root" := by
          intro k hk
          have hempty : k.path.isEmpty = true := by rw [hpaths k hk, hv]; rfl
          rw [Issue.key, if_pos hempty]
        rw [hnil i hi, hnil j hj]

/-! ## Judging -/

namespace Validator

variable {validator : Validator} {input : Value}

/-- A verdict tells what the check found. -/
theorem tells_of_judge {verdict : Verdict} (h : validator.judge input = .ok verdict) :
    ∃ checked, validator.check input = .ok checked ∧ verdict.Tells checked := by
  cases verdict with
  | accepted value =>
      exact ⟨_, (validator.judge_accepted_iff input value).mp h, .accepted value⟩
  | rejected errors =>
      obtain ⟨checked, hcheck, hne, hreport⟩ := validator.judge_rejected input errors h
      exact ⟨checked, hcheck, .rejected checked.value hne hreport⟩

theorem exists_tells {checked : Checked} (hcheck : validator.check input = .ok checked)
    (hfree : ∀ i ∈ checked.issues, ¬i.IsUnderInherited) :
    ∃ verdict, validator.judge input = .ok verdict ∧ verdict.Tells checked := by
  obtain ⟨verdict, hjudge⟩ :=
    (validator.exists_judge_iff input).mpr ⟨checked, hcheck, hfree⟩
  obtain ⟨other, hother, htells⟩ := tells_of_judge hjudge
  obtain rfl := Except.ok.inj (hother.symm.trans hcheck)
  exact ⟨verdict, hjudge, htells⟩

/-- Where no issue stands under an inherited name, judging fails as the check does. -/
theorem judge_eq_error_iff (hfree : ∀ checked, validator.check input = .ok checked →
    ∀ i ∈ checked.issues, ¬i.IsUnderInherited) {failure : Failure} :
    validator.judge input = .error failure ↔ validator.check input = .error failure := by
  cases hcheck : validator.check input with
  | error other =>
      have hjudge : validator.judge input = .error other := by
        rw [judge, hcheck]
        rfl
      simp [hjudge]
  | ok checked =>
      obtain ⟨verdict, hjudge, _⟩ := exists_tells hcheck (hfree checked hcheck)
      simp [hjudge]

end Validator

end FieldSchema
