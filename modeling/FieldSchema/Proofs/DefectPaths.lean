import FieldSchema.Proofs.Failures
import FieldSchema.Proofs.Positions

/-!
# The paths of defects

Resolving and merging options, and making nodes and rules of them, can end in a defect. It names the
path of the field that is being compiled; what the host refuses, such as a value that has no text,
is no defect and names none. So the defect of a compilation names the path of a declaration.
-/

namespace FieldSchema

namespace Outcome

variable {α : Type}

/-- If the outcome is a defect, the defect names the path. -/
def Blames (path : Option String) (x : Outcome α) : Prop :=
  ∀ defect, x = .error (.defect defect) → defect.path = path

theorem FailsOnlyWith.blames {path : Option String} {x : Outcome α}
    (h : FailsOnlyWith (Failure.Reports path) x) : Blames path x := by
  intro defect hdefect
  obtain ⟨_, ⟨⟩, _, hpath⟩ := h _ hdefect
  exact hpath

end Outcome

open Outcome

namespace Compilation

variable {around : Surroundings}

/-- A value that cannot be written as a setting ends a field too, but not in a defect. -/
theorem compileField_blames (parent : String) (head : FieldHead) :
    Blames (some (joinPath parent head.name)) (compileField around parent head) := by
  intro defect h
  refine compileField_fails (P := fun failure => ∀ defect, failure = .defect defect →
    defect.path = some (joinPath parent head.name)) ?_ ?_ _ h defect rfl
  · rintro _ ⟨reported, rfl, _, hpath⟩ _ ⟨⟩
    exact hpath
  · intro _ _ _ v _
    refine v.toSetting_failsOnlyWith.mono ?_
    rintro _ rfl _ ⟨⟩

mutual

theorem compileOne_blames (parent : String) (d : Declaration) {defect : Defect}
    (h : compileOne around parent d = .error (.defect defect)) :
    defect.path = some (joinPath parent d.name) ∨
      ∃ head inner way e, d = .block head inner ∧ Declaration.StandsAt inner way e ∧
        defect.path = some (pathOf (joinPath parent d.name) way) := by
  cases d with
  | field head => exact .inl (compileField_blames parent head defect h)
  | block head inner =>
      rw [compileOne] at h
      rcases bind_eq_error.mp h with h | ⟨ctx, hctx, h⟩
      · exact .inl (fieldContext_reports.blames defect h)
      rw [Declaration.name, ← fieldContext_path hctx]
      rcases bind_eq_error.mp h with h | ⟨stated, _, h⟩
      · exact .inl ((keywords_reports _ _).blames defect h)
      rcases bind_eq_error.mp h with h | ⟨fields, _, h⟩
      · obtain ⟨way, e, hstands, hpath⟩ := compileAll_blames ctx.path inner h
        exact .inr ⟨head, inner, way, e, rfl, hstands, hpath⟩
      · cases h
  | embed kind name reference =>
      rw [compileOne] at h
      unfold compileEmbed at h
      split at h
      next =>
        cases h
        exact .inl rfl
      next =>
        cases kind with
        | one => cases h
        | many => cases h
termination_by sizeOf d

/-- A defect of a compilation names the path of a declaration. -/
theorem compileAll_blames (parent : String) (block : List Declaration) {defect : Defect}
    (h : compileAll around parent block = .error (.defect defect)) :
    ∃ way d, Declaration.StandsAt block way d ∧ defect.path = some (pathOf parent way) := by
  cases block with
  | nil => cases h
  | cons d rest =>
      rw [compileAll] at h
      rcases bind_eq_error.mp h with h | ⟨first, _, h⟩
      · rcases compileOne_blames parent d h with hpath | ⟨head, inner, way, e, rfl, hstands, hpath⟩
        · exact ⟨_, d, .here List.mem_cons_self, hpath⟩
        · exact ⟨_, e, .inside List.mem_cons_self hstands, hpath⟩
      rcases bind_eq_error.mp h with h | ⟨others, _, h⟩
      · obtain ⟨way, e, hstands, hpath⟩ := compileAll_blames parent rest h
        exact ⟨way, e, hstands.cons d, hpath⟩
      · cases h
termination_by sizeOf block

end

end Compilation

end FieldSchema
