import FieldSchema.Validation.Check

/-!
# Verdicts

The verdict on an input: the value taken over, or the messages of all issues, grouped by the place
in the input that they concern. Errors cannot be collected under a name that every object inherits.
-/

namespace FieldSchema

/-- Messages by the place that they concern. -/
abbrev FieldErrors := Record (List String)

/-- The verdict on an input. -/
inductive Verdict where
  | accepted (value : Value)
  | rejected (errors : FieldErrors)

namespace FieldErrors

/-- Add the message of an issue. -/
def add (errors : FieldErrors) (i : Issue) : Outcome FieldErrors :=
  if Value.isInheritedName i.key then .error .inheritedName
  else .ok (Record.set errors i.key ((Record.get? errors i.key).getD [] ++ [i.cause.message]))

/-- The messages of issues, grouped. -/
def ofIssues (issues : List Issue) : Outcome FieldErrors :=
  issues.foldlM add []

/-- The errors as data. -/
def toValue (errors : FieldErrors) : Value :=
  .object false (Record.mapValues (fun messages => .list (messages.map .text)) errors)

end FieldErrors

/-- The verdict on an input. -/
def Validator.judge (validator : Validator) (input : Value) : Outcome Verdict := do
  let checked ← validator.check input
  if checked.issues.isEmpty then return .accepted checked.value
  else return .rejected (← FieldErrors.ofIssues checked.issues)

/-- The verdict on an input by a descriptor's validator. -/
def Descriptor.judge (d : Descriptor) (input : Value) : Outcome Verdict := do
  (← d.validator).judge input

end FieldSchema
