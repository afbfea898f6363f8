import FieldSchema.Failure
import FieldSchema.Pattern
import FieldSchema.Rule

/-!
# Validators

A validator is a descriptor made ready to check values: patterns are read and the fields of each
object stand in enumeration order. A descriptor has no validator when one of its patterns is not
well formed, or when a text would have to be longer than it may be.
-/

namespace FieldSchema

/-- What a text must satisfy. -/
structure TextChecks where
  minLength : Option Float := none
  maxLength : Option Float := none
  pattern : Option Pattern := none

/-- What a number must satisfy. -/
structure NumberChecks where
  minimum : Option Float := none
  maximum : Option Float := none
  /-- Whether it must be an integer. -/
  whole : Bool := false

/-- What a field says about a value that is null or missing. -/
structure Presence where
  required : Bool
  nullable : Bool := false
  default : Option Value := none

/-- A check for values of one kind. -/
inductive Validator where
  | text (checks : TextChecks)
  | choice (values : List String)
  | number (checks : NumberChecks)
  | boolean
  | date
  | dateTime
  /-- An object with any members. -/
  | openMap
  /-- An object with known fields. -/
  | object (fields : List (String × Presence × Validator))
  | list (item : Validator)
  | anything

namespace Presence

/-- What a stated default puts in place of a missing value. A function is called, and what it gives
is absent; an absent default is none. -/
def defaultOf : Value → Option Value
  | .function _ => some .absent
  | v => v.toOption

/-- What a rule says about a value that is null or missing. -/
def ofHead (head : RuleHead) : Presence where
  required := head.required
  nullable := head.constraints.nullable.getD false
  default := head.constraints.default.bind defaultOf

/-- Whether a missing value is left missing. -/
def isOptional (p : Presence) : Bool :=
  !p.required && p.default.isNone

end Presence

namespace TextChecks

/-- Whether a bound is a count that is written with digits only. -/
def isCount (bound : Float) : Bool :=
  0 ≤ bound && bound < 1e21 && bound.floor == bound

/-- A count, where counts beyond a limit are not told apart. -/
def limited (bound : Float) : Float :=
  let limit := Float.ofNat Pattern.countLimit
  if bound < limit then bound else limit

/-- Whether two length bounds are counts that no length satisfies. -/
def boundsConflict (minLength maxLength : Option Float) : Bool :=
  match minLength, maxLength with
  | some least, some most => isCount least && isCount most && limited most < limited least
  | _, _ => false

/-- The checks for a text under given constraints. -/
def ofConstraints (c : Constraints) : Outcome TextChecks :=
  if boundsConflict c.minLength c.maxLength then .error .badPattern
  else
    match c.pattern with
    | none => .ok { minLength := c.minLength, maxLength := c.maxLength }
    | some source =>
        match Pattern.ofSource? source with
        | none => .error .badPattern
        | some pattern =>
            .ok { minLength := c.minLength, maxLength := c.maxLength, pattern := some pattern }

end TextChecks

namespace Validator

/-- A choice among listed values, each named once and in enumeration order. -/
def ofChoice (values : List String) : Validator :=
  .choice (Record.ofList (values.map fun value => (value, ()))).names

/-- The validator for a number under given constraints. -/
def ofNumber (c : Constraints) (whole : Bool) : Validator :=
  .number ⟨c.minimum, c.maximum, whole⟩

/-- The validator for a type, given the validators of its elements and of its inner values. -/
def ofType (type : RuleType) (c : Constraints) (map item : Outcome Validator) :
    Outcome Validator :=
  match type with
  | .string =>
      match c.included with
      | some (first :: rest) => .ok (ofChoice (first :: rest))
      | _ => do return .text (← TextChecks.ofConstraints c)
  | .integer => .ok (ofNumber c true)
  | .number => .ok (ofNumber c false)
  | .decimal => .ok (ofNumber c false)
  | .boolean => .ok .boolean
  | .date => .ok .date
  | .datetime => .ok .dateTime
  | .map => map
  | .array => do return .list (← item)

/-- The validator for elements of which only the type is known. -/
def ofItem : ItemType → Validator
  | .string => .text {}
  | .integer => .number { whole := true }
  | .map => .openMap

mutual

/-- The validator for the values of a rule. -/
def ofRule : Rule → Outcome Validator
  | .plain head => ofType head.type head.constraints (.ok .openMap) (.ok .anything)
  | .fields head inner => ofType head.type head.constraints (ofRules inner) (.ok .anything)
  | .items head item => ofType head.type head.constraints (.ok .openMap) (.ok (ofItem item))
  | .itemFields head inner => ofType head.type head.constraints (.ok .openMap) (ofRules inner)

/-- The validator for objects whose fields the rules describe. Of two rules for one field the later
counts, in the place of the earlier. -/
def ofRules (rules : List Rule) : Outcome Validator := do
  return .object (Record.ofList (← ofFields rules))

/-- The fields that rules describe, in the order of the rules. -/
def ofFields : List Rule → Outcome (List (String × Presence × Validator))
  | [] => .ok []
  | rule :: rest => do
      let validator ← ofRule rule
      return (rule.name, Presence.ofHead rule.head, validator) :: (← ofFields rest)

end

end Validator

/-- The validator of a descriptor. -/
def Descriptor.validator (d : Descriptor) : Outcome Validator :=
  Validator.ofRules d

end FieldSchema
