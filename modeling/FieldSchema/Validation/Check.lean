import FieldSchema.Text.Units
import FieldSchema.Calendar.IsoForm
import FieldSchema.Validation.Issue
import FieldSchema.Validation.Validator
import FieldSchema.Value.Inherited
import FieldSchema.Value.Numeric

/-!
# Checking values

A validator checks a value and answers the issues found, in order, and the value as it was taken
over: objects with known fields keep just those fields, missing fields take their defaults. A check
fails outright only where an input makes no sense to it, such as a length that is no number.
-/

namespace FieldSchema

/-- What a check found, and the value that it takes over. -/
structure Checked where
  issues : List Issue := []
  value : Value

namespace Checked

/-- A value with nothing wrong. -/
def clean (v : Value) : Checked := { value := v }

/-- A value with causes that concern it as a whole. -/
def withCauses (v : Value) (causes : List Cause) : Checked where
  issues := causes.map (⟨[], ·⟩)
  value := v

/-- A value of a type that was not expected. -/
def wrongType (expected : Expected) (v : Value) : Outcome Checked := do
  return withCauses v [.wrongType expected (← v.receivedName)]

end Checked

namespace Value

/-- The length that a value states, and what it counts. -/
def length? : Value → Option (Counted × Value)
  | .text s => some (.characters, .number (Float.ofNat (Text.unitLength s)))
  | .list items => some (.items, .number (Float.ofNat items.length))
  | .function arity => some (.unknown, .number (Float.ofNat arity))
  | .object _ members =>
      match Record.get? members "length" with
      | some .absent => none
      | some length => some (.unknown, length)
      | none => none
  | _ => none

end Value

namespace TextChecks

/-- The causes that a length gives. -/
def lengthCauses (c : TextChecks) (counted : Counted) (length : Quantity) : List Cause :=
  (match c.minLength with
    | some least => if length.reaches least then [] else [.tooShort counted least]
    | none => []) ++
  (match c.maxLength with
    | some most => if length.staysWithin most then [] else [.tooLong counted most]
    | none => [])

/-- Whether there is a bound to compare a length with. -/
def hasLengthBound (c : TextChecks) : Bool :=
  c.minLength.isSome || c.maxLength.isSome

/-- The causes that the length of a value gives, whatever its type. -/
def measure (c : TextChecks) (v : Value) : Outcome (List Cause) :=
  match v.length? with
  | some (counted, length) =>
      if c.hasLengthBound then do return c.lengthCauses counted (← length.toQuantity) else .ok []
  | none => .ok []

/-- The causes that the pattern gives for a text. -/
def patternCauses (c : TextChecks) (text : String) : List Cause :=
  match c.pattern with
  | some pattern => if pattern.matchesText text then [] else [.noMatch pattern.shown]
  | none => []

/-- Check a value that should be a text. Lengths are checked even when it is not. -/
def check (c : TextChecks) (v : Value) : Outcome Checked := do
  let lengths ← c.measure v
  match v with
  | .text s => return .withCauses v (lengths ++ c.patternCauses s)
  | _ => return .withCauses v (.wrongType .string (← v.receivedName) :: lengths)

end TextChecks

namespace NumberChecks

/-- The causes that the bounds give. -/
def boundCauses (c : NumberChecks) (x : Float) : List Cause :=
  (match c.minimum with
    | some least => if least ≤ x then [] else [.belowMinimum least]
    | none => []) ++
  (match c.maximum with
    | some most => if x ≤ most then [] else [.aboveMaximum most]
    | none => [])

/-- The bound up to which integers are held exactly. -/
def safeLimit : Float := Float.ofNat largestSafe

/-- The causes for a number that should be an integer, and one that doubles hold exactly. -/
def wholeCauses (x : Float) : List Cause :=
  if x.floor != x then [.notWhole]
  else if safeLimit < x then [.aboveSafe]
  else if x < -safeLimit then [.belowSafe]
  else []

/-- Check a value that should be a finite number. -/
def check (c : NumberChecks) (v : Value) : Outcome Checked :=
  match v with
  | .number x =>
      if x.isFinite then
        .ok (.withCauses v (c.boundCauses x ++ if c.whole then wholeCauses x else []))
      else Checked.wrongType .number v
  | _ => Checked.wrongType .number v

end NumberChecks

/-- Whether an object that states this constructor itself still counts as a plain one. -/
def isPlainConstructor : Value → Outcome Bool
  | .absent => .ok true
  | .null => .error .noMembers
  | made =>
      match made.member "prototype" with
      | .object _ members => .ok (Record.has members "isPrototypeOf")
      | _ => .ok false

/-- The members of an object with any members. Instances have none. -/
def openMembers : Value → Outcome (Option (Record Value))
  | .object _ members => do
      let plain ← match Record.get? members "constructor" with
        | some made => isPlainConstructor made
        | none => pure true
      return if plain then some members else none
  | .ancestor .ofObjects => .ok (some [])
  | _ => .ok none

/-- Check a value that should be an object with any members. -/
def checkOpenMap (v : Value) : Outcome Checked := do
  match ← openMembers v with
  | some members => return .clean (.object false (Record.erase members Record.reservedName))
  | none => Checked.wrongType .record v

/-- Check a value that should be a text in one of the ISO forms. -/
def checkForm (isForm : String → Bool) (otherwise : Cause) (v : Value) : Outcome Checked :=
  match v with
  | .text s => .ok (if isForm s then .clean v else .withCauses v [otherwise])
  | _ => Checked.wrongType .string v

/-- Check a value that should be among the listed ones. -/
def checkChoice (values : List String) (v : Value) : Checked :=
  match v with
  | .text s => if values.contains s then .clean v else .withCauses v [.notListed values]
  | _ => .withCauses v [.notListed values]

namespace Presence

/-- Check a field's value, which may be null or missing. A default is taken over unchecked. -/
def check (p : Presence) (inner : Value → Outcome Checked) (v : Value) : Outcome Checked :=
  match v, p.default with
  | .absent, some default => .ok (.clean default)
  | .absent, none => if p.required then inner .absent else .ok (.clean .absent)
  | .null, _ => if p.nullable then .ok (.clean .null) else inner .null
  | _, _ => inner v

/-- Whether a field is left out of the object that is taken over. -/
def leavesOut (p : Presence) (own : Bool) (taken : Value) : Bool :=
  p.isOptional && taken.isAbsent && !own

end Presence

/-- What the checks of some fields found, and the members that they take over. -/
structure CheckedFields where
  issues : List Issue := []
  members : List (String × Value) := []

/-- What the checks of some items found, and the items that they take over. -/
structure CheckedItems where
  issues : List Issue := []
  items : List Value := []

/-- Check items one by one, from a position on. -/
def checkItems (check : Value → Outcome Checked) (position : Nat) :
    List Value → Outcome CheckedItems
  | [] => .ok {}
  | item :: rest => do
      let first ← check item
      let others ← checkItems check (position + 1) rest
      return {
        issues := first.issues.map (Issue.within (toString position)) ++ others.issues
        items := first.value :: others.items }

namespace Validator

mutual

/-- Check a value. -/
def check : Validator → Value → Outcome Checked
  | .text checks, v => checks.check v
  | .choice values, v => .ok (checkChoice values v)
  | .number checks, v => checks.check v
  | .boolean, .bool flag => .ok (.clean (.bool flag))
  | .boolean, v => Checked.wrongType .boolean v
  | .date, v => checkForm IsoForm.isDate .notDate v
  | .dateTime, v => checkForm IsoForm.isDateTime .notDateTime v
  | .openMap, v => checkOpenMap v
  | .object fields, v =>
      if v.isKeyed then do
        let checked ← checkFields fields v
        return ⟨checked.issues, .object false checked.members⟩
      else Checked.wrongType .object v
  | .list item, .list items => do
      let checked ← checkItems (check item) 0 items
      return ⟨checked.issues, .list checked.items⟩
  | .list _, v => Checked.wrongType .array v
  | .anything, v => .ok (.clean v)

/-- Check the fields of an object. A field with the reserved name is checked and then lost. -/
def checkFields : List (String × Presence × Validator) → Value → Outcome CheckedFields
  | [], _ => .ok {}
  | (name, presence, validator) :: rest, v => do
      let first ← presence.check (check validator) (v.read name)
      let others ← checkFields rest v
      let lost := name = Record.reservedName ||
        presence.leavesOut (Record.has v.ownEntries name) first.value
      return {
        issues := first.issues.map (Issue.within name) ++ others.issues
        members := if lost then others.members else (name, first.value) :: others.members }

end

end Validator

end FieldSchema
