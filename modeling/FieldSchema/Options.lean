import FieldSchema.Value.Text

/-!
# Field options

The sixteen options that a field understands. An option may be given as any value; before it is
used it is resolved to a literal, which is JSON data that is known when the schema is defined.
Options with other names are dropped.
-/

namespace FieldSchema

/-- An option that a field understands. -/
inductive OptionKey where
  | example
  | format
  | minimum
  | maximum
  | minLength
  | maxLength
  | pattern
  | values
  | included
  | description
  | title
  | nullable
  | default
  | deprecated
  | readOnly
  | writeOnly
deriving Repr, DecidableEq

namespace OptionKey

/-- The name under which an option is given and published. -/
def name : OptionKey → String
  | .example => "example"
  | .format => "format"
  | .minimum => "minimum"
  | .maximum => "maximum"
  | .minLength => "minLength"
  | .maxLength => "maxLength"
  | .pattern => "pattern"
  | .values => "values"
  | .included => "included"
  | .description => "description"
  | .title => "title"
  | .nullable => "nullable"
  | .default => "default"
  | .deprecated => "deprecated"
  | .readOnly => "readOnly"
  | .writeOnly => "writeOnly"

/-- The options in the order in which they are resolved. -/
def all : List OptionKey :=
  [.example, .format, .minimum, .maximum, .minLength, .maxLength, .pattern, .values, .included,
    .description, .title, .nullable, .default, .deprecated, .readOnly, .writeOnly]

/-- Every option is listed. -/
theorem mem_all (key : OptionKey) : key ∈ all := by
  cases key <;> simp [all]

/-- The options of a decimal field that must be plain numbers. -/
def decimalNumbers : List OptionKey :=
  [.example, .minimum, .maximum]

end OptionKey

namespace Value

mutual

/-- The literal that an option's value stands for: dates become ISO text, and lists and plain
objects are resolved item by item. Anything else that JSON cannot hold is not a literal. -/
def literal (option : String) (path : Option String) : Value → Outcome Value
  | .null => .ok .null
  | .bool flag => .ok (.bool flag)
  | .text s => .ok (.text s)
  | .number x => if x.isFinite then .ok (.number x) else notLiteral option path (.number x)
  | .date (some ms) => .ok (.text (Instant.isoText ms))
  | .list items => do return .list (← literalItems option path items)
  | .object _ members => do
      return .object false (Record.ofAssignments (← literalMembers option path members))
  | v => notLiteral option path v
where
  /-- The defect of an option whose value is not a literal. -/
  notLiteral (option : String) (path : Option String) (v : Value) : Outcome Value := do
    throw (.defect (.unresolvedOption option (← v.describe) path))

/-- The literals of a list's items. -/
def literalItems (option : String) (path : Option String) : List Value → Outcome (List Value)
  | [] => .ok []
  | item :: rest => do
      let resolved ← literal option path item
      return resolved :: (← literalItems option path rest)

/-- The literals of an object's members. -/
def literalMembers (option : String) (path : Option String) :
    List (String × Value) → Outcome (List (String × Value))
  | [] => .ok []
  | (name, value) :: rest => do
      let resolved ← literal option path value
      return (name, resolved) :: (← literalMembers option path rest)

end

end Value

/-- The options given to a field, each with its value. -/
abbrev OptionSet := List (OptionKey × Value)

namespace OptionSet

/-- The known options among named entries, in resolution order. -/
def ofEntries (entries : Record Value) : OptionSet :=
  OptionKey.all.filterMap fun key => (entries.get? key.name).map (key, ·)

/-- The known options among the members of a value. -/
def ofValue (v : Value) : OptionSet :=
  ofEntries v.ownEntries

/-- The known options among the members of a value that must not be absent or null. -/
def pick (v : Value) : Outcome OptionSet :=
  if v.isNullish then .error .noMembers else .ok (ofValue v)

/-- The value of an option; an option given as absent counts as not given. -/
def get? (options : OptionSet) (key : OptionKey) : Option Value :=
  match List.lookup key options with
  | some v => v.toOption
  | none => none

/-- Refuse arbitrary-precision values where a decimal field needs plain numbers. -/
def requirePlainDecimals (options : OptionSet) (path : Option String) : Outcome Unit :=
  OptionKey.decimalNumbers.forM fun key =>
    match List.lookup key options with
    | some v =>
        if v.isArbitraryPrecision then do
          throw (.defect (.decimalValue key.name (← v.describe) path))
        else .ok ()
    | none => .ok ()

/-- Replace every option's value by its literal. -/
def resolve (options : OptionSet) (path : Option String) : Outcome OptionSet :=
  options.mapM fun (key, value) => do return (key, ← value.literal key.name path)

/-- Keep only the calendar day of valid dates given as example or default. -/
def toCalendarDays (options : OptionSet) : OptionSet :=
  options.map fun (key, value) =>
    match key, value with
    | .example, .date (some ms) => (key, dayText ms)
    | .default, .date (some ms) => (key, dayText ms)
    | _, _ => (key, value)
where
  /-- The first ten characters of the ISO text. -/
  dayText (ms : Int) : Value :=
    .text (String.ofList ((Instant.isoText ms).toList.take 10))

/-- Merge option sets: what a later one gives wins. -/
def onTopOf (upper lower : OptionSet) : OptionSet :=
  upper ++ lower

end OptionSet

end FieldSchema
