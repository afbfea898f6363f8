import FieldSchema.Number.Text

/-!
# Validation issues

An issue says what is wrong with a value and where in the input the value stands. It is known by its
cause; the wording is in one place.
-/

namespace FieldSchema

/-- What a value was expected to be. -/
inductive Expected where
  | string
  | number
  | boolean
  | object
  /-- An object with any members. -/
  | record
  | array
deriving Repr, DecidableEq

/-- The word for what was expected. -/
def Expected.name : Expected → String
  | .string => "string"
  | .number => "number"
  | .boolean => "boolean"
  | .object => "object"
  | .record => "record"
  | .array => "array"

/-- What the length of a value counts. -/
inductive Counted where
  | characters
  | items
  /-- The value is neither a text nor a list, yet it states a length. -/
  | unknown
deriving Repr, DecidableEq

namespace Counted

/-- The words for a value that should have a length in relation to a bound. -/
def demand (counted : Counted) (bound : String) : String :=
  match counted with
  | .characters => "string to have " ++ bound ++ " characters"
  | .items => "array to have " ++ bound ++ " items"
  | .unknown => "unknown to be " ++ bound

end Counted

/-- The largest integer up to which every integer is a double. -/
def largestSafe : Nat := 9007199254740991

/-- What is wrong with a value. -/
inductive Cause where
  | wrongType (expected : Expected) (received : String)
  /-- The value is not among the listed ones. -/
  | notListed (values : List String)
  | tooShort (counted : Counted) (bound : Float)
  | tooLong (counted : Counted) (bound : Float)
  | noMatch (pattern : String)
  | notDate
  | notDateTime
  | belowMinimum (bound : Float)
  | aboveMaximum (bound : Float)
  | notWhole
  | aboveSafe
  | belowSafe

namespace Cause

/-- A listed value between quotes. -/
def quoted (value : String) : String :=
  "\"" ++ value ++ "\""

/-- The wording of a cause. -/
def message : Cause → String
  | .wrongType expected received =>
      "Invalid input: expected " ++ expected.name ++ ", received " ++ received
  | .notListed [value] => "Invalid input: expected " ++ quoted value
  | .notListed values =>
      "Invalid option: expected one of " ++ String.intercalate "|" (values.map quoted)
  | .tooShort counted bound =>
      "Too small: expected " ++ counted.demand (">=" ++ Number.text bound)
  | .tooLong counted bound => "Too big: expected " ++ counted.demand ("<=" ++ Number.text bound)
  | .noMatch pattern => "Invalid string: must match pattern " ++ pattern
  | .notDate => "Invalid ISO date"
  | .notDateTime => "Invalid ISO datetime"
  | .belowMinimum bound => "Too small: expected number to be >=" ++ Number.text bound
  | .aboveMaximum bound => "Too big: expected number to be <=" ++ Number.text bound
  | .notWhole => "Invalid input: expected int, received number"
  | .aboveSafe => "Too big: expected int to be <" ++ toString largestSafe
  | .belowSafe => "Too small: expected int to be >-" ++ toString largestSafe

end Cause

/-- What is wrong, and the member names and item positions that lead to it. -/
structure Issue where
  path : List String
  cause : Cause

namespace Issue

/-- The name under which an issue is reported: its path with dots between, or a name for the input
as a whole. -/
def key (i : Issue) : String :=
  if i.path.isEmpty then "_root" else String.intercalate "." i.path

/-- The issue as seen from a value that holds the place where it arose. -/
def within (step : String) (i : Issue) : Issue :=
  { i with path := step :: i.path }

end Issue

end FieldSchema
