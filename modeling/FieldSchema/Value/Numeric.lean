import FieldSchema.Number.Comparison
import FieldSchema.Number.Numeral
import FieldSchema.Value.Text

/-!
# Values as numbers

The number that a value counts as where only a number makes sense.
-/

namespace FieldSchema

/-- What a value counts as: a double, or an integer of arbitrary size, which is not rounded. -/
inductive Quantity where
  | double (x : Float)
  | integer (n : Int)

namespace Quantity

/-- Whether a quantity is at least a bound. -/
def reaches (q : Quantity) (least : Float) : Bool :=
  match q with
  | .double x => least ≤ x
  | .integer n => Number.isAtMost least n

/-- Whether a quantity is at most a bound. -/
def staysWithin (q : Quantity) (most : Float) : Bool :=
  match q with
  | .double x => x ≤ most
  | .integer n => Number.isAtLeast most n

end Quantity

namespace Value

/-- The number that a value counts as. Symbols, and objects that cannot be written as a text, have
none. -/
def toNumber : Value → Outcome Float
  | .absent => .ok Number.undefinedNumber
  | .null => .ok 0
  | .bool flag => .ok (if flag then 1 else 0)
  | .number x => .ok x
  | .text s => .ok (Number.ofText s)
  | .bigInt n => .ok (Float.ofInt n)
  | .date (some ms) => .ok (Float.ofInt ms)
  | .date none => .ok Number.undefinedNumber
  | .symbol _ => .error .noText
  | v => do return Number.ofText (← v.toText)

/-- The quantity that a value counts as. -/
def toQuantity : Value → Outcome Quantity
  | .bigInt n => .ok (.integer n)
  | v => do return .double (← v.toNumber)

end Value

end FieldSchema
