import FieldSchema.Record

/-!
# Values

What a host program may hand over as a declaration, an option or an input: JSON data, and the
kinds of object that JSON cannot hold. Objects list their own members in enumeration order. An
object also answers to the members of the object that it inherits from; a bare object inherits
nothing.
-/

namespace FieldSchema

/-- Kinds of host object that carry no data of interest. -/
inductive HostKind where
  | map
  | set
  | promise
  | regExp
  /-- An instance of an empty class. -/
  | plain
  /-- An instance whose member `toFixed` is the number 2. -/
  | fixedField
deriving Repr, DecidableEq

/-- The class that an instance reports. -/
def HostKind.className : HostKind → String
  | .map => "Map"
  | .set => "Set"
  | .promise => "Promise"
  | .regExp => "RegExp"
  | .plain => "Plain"
  | .fixedField => "FixedField"

/-- An object that others inherit from, known by what they are. -/
inductive Ancestor where
  | ofObjects
  | ofDates
  | ofDecimals
  | ofHosts (kind : HostKind)
deriving Repr, DecidableEq

/-- A value as a host program hands it over. -/
inductive Value where
  /-- No value at all. -/
  | absent
  | null
  | bool (flag : Bool)
  | number (x : Float)
  | text (s : String)
  /-- An integer of arbitrary size. -/
  | bigInt (n : Int)
  /-- A date, in milliseconds since 1970; an invalid date has none. -/
  | date (ms : Option Int)
  /-- A function of so many parameters. -/
  | function (arity : Nat)
  | symbol (label : String)
  /-- A decimal number of arbitrary precision, known by its text. -/
  | decimal (digits : String)
  | host (kind : HostKind)
  /-- An object that others inherit from. It is reached through one of them only. -/
  | ancestor (common : Ancestor)
  | list (items : List Value)
  /-- An object with its own members; a bare one inherits nothing. -/
  | object (bare : Bool) (members : List (String × Value))

namespace Value

instance : Inhabited Value := ⟨.absent⟩

/-- An ordinary object whose members are set one after another. -/
def ofEntries (entries : List (String × Value)) : Value :=
  .object false (Record.ofList entries)

/-- Whether no value is there. -/
def isAbsent : Value → Bool
  | .absent => true
  | _ => false

/-- Absent or null: what a fallback replaces. -/
def isNullish : Value → Bool
  | .absent => true
  | .null => true
  | _ => false

/-- The value, unless it is absent or null. -/
def orElse (v fallback : Value) : Value :=
  if v.isNullish then fallback else v

/-- The value as an option that is empty when it is absent. -/
def toOption (v : Value) : Option Value :=
  if v.isAbsent then none else some v

/-- The truth of a value in a condition. -/
def isTruthy : Value → Bool
  | .absent | .null => false
  | .bool flag => flag
  | .number x => !(x == 0 || x.isNaN)
  | .text s => s != ""
  | .bigInt n => n != 0
  | _ => true

/-- The name of a value's type. -/
def typeName : Value → String
  | .absent => "undefined"
  | .bool _ => "boolean"
  | .number _ => "number"
  | .text _ => "string"
  | .bigInt _ => "bigint"
  | .function _ => "function"
  | .symbol _ => "symbol"
  | _ => "object"

/-- Whether a value is a text that reads just so. -/
def isText (v : Value) (s : String) : Bool :=
  match v with
  | .text other => other == s
  | _ => false

/-- Whether a record has a function under a name. -/
def holdsFunction (members : Record Value) (name : String) : Bool :=
  match Record.get? members name with
  | some (.function _) => true
  | _ => false

/-- Objects written as literals, bare or not. -/
def isPlainObject : Value → Bool
  | .object _ _ => true
  | _ => false

/-- Numbers of arbitrary precision. -/
def isArbitraryPrecision : Value → Bool
  | .bigInt _ => true
  | .decimal _ => true
  | _ => false

/-- The members that a value can enumerate: those of an object, the items of a list and the
characters of a text by position, and the fields of an instance. -/
def ownEntries : Value → Record Value
  | .object _ members => members
  | .list items => items.mapIdx fun i item => (toString i, item)
  | .text s => s.toList.mapIdx fun i c => (toString i, .text (String.singleton c))
  | .decimal digits => [("text", .text digits)]
  | .host .fixedField => [("toFixed", .number 2)]
  | _ => []

/-- A member of an object; anything else has none of the members asked for here. -/
def member (v : Value) (name : String) : Value :=
  match v with
  | .object _ members => (Record.get? members name).getD .absent
  | _ => .absent

end Value

end FieldSchema
