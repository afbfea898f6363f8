import FieldSchema.Value.Text

/-!
# Inherited members

Every object but a bare one answers to names that it does not list itself: those of its class, and
a dozen that all objects share. Nearly all of them are functions. One name leads to the object that
the members are inherited from.
-/

namespace FieldSchema

namespace Ancestor

/-- A function of so many parameters under each name. -/
def functions (named : List (String × Nat)) : Record Value :=
  named.map fun entry => (entry.1, .function entry.2)

/-- A function of as many parameters under each of some names. -/
def functionsOf (arity : Nat) (names : List String) : Record Value :=
  names.map fun name => (name, .function arity)

/-- What all objects share. -/
def objectMembers : Record Value :=
  functions [("constructor", 1), ("__defineGetter__", 2), ("__defineSetter__", 2),
    ("hasOwnProperty", 1), ("__lookupGetter__", 1), ("__lookupSetter__", 1), ("isPrototypeOf", 1),
    ("propertyIsEnumerable", 1), ("toString", 0), ("valueOf", 0), ("toLocaleString", 0)]

/-- The parts of an instant that dates answer by local and by universal time. -/
def instantParts : List String :=
  ["Date", "Day", "FullYear", "Hours", "Milliseconds", "Minutes", "Month", "Seconds"]

/-- The parts that can be set, each with the number of parts that may be set along with it. -/
def settableParts : List (String × Nat) :=
  [("Date", 1), ("FullYear", 3), ("Hours", 4), ("Milliseconds", 1), ("Minutes", 3), ("Month", 2),
    ("Seconds", 2)]

/-- What dates share. -/
def dateMembers : Record Value :=
  functions [("constructor", 7), ("setTime", 1), ("setYear", 1), ("toJSON", 1)] ++
    functionsOf 0 ["getTime", "getTimezoneOffset", "getYear", "valueOf", "toString",
      "toDateString", "toTimeString", "toISOString", "toUTCString", "toGMTString",
      "toLocaleString", "toLocaleDateString", "toLocaleTimeString"] ++
    functionsOf 0 (instantParts.map ("get" ++ ·)) ++
    functionsOf 0 (instantParts.map ("getUTC" ++ ·)) ++
    functions (settableParts.map fun part => ("set" ++ part.1, part.2)) ++
    functions (settableParts.map fun part => ("setUTC" ++ part.1, part.2))

/-- What the instances of a class share. The first entries are data. -/
def hostMembers : HostKind → Record Value
  | .map =>
      [("size", .number 0)] ++
        functions [("constructor", 0), ("get", 1), ("set", 2), ("has", 1), ("delete", 1),
          ("clear", 0), ("entries", 0), ("forEach", 1), ("keys", 0), ("values", 0)]
  | .set =>
      [("size", .number 0)] ++
        functions [("constructor", 0), ("has", 1), ("add", 1), ("delete", 1), ("clear", 0),
          ("entries", 0), ("forEach", 1), ("values", 0), ("keys", 0)] ++
        functionsOf 1 ["union", "intersection", "difference", "symmetricDifference", "isSubsetOf",
          "isSupersetOf", "isDisjointFrom"]
  | .promise => functions [("constructor", 1), ("then", 2), ("catch", 1), ("finally", 1)]
  | .regExp =>
      [("lastIndex", .number 0), ("source", .text "a"), ("flags", .text "")] ++
        ["dotAll", "global", "hasIndices", "ignoreCase", "multiline", "sticky", "unicode",
          "unicodeSets"].map (·, .bool false) ++
        functions [("constructor", 2), ("exec", 1), ("compile", 2), ("toString", 0), ("test", 1)]
  | .plain => functions [("constructor", 0)]
  | .fixedField => functions [("constructor", 0)]

/-- What the objects of one kind share among themselves. -/
def ownMembers : Ancestor → Record Value
  | .ofObjects => objectMembers
  | .ofDates => dateMembers
  | .ofDecimals => functions [("constructor", 1), ("toFixed", 0), ("toString", 0)]
  | .ofHosts kind => hostMembers kind

/-- A member that the objects of one kind answer to: their own kind's, or else any object's. -/
def member? (common : Ancestor) (name : String) : Option Value :=
  (Record.get? common.ownMembers name).or (Record.get? objectMembers name)

end Ancestor

namespace Value

/-- Whether a name is inherited by every object but bare ones. -/
def isInheritedName (name : String) : Bool :=
  name = Record.reservedName || Record.has Ancestor.objectMembers name

/-- The object that a value inherits from. -/
def ancestor? : Value → Option Ancestor
  | .object bare _ => if bare then none else some .ofObjects
  | .date _ => some .ofDates
  | .decimal _ => some .ofDecimals
  | .host kind => some (.ofHosts kind)
  | .ancestor .ofObjects => none
  | .ancestor _ => some .ofObjects
  | _ => none

/-- What the reserved name leads to: the object inherited from. The object that all others inherit
from has null there, and a bare object has nothing. -/
def lineage (v : Value) : Value :=
  match v.ancestor?, v with
  | some common, _ => .ancestor common
  | none, .ancestor _ => .null
  | none, _ => .absent

/-- The members that a value answers to without listing them. -/
def shared? (v : Value) (name : String) : Option Value :=
  match v with
  | .ancestor common => common.member? name
  | _ => v.ancestor?.bind (·.member? name)

/-- A member of an object: its own, or else an inherited one. -/
def read (v : Value) (name : String) : Value :=
  match Record.get? v.ownEntries name with
  | some own => own
  | none => if name = Record.reservedName then v.lineage else (v.shared? name).getD .absent

/-- Objects of any kind that are not lists. -/
def isKeyed : Value → Bool
  | .date _ | .decimal _ | .host _ | .ancestor _ | .object _ _ => true
  | _ => false

/-- The name that an object's constructor gives it: whatever the constructor has for a name. -/
def constructorName : Value → Outcome String
  | .function _ => .ok ""
  | .object _ members =>
      match Record.get? members "name" with
      | some (.symbol _) => .error .noText
      | some name => name.toText
      | none => .ok "undefined"
  | _ => .ok "undefined"

/-- What a value is called when another kind of value was expected: its type, or the class of an
instance. A bare object may state its constructor itself. -/
def receivedName : Value → Outcome String
  | .null => .ok "null"
  | .number x => .ok (if x.isNaN then "NaN" else "number")
  | .list _ => .ok "array"
  | .date _ => .ok "Date"
  | .decimal _ => .ok "Money"
  | .host kind => .ok kind.className
  | .ancestor .ofObjects => .ok "Object"
  | .object true members =>
      let made := (Record.get? members "constructor").getD .absent
      if made.isTruthy then made.constructorName else .ok "object"
  | v => .ok v.typeName

end Value

end FieldSchema
