import FieldSchema.Json.Writer

/-!
# The text of a value

How a value reads inside a message, and how an offending value is described.
-/

namespace FieldSchema.Value

/-- The text of an object with members of its own. An object writes itself by its function
`toString`, or else by its function `valueOf`; a function of its own gives nothing, which reads
`undefined`. An object that is left without either has no text. -/
def objectText (bare : Bool) (members : Record Value) : Outcome String :=
  if holdsFunction members "toString" then .ok "undefined"
  else if bare || Record.has members "toString" then
    if holdsFunction members "valueOf" then .ok "undefined" else .error .noText
  else .ok "[object Object]"

mutual

/-- The text of a value. Symbols inside a list, and objects that cannot write themselves, have
none. -/
def toText : Value → Outcome String
  | .absent => .ok "undefined"
  | .null => .ok "null"
  | .bool flag => .ok (if flag then "true" else "false")
  | .number x => .ok (Number.text x)
  | .text s => .ok s
  | .bigInt n => .ok (toString n)
  | .date (some ms) => .ok (Instant.longText ms)
  | .date none => .ok "Invalid Date"
  | .function _ => .ok "() => undefined"
  | .symbol label => .ok ("Symbol(" ++ label ++ ")")
  | .decimal digits => .ok digits
  | .host .map => .ok "[object Map]"
  | .host .set => .ok "[object Set]"
  | .host .promise => .ok "[object Promise]"
  | .host .regExp => .ok "/a/"
  | .host .plain => .ok "[object Object]"
  | .host .fixedField => .ok "[object Object]"
  | .ancestor _ => .ok "[object Object]"
  | .list items => do return String.intercalate "," (← itemTexts items)
  | .object bare members => objectText bare members

/-- The texts of a list's items; absent and null items are empty. -/
def itemTexts : List Value → Outcome (List String)
  | [] => .ok []
  | .absent :: rest => do return "" :: (← itemTexts rest)
  | .null :: rest => do return "" :: (← itemTexts rest)
  | .symbol _ :: _ => .error .noText
  | item :: rest => do
      let text ← toText item
      return text :: (← itemTexts rest)

end

/-- A short description of an offending value. -/
def describe (v : Value) : Outcome String :=
  let instanceOf (className : String) : Outcome String := do
    return "an instance of " ++ className ++ " (" ++ (← v.toText) ++ ")"
  match v with
  | .function _ => .ok "a function"
  | .bigInt n => .ok (toString n ++ "n")
  | .date _ => instanceOf "Date"
  | .decimal _ => instanceOf "Money"
  | .host kind => instanceOf kind.className
  | .list _ => instanceOf "Array"
  | .object true _ => .ok "a prototype-less object"
  | .object false _ | .ancestor _ => instanceOf "Object"
  | _ => v.toText

/-- A plain setting as a text: texts as they are, null as nothing, lists and objects as JSON. It is
absent when JSON cannot hold it. -/
def toSetting (v : Value) : Outcome Value :=
  match v with
  | .text s => .ok (.text s)
  | .null => .ok (.text "")
  | .date _ | .decimal _ | .host _ | .ancestor _ | .list _ | .object _ _ => do
      match ← Json.compact? v with
      | some json => return .text json
      | none => return .absent
  | _ => do return .text (← v.toText)

end FieldSchema.Value
