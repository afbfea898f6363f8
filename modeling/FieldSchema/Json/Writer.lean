import FieldSchema.Failure
import FieldSchema.Number.Text
import FieldSchema.Calendar.Instant
import FieldSchema.Value

/-!
# Writing JSON

The JSON text of a value, on one line or indented. What JSON cannot hold is dropped from objects
and becomes `null` in lists; dates become their ISO text; integers of arbitrary size have no JSON
text at all. An object may name the function that gives its JSON form; what a function gives is
always absent, so JSON cannot hold such an object.
-/

namespace FieldSchema.Json

/-- Four hexadecimal digits. -/
def hex4 (n : Nat) : String :=
  let digits := Nat.toDigits 16 n
  String.ofList (List.replicate (4 - digits.length) '0' ++ digits)

/-- One character of a quoted text. -/
def quotedChar (c : Char) : String :=
  match c with
  | '"' => "\\\""
  | '\\' => "\\\\"
  | '\n' => "\\n"
  | '\r' => "\\r"
  | '\t' => "\\t"
  | c =>
      if c.toNat = 8 then "\\b"
      else if c.toNat = 12 then "\\f"
      else if c.toNat < 32 then "\\u" ++ hex4 c.toNat
      else String.singleton c

/-- A text in quotes. -/
def quoted (s : String) : String :=
  "\"" ++ String.join (s.toList.map quotedChar) ++ "\""

/-- A number; infinities and NaN have no JSON text and become `null`. -/
def numberText (x : Float) : String :=
  if x.isNaN || x.isInf then "null" else Number.text x

/-- How a text is laid out: on one line, or indented by so many spaces per level. -/
inductive Layout where
  | compact
  | indented (width : Nat)

/-- The break before an element at a nesting depth. -/
def Layout.lineBreak : Layout → Nat → String
  | .compact, _ => ""
  | .indented width, depth => "\n" ++ String.ofList (List.replicate (width * depth) ' ')

/-- What stands between a name and its value. -/
def Layout.colon : Layout → String
  | .compact => ":"
  | .indented _ => ": "

/-- Elements between brackets, each on its own line when the text is indented. -/
def bracketed (layout : Layout) (depth : Nat) (opening closing : String)
    (elements : List String) : String :=
  if elements.isEmpty then opening ++ closing
  else
    opening ++ layout.lineBreak (depth + 1) ++
      String.intercalate ("," ++ layout.lineBreak (depth + 1)) elements ++
      layout.lineBreak depth ++ closing

/-- The opening brace of an object. -/
def openBrace : String := "\x7b"

/-- The closing brace of an object. -/
def closeBrace : String := "\x7d"

/-- The member under which an object names the function that gives its JSON form. -/
def formName : String := "toJSON"

mutual

/-- The JSON text of a value at a nesting depth; `none` for what JSON cannot hold. -/
def write (layout : Layout) (depth : Nat) : Value → Outcome (Option String)
  | .absent => .ok none
  | .function _ => .ok none
  | .symbol _ => .ok none
  | .null => .ok (some "null")
  | .bool flag => .ok (some (if flag then "true" else "false"))
  | .number x => .ok (some (numberText x))
  | .text s => .ok (some (quoted s))
  | .bigInt _ => .error .noText
  | .date (some ms) => .ok (some (quoted (Instant.isoText ms)))
  | .date none => .ok (some "null")
  | .decimal digits =>
      .ok (some (bracketed layout depth openBrace closeBrace
        [quoted "text" ++ layout.colon ++ quoted digits]))
  | .host .fixedField =>
      .ok (some (bracketed layout depth openBrace closeBrace
        [quoted "toFixed" ++ layout.colon ++ "2"]))
  | .host _ => .ok (some (openBrace ++ closeBrace))
  | .ancestor _ => .ok (some (openBrace ++ closeBrace))
  | .list items => do
      return some (bracketed layout depth "[" "]" (← writeItems layout (depth + 1) items))
  | .object _ members =>
      if Value.holdsFunction members formName then .ok none
      else do
        return some
          (bracketed layout depth openBrace closeBrace (← writeMembers layout (depth + 1) members))

/-- The texts of a list's items. -/
def writeItems (layout : Layout) (depth : Nat) : List Value → Outcome (List String)
  | [] => .ok []
  | item :: rest => do
      let text ← write layout depth item
      return text.getD "null" :: (← writeItems layout depth rest)

/-- The texts of an object's members, without those that JSON cannot hold. -/
def writeMembers (layout : Layout) (depth : Nat) : List (String × Value) → Outcome (List String)
  | [] => .ok []
  | (name, value) :: rest => do
      let text ← write layout depth value
      let others ← writeMembers layout depth rest
      match text with
      | some body => return (quoted name ++ layout.colon ++ body) :: others
      | none => return others

end

/-- The JSON text of a value on one line. -/
def compact? (v : Value) : Outcome (Option String) :=
  write .compact 0 v

/-- The JSON text of a value, indented by two spaces. -/
def indented? (v : Value) : Outcome (Option String) :=
  write (.indented 2) 0 v

end FieldSchema.Json
