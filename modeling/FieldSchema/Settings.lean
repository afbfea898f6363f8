import FieldSchema.Publication.Versions
import FieldSchema.Text.Blank
import FieldSchema.TypeDefaults

/-!
# Settings

Settings stand in a text as bold labels, each followed by its value on the same line. Only the first
line with a label counts. A value may stand between backquotes; an empty value leaves the setting
as it is by default.
-/

namespace FieldSchema

/-- The settings of a project. -/
structure Settings where
  dateExample : String := TypeDefaults.dateExample
  datetimeExample : String := TypeDefaults.datetimeExample
  apiVersion : String := Publication.standardApiVersion
  openApiVersion : String := Publication.standardFormatVersion
deriving Repr, DecidableEq

namespace Settings

/-- The characters after a label at the front, where ASCII letters are compared without case. -/
def afterLabel? : List Char → List Char → Option (List Char)
  | [], cs => some cs
  | _ :: _, [] => none
  | l :: label, c :: cs => if l.toLower = c.toLower then afterLabel? label cs else none

/-- What follows the first occurrence of a label that anything follows on its line. -/
def lineAfter? (label : List Char) : List Char → Option (List Char)
  | [] => none
  | c :: rest =>
      match afterLabel? label (c :: rest) with
      | some after =>
          match after.takeWhile fun d => !Text.isLineEnd d with
          | [] => lineAfter? label rest
          | line => some line
      | none => lineAfter? label rest

/-- The mark in which a value may stand. -/
def backquote : Char := Char.ofNat 96

/-- The characters between two backquotes at the ends, or else the characters as they are. -/
def unquoted (cs : List Char) : List Char :=
  match cs with
  | first :: second :: rest =>
      if first = backquote ∧ (second :: rest).getLast? = some backquote then
        (second :: rest).dropLast
      else cs
  | _ => cs

/-- The bold form of a label. -/
def bold (label : String) : List Char :=
  ("**" ++ label ++ ":**").toList

/-- The value of a label, unless there is none or it is empty. -/
def value? (content label : String) : Option String :=
  match lineAfter? (bold label) content.toList with
  | some line =>
      match unquoted (Text.trimChars line) with
      | [] => none
      | value => some (String.ofList value)
  | none => none

/-- The settings that a text gives. -/
def ofText (content : String) : Settings :=
  let standard : Settings := {}
  { dateExample := (value? content "Date example").getD standard.dateExample
    datetimeExample := (value? content "Datetime example").getD standard.datetimeExample
    apiVersion := (value? content "API version").getD standard.apiVersion
    openApiVersion := (value? content "OpenAPI version").getD standard.openApiVersion }

/-- The type defaults that the settings give. -/
def typeDefaults (s : Settings) : TypeDefaults :=
  [(.date, [(.example, .text s.dateExample)]), (.datetime, [(.example, .text s.datetimeExample)])]

/-- The versions for a document. -/
def documentSettings (s : Settings) : Record Value :=
  [("openApiVersion", .text s.openApiVersion), ("apiVersion", .text s.apiVersion)]

end Settings

end FieldSchema
