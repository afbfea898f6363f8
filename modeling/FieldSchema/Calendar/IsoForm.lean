import FieldSchema.Calendar.Instant

/-!
# ISO dates and times in input

Which texts are an ISO date, and which an ISO date and time. A date is `YYYY-MM-DD` with ASCII
digits and names a day that exists. A date and time is a date, `T`, hours and minutes, then
optionally seconds with an optional fraction, and at the end `Z`, an offset or nothing.
-/

namespace FieldSchema.IsoForm

open Instant

/-- The date at the front of a text, and what follows it. -/
def date? (cs : List Char) : Option (CalendarDate × List Char) :=
  match digits? 4 cs with
  | some (year, '-' :: afterYear) =>
      match digits? 2 afterYear with
      | some (month, '-' :: afterMonth) =>
          match digits? 2 afterMonth with
          | some (day, rest) =>
              if (⟨year, month, day⟩ : CalendarDate).exists? then some (⟨year, month, day⟩, rest)
              else none
          | none => none
      | _ => none
  | _ => none

/-- Whether a text is an ISO date. -/
def isDate (text : String) : Bool :=
  match date? text.toList with
  | some (_, []) => true
  | _ => false

/-- A zone at the end of a text: nothing, `Z`, or a sign, two digits, a colon and two digits. -/
def isZone : List Char → Bool
  | [] => true
  | ['Z'] => true
  | sign :: rest =>
      (sign == '+' || sign == '-') &&
        match digits? 2 rest with
        | some (_, ':' :: afterHours) =>
            match digits? 2 afterHours with
            | some (_, []) => true
            | _ => false
        | _ => false

/-- What may follow the minutes: seconds with an optional fraction, then a zone. -/
def isAfterMinutes : List Char → Bool
  | ':' :: rest =>
      match digits? 2 rest with
      | some (seconds, '.' :: fraction) =>
          seconds < 60 && !(fraction.takeWhile Char.isDigit).isEmpty &&
            isZone (fraction.dropWhile Char.isDigit)
      | some (seconds, after) => seconds < 60 && isZone after
      | none => false
  | rest => isZone rest

/-- Whether the characters after the `T` are a time. -/
def isClock (cs : List Char) : Bool :=
  match digits? 2 cs with
  | some (hours, ':' :: afterHours) =>
      match digits? 2 afterHours with
      | some (minutes, rest) => hours < 24 && minutes < 60 && isAfterMinutes rest
      | none => false
  | _ => false

/-- Whether a text is an ISO date and time. -/
def isDateTime (text : String) : Bool :=
  match date? text.toList with
  | some (_, 'T' :: clock) => isClock clock
  | _ => false

end FieldSchema.IsoForm
