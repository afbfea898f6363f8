import FieldSchema.Calendar.Date
import FieldSchema.Record

/-!
# Instants

An instant is a number of milliseconds since 1970 in universal time. It is written as ISO 8601
text with three decimals of a second; years outside 0 to 9999 take a sign and six digits.
-/

namespace FieldSchema.Instant

/-- Milliseconds per day. -/
def msPerDay : Int := 86400000

/-- The largest distance from 1970 that an instant can have. -/
def maxDistance : Int := 8640000000000000

/-- Whether a number of milliseconds lies within the range of instants. -/
def inRange (ms : Int) : Bool :=
  -maxDistance ≤ ms && ms ≤ maxDistance

/-- A natural number with at least `width` digits. -/
def padded (width n : Nat) : String :=
  let digits := Nat.toDigits 10 n
  String.ofList (List.replicate (width - digits.length) '0' ++ digits)

/-- The year of an ISO text. -/
def yearText (year : Int) : String :=
  if 0 ≤ year ∧ year ≤ 9999 then padded 4 year.toNat
  else (if year < 0 then "-" else "+") ++ padded 6 year.natAbs

/-- The calendar day of an instant. -/
def date (ms : Int) : CalendarDate :=
  CalendarDate.ofDayCount (ms / msPerDay)

/-- The milliseconds since midnight. -/
def timeOfDay (ms : Int) : Nat :=
  (ms % msPerDay).toNat

/-- A calendar day as text. -/
def dateText (d : CalendarDate) : String :=
  yearText d.year ++ "-" ++ padded 2 d.month ++ "-" ++ padded 2 d.day

/-- The hours, minutes and seconds of a time of day. -/
def clockText (time : Nat) : String :=
  padded 2 (time / 3600000) ++ ":" ++ padded 2 (time / 60000 % 60) ++ ":" ++
    padded 2 (time / 1000 % 60)

/-- The ISO text of an instant. -/
def isoText (ms : Int) : String :=
  dateText (date ms) ++ "T" ++ clockText (timeOfDay ms) ++ "." ++ padded 3 (timeOfDay ms % 1000) ++
    "Z"

/-- The long form of an instant, as people read it. -/
def longText (ms : Int) : String :=
  let d := date ms
  let weekdays := ["Thu", "Fri", "Sat", "Sun", "Mon", "Tue", "Wed"]
  let months := ["Jan", "Feb", "Mar", "Apr", "May", "Jun", "Jul", "Aug", "Sep", "Oct", "Nov", "Dec"]
  let weekday := weekdays.getD (ms / msPerDay % 7).toNat ""
  let month := months.getD (d.month - 1) ""
  let year := (if d.year < 0 then "-" else "") ++ padded 4 d.year.natAbs
  weekday ++ " " ++ month ++ " " ++ padded 2 d.day ++ " " ++ year ++ " " ++
    clockText (timeOfDay ms) ++ " GMT+0000 (Coordinated Universal Time)"

/-- Exactly `count` digits, and what follows them. -/
def digits? (count : Nat) (cs : List Char) : Option (Nat × List Char) :=
  let head := cs.take count
  if head.length = count then (digitsValue? 0 head).map fun n => (n, cs.drop count) else none

/-- The year of an ISO text: four digits, or a sign and six digits; there is no negative zero. -/
def readYear? : List Char → Option (Int × List Char)
  | '+' :: rest => (digits? 6 rest).map fun (n, after) => ((n : Int), after)
  | '-' :: rest =>
      match digits? 6 rest with
      | some (0, _) => none
      | some (n, after) => some (-(n : Int), after)
      | none => none
  | rest => (digits? 4 rest).map fun (n, after) => ((n : Int), after)

/-- A two-digit part after a mark, or the default when the mark is not there. -/
def readPart? (mark : Char) (otherwise : Nat) : List Char → Option (Nat × Bool × List Char)
  | [] => some (otherwise, false, [])
  | c :: rest =>
      if c = mark then (digits? 2 rest).map fun (n, after) => (n, true, after)
      else some (otherwise, false, c :: rest)

/-- The number of digits that are held of a fraction of a second. -/
def heldDigits : Nat := 9

/-- The milliseconds that the digits of a fraction of a second make. Digits are held from the first
one that is not zero, and a longer fraction is read as one of as many digits as are held. -/
def fractionMs? (digits : List Char) : Option Nat :=
  (digitsValue? 0 ((digits.dropWhile (· == '0')).take heldDigits)).map fun n =>
    match min digits.length heldDigits with
    | 1 => n * 100
    | 2 => n * 10
    | held => n / Nat.pow 10 (held - 3)

/-- The digits of a fraction of a second, if a point begins one, and what follows it. -/
def fraction? : List Char → Option (List Char × List Char)
  | '.' :: rest =>
      let digits := rest.takeWhile Char.isDigit
      if digits = [] then none else some (digits, rest.dropWhile Char.isDigit)
  | rest => some ([], rest)

/-- The minutes between two zones less than a day apart: two digits of hours and two of minutes, with
or without a colon between them. -/
def readOffset? (cs : List Char) : Option Nat := do
  let (hours, afterHours) ← digits? 2 cs
  let afterColon := match afterHours with
    | ':' :: rest => rest
    | rest => rest
  let (minutes, []) ← digits? 2 afterColon | none
  if hours < 24 ∧ minutes < 60 then some (hours * 60 + minutes) else none

/-- The minutes by which local time runs ahead of universal time. A text that names no zone is
taken in universal time. -/
def readZone? : List Char → Option Int
  | [] => some 0
  | ['Z'] => some 0
  | ['z'] => some 0
  | '+' :: rest => (readOffset? rest).map fun minutes => (minutes : Int)
  | '-' :: rest => (readOffset? rest).map fun minutes => -(minutes : Int)
  | _ => none

/-- The time of day after the `T`, in milliseconds, less the offset of its zone. A day may end with
the hour 24 exactly. -/
def readClock? (cs : List Char) : Option Int := do
  let (hours, afterHours) ← digits? 2 cs
  let (minutes, true, afterMinutes) ← readPart? ':' 0 afterHours | none
  let (seconds, hasSeconds, afterSeconds) ← readPart? ':' 0 afterMinutes
  let (digits, afterFraction) ← if hasSeconds then fraction? afterSeconds else some ([], afterSeconds)
  let ms ← fractionMs? digits
  let offset ← readZone? afterFraction
  let endsDay := hours = 24 ∧ minutes = 0 ∧ seconds = 0 ∧ digits.all (· == '0')
  if minutes < 60 ∧ seconds < 60 ∧ (hours < 24 ∨ endsDay) then
    some (((hours * 60 + minutes) * 60 + seconds) * 1000 + ms - offset * 60000)
  else none

/-- The instant that an ISO text names. A missing month or day is the first, a missing time is
midnight. The two marks that are letters may be small. -/
def ofIso? (text : String) : Option Int := do
  let (year, afterYear) ← readYear? text.toList
  let (month, hasMonth, afterMonth) ← readPart? '-' 1 afterYear
  let (day, _, afterDay) ← if hasMonth then readPart? '-' 1 afterMonth else some (1, false, afterMonth)
  if month < 1 ∨ 12 < month ∨ day < 1 ∨ 31 < day then none
  else
    let midnight := CalendarDate.dayCount ⟨year, month, 1⟩ * msPerDay + ((day : Int) - 1) * msPerDay
    let ms ← match afterDay with
      | [] => some midnight
      | 'T' :: clock | 't' :: clock => (readClock? clock).map (midnight + ·)
      | _ => none
    if inRange ms then some ms else none

end FieldSchema.Instant
