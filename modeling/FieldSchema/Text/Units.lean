/-!
# Sixteen-bit units

Lengths, pattern matching and the order of names count a text in UTF-16 units: a character of the
basic plane is one unit, any other character is a surrogate pair.
-/

namespace FieldSchema.Text

/-- The units of one character. -/
def charUnits (c : Char) : List Nat :=
  let code := c.toNat
  if code < 0x10000 then [code]
  else [0xD800 + (code - 0x10000) / 0x400, 0xDC00 + (code - 0x10000) % 0x400]

/-- The units of a text. -/
def units (s : String) : List Nat :=
  s.toList.flatMap charUnits

/-- The length of a text in units. -/
def unitLength (s : String) : Nat :=
  (units s).length

/-- Names are sorted by their units, the shorter of two first when one extends the other. -/
def unitLE (a b : String) : Bool :=
  !(decide (units b < units a))

/-- The names in ascending order of their units. -/
def sortByUnits (names : List String) : List String :=
  names.mergeSort unitLE

end FieldSchema.Text
