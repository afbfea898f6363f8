import FieldSchema.Record

/-!
# Reading numbers

The number grammar of JSON, read as the nearest double. Decimals whose size lies far outside the
doubles are answered without computing their powers of ten.
-/

namespace FieldSchema.Number

/-- The double nearest to `digits * 10 ^ exponent`. -/
def ofDecimal (digits : Nat) (exponent : Int) : Float :=
  let size : Int := (Nat.toDigits 10 digits).length + exponent
  if digits = 0 then 0
  else if size < -400 then 0
  else if 400 < size then 1.0 / 0.0
  else if exponent < 0 then Float.ofScientific digits true exponent.natAbs
  else Float.ofScientific digits false exponent.natAbs

/-- A run of decimal digits, and what follows it. -/
def takeDigits (cs : List Char) : List Char × List Char :=
  (cs.takeWhile Char.isDigit, cs.dropWhile Char.isDigit)

/-- The exponent part of a number, which must reach the end. -/
def exponent? : List Char → Option Int
  | [] => some 0
  | marker :: rest =>
      if marker = 'e' ∨ marker = 'E' then
        match rest with
        | '-' :: digits => if digits = [] then none else (digitsValue? 0 digits).map fun n => -(n : Int)
        | '+' :: digits => if digits = [] then none else (digitsValue? 0 digits).map fun n => (n : Int)
        | digits => if digits = [] then none else (digitsValue? 0 digits).map fun n => (n : Int)
      else none

/-- The fraction part, if any, and what follows it. -/
def fraction? : List Char → Option (List Char × List Char)
  | '.' :: rest =>
      let (digits, after) := takeDigits rest
      if digits = [] then none else some (digits, after)
  | rest => some ([], rest)

/-- An unsigned number: an integer part without a leading zero, a fraction and an exponent. -/
def unsigned? (cs : List Char) : Option Float := do
  let (whole, afterWhole) := takeDigits cs
  match whole with
  | [] => none
  | '0' :: _ :: _ => none
  | _ =>
      let (fraction, afterFraction) ← fraction? afterWhole
      let exponent ← exponent? afterFraction
      let digits ← digitsValue? 0 (whole ++ fraction)
      return ofDecimal digits (exponent - fraction.length)

/-- The double that a JSON number spells. -/
def ofJson? : List Char → Option Float
  | '-' :: rest => (unsigned? rest).map fun x => -x
  | cs => unsigned? cs

end FieldSchema.Number
