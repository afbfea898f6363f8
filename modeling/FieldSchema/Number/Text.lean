import FieldSchema.Number.Shortest

/-!
# The text of a number

Numbers are written with the fewest digits that read back: positionally while the decimal point
lies within twenty-one digits to the right or six zeros to the left of the first digit, and with an
exponent otherwise. Zero has no sign.
-/

namespace FieldSchema.Number

/-- Where positional notation ends: the largest number of digits before the point, and the largest
number of zeros after it. -/
structure Layout where
  digitsBefore : Int
  zerosAfter : Int

/-- Numbers are positional up to twenty-one digits and from six zeros after the point. -/
def layout : Layout := ⟨21, 6⟩

/-- The exponent part, always with a sign. -/
def exponentText (e : Int) : String :=
  "e" ++ (if e < 0 then "-" else "+") ++ toString e.natAbs

/-- A decimal with significant digits `digits` and the point after the first `point` of them. -/
def digitsText (digits : List Char) (point : Int) : String :=
  let count : Int := digits.length
  if count ≤ point && point ≤ layout.digitsBefore then
    String.ofList (digits ++ List.replicate (point - count).toNat '0')
  else if 0 < point && point ≤ layout.digitsBefore then
    String.ofList (digits.take point.toNat ++ '.' :: digits.drop point.toNat)
  else if -layout.zerosAfter < point && point ≤ 0 then
    String.ofList ('0' :: '.' :: (List.replicate (-point).toNat '0' ++ digits))
  else
    match digits with
    | [single] => String.ofList [single] ++ exponentText (point - 1)
    | first :: rest => String.ofList (first :: '.' :: rest) ++ exponentText (point - 1)
    | [] => "0"

/-- The text of a decimal, without zeros at its end. -/
def Decimal.text (d : Decimal) : String :=
  let all := Nat.toDigits 10 d.digits
  digitsText (all.reverse.dropWhile (· == '0')).reverse ((all.length : Int) + d.exponent)

/-- The text of a double. -/
def text (x : Float) : String :=
  if x.isNaN then "NaN"
  else if x.isInf then (if x < 0 then "-Infinity" else "Infinity")
  else if x == 0 then "0"
  else (if x < 0 then "-" else "") ++ (Magnitude.ofBits x.toBits).shortest.text

end FieldSchema.Number
