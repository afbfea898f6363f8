import FieldSchema.Number.Reading
import FieldSchema.Text.Blank

/-!
# Numerals in texts

The number that a text counts as: a decimal, which may lack digits on one side of its point, an
integer in one of three other bases, or an infinity, with blanks around it. A text of blanks counts
as zero, and any other text as no number.
-/

namespace FieldSchema.Number

/-- No number. -/
def undefinedNumber : Float := 0.0 / 0.0

/-- The value of a digit in bases up to sixteen. -/
def baseDigit? (base : Nat) (c : Char) : Option Nat :=
  let digit :=
    if '0' ≤ c ∧ c ≤ '9' then c.toNat - '0'.toNat
    else if 'a' ≤ c ∧ c ≤ 'f' then c.toNat - 'a'.toNat + 10
    else if 'A' ≤ c ∧ c ≤ 'F' then c.toNat - 'A'.toNat + 10
    else base
  if digit < base then some digit else none

/-- The integer that digits of a base spell. -/
def ofBase? (base : Nat) (cs : List Char) : Option Float :=
  if cs.isEmpty then none
  else (cs.foldlM (fun total c => (baseDigit? base c).map (total * base + ·)) 0).map
    fun n => ofDecimal n 0

/-- An unsigned decimal with digits on at least one side of its point, or an infinity. -/
def magnitude? (cs : List Char) : Option Float :=
  if cs = "Infinity".toList then some (1.0 / 0.0)
  else do
    let (whole, afterWhole) := takeDigits cs
    let (fraction, afterFraction) := match afterWhole with
      | '.' :: rest => takeDigits rest
      | rest => ([], rest)
    if whole.isEmpty && fraction.isEmpty then none
    else
      let exponent ← exponent? afterFraction
      let digits ← digitsValue? 0 (whole ++ fraction)
      return ofDecimal digits (exponent - fraction.length)

/-- The number that a list of characters without blanks around it spells. -/
def numeral? (cs : List Char) : Option Float :=
  match cs with
  | [] => some 0
  | '0' :: 'x' :: digits | '0' :: 'X' :: digits => ofBase? 16 digits
  | '0' :: 'o' :: digits | '0' :: 'O' :: digits => ofBase? 8 digits
  | '0' :: 'b' :: digits | '0' :: 'B' :: digits => ofBase? 2 digits
  | '-' :: rest => (magnitude? rest).map fun x => -x
  | '+' :: rest => magnitude? rest
  | rest => magnitude? rest

/-- The number that a text counts as. -/
def ofText (s : String) : Float :=
  (numeral? (Text.trimChars s.toList)).getD undefinedNumber

end FieldSchema.Number
