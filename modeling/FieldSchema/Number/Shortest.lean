/-!
# Shortest decimals

The shortest decimal that reads back as a given double. The reals that round to a double form an
interval around it, and its ends belong to it exactly when the significand is even. For one digit,
two digits and so on, the two neighbours of the double on that decimal grid are tried; the first
grid with a hit wins, and of two hits the nearer.
-/

namespace FieldSchema.Number

/-- The magnitude of a finite double, `significand * 2 ^ exponent`. `narrowBelow` marks the bottom
of a binade, where the gap below is half the gap above. -/
structure Magnitude where
  significand : Nat
  exponent : Int
  narrowBelow : Bool
deriving Repr, DecidableEq

/-- A decimal, `digits * 10 ^ exponent`. -/
structure Decimal where
  digits : Nat
  exponent : Int
deriving Repr, DecidableEq

/-- The magnitude that the bits of a finite double stand for. -/
def Magnitude.ofBits (bits : UInt64) : Magnitude :=
  let field : Nat := bits.toNat / Nat.pow 2 52 % Nat.pow 2 11
  let fraction : Nat := bits.toNat % Nat.pow 2 52
  if field = 0 then ⟨fraction, -1074, false⟩
  else ⟨fraction + Nat.pow 2 52, (field : Int) - 1075, fraction == 0 && decide (1 < field)⟩

namespace Magnitude

/-- Numerator of a quarter of the unit in the last place. -/
def quarterNum (m : Magnitude) : Nat := Nat.pow 2 (m.exponent - 2).toNat

/-- Denominator of a quarter of the unit in the last place. -/
def quarterDen (m : Magnitude) : Nat := Nat.pow 2 (2 - m.exponent).toNat

/-- The magnitude itself in quarter units. -/
def centre (m : Magnitude) : Nat := 4 * m.significand

/-- The lower end of the interval that rounds to the magnitude, in quarter units. -/
def low (m : Magnitude) : Nat := m.centre - (if m.narrowBelow then 1 else 2)

/-- The upper end of the interval that rounds to the magnitude, in quarter units. -/
def high (m : Magnitude) : Nat := m.centre + 2

/-- The decimal `n * 10 ^ e` in quarter units, as a multiple of `scaleDen`. -/
def scaled (m : Magnitude) (n : Nat) (e : Int) : Nat :=
  n * Nat.pow 10 e.toNat * m.quarterDen

/-- The common denominator of decimals with exponent `e` and quarter units. -/
def scaleDen (m : Magnitude) (e : Int) : Nat :=
  m.quarterNum * Nat.pow 10 (-e).toNat

/-- Whether the decimal `n * 10 ^ e` rounds to the magnitude. -/
def admits (m : Magnitude) (n : Nat) (e : Int) : Bool :=
  let x := m.scaled n e
  let d := m.scaleDen e
  if m.significand % 2 = 0 then m.low * d ≤ x && x ≤ m.high * d
  else m.low * d < x && x < m.high * d

/-- The exponent of the leading decimal digit, found on the magnitude scaled by `10 ^ 400`. -/
def leadingExponent (m : Magnitude) : Int :=
  ((Nat.toDigits 10 (m.centre * m.quarterNum * Nat.pow 10 400 / m.quarterDen)).length : Int) - 401

/-- The better of the two neighbours on the grid `10 ^ e` when one of them rounds back. -/
def neighbour? (m : Magnitude) (e : Int) : Option Decimal :=
  let d := m.scaleDen e
  let unit := m.scaled 1 e
  let n := m.centre * d / unit
  let below := m.centre * d - n * unit
  let above := (n + 1) * unit - m.centre * d
  match m.admits n e, m.admits (n + 1) e with
  | true, true =>
      if below < above || (below == above && n % 2 == 0) then some ⟨n, e⟩ else some ⟨n + 1, e⟩
  | true, false => some ⟨n, e⟩
  | false, true => some ⟨n + 1, e⟩
  | false, false => none

/-- The shortest decimal that rounds to the magnitude. Seventeen digits always suffice. -/
def shortest (m : Magnitude) : Decimal :=
  let lead := m.leadingExponent
  match (List.range 17).findSome? fun (k : Nat) => m.neighbour? (lead - (k : Int)) with
  | some decimal => decimal
  | none => ⟨m.centre * m.quarterNum / (4 * m.quarterDen), 0⟩

end Magnitude

end FieldSchema.Number
