import FieldSchema.Number.Shortest

/-!
# Exact comparison

Integers of arbitrary size are compared with doubles by what the doubles stand for; the integers
are not rounded. Nothing compares with what is no number.
-/

namespace FieldSchema.Number

/-- An exact fraction. -/
structure Fraction where
  numerator : Int
  denominator : Nat
deriving Repr, DecidableEq

/-- The fraction that a finite double stands for. -/
def Fraction.ofFinite (x : Float) : Fraction :=
  let m := Magnitude.ofBits x.toBits
  let size : Nat := m.significand * Nat.pow 2 m.exponent.toNat
  ⟨if x < 0 then -(size : Int) else (size : Int), Nat.pow 2 (-m.exponent).toNat⟩

/-- Whether a double is at most an integer. -/
def isAtMost (x : Float) (n : Int) : Bool :=
  if x.isNaN then false
  else if x.isInf then decide (x < 0)
  else
    let exact := Fraction.ofFinite x
    decide (exact.numerator ≤ n * (exact.denominator : Int))

/-- Whether a double is at least an integer. -/
def isAtLeast (x : Float) (n : Int) : Bool :=
  if x.isNaN then false
  else if x.isInf then decide (0 < x)
  else
    let exact := Fraction.ofFinite x
    decide (n * (exact.denominator : Int) ≤ exact.numerator)

end FieldSchema.Number
