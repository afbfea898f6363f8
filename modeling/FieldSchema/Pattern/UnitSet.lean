import FieldSchema.Text.Blank

/-!
# Sets of units

Each place of a pattern that takes one unit of a text states the set of units that it takes.
-/

namespace FieldSchema

/-- A set of sixteen-bit units. -/
inductive UnitSet where
  /-- The units from `low` to `high`, both included. -/
  | range (low high : Nat)
  | blank
  | lineEnd
  | complement (s : UnitSet)
  | union (s t : UnitSet)
deriving Repr

namespace UnitSet

/-- Whether a unit is in the set. -/
def contains : UnitSet → Nat → Bool
  | .range low high, unit => low ≤ unit && unit ≤ high
  | .blank, unit => Text.isBlankCode unit
  | .lineEnd, unit => Text.isLineEndCode unit
  | .complement s, unit => !s.contains unit
  | .union s t, unit => s.contains unit || t.contains unit

/-- The set of one unit. -/
def single (unit : Nat) : UnitSet := .range unit unit

/-- The set without units. -/
def none : UnitSet := .range 1 0

/-- The units of a list of sets. -/
def unionAll (sets : List UnitSet) : UnitSet :=
  sets.foldl .union none

/-- The ASCII characters from one to another. -/
def chars (low high : Char) : UnitSet := .range low.toNat high.toNat

/-- The decimal digits. -/
def digit : UnitSet := chars '0' '9'

/-- Letters, digits and the underscore, all ASCII. -/
def word : UnitSet :=
  .union (.union (chars 'a' 'z') (chars 'A' 'Z')) (.union digit (chars '_' '_'))

/-- Every unit that does not end a line. -/
def withinLine : UnitSet := .complement .lineEnd

@[simp] theorem contains_single (unit other : Nat) :
    (single unit).contains other = (unit == other) := by
  by_cases h : unit = other
  · simp [single, contains, h]
  · have hout : ¬ (unit ≤ other ∧ other ≤ unit) := fun both => h (Nat.le_antisymm both.1 both.2)
    have hne : (unit == other) = false := by simp [h]
    simpa [single, contains, hne] using hout

@[simp] theorem contains_none (unit : Nat) : none.contains unit = false := by
  simp only [none, contains, Bool.and_eq_false_iff, decide_eq_false_iff_not]
  omega

end UnitSet

end FieldSchema
