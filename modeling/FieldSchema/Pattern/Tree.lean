import FieldSchema.Pattern.UnitSet

/-!
# Pattern trees

What a pattern demands of a text, as a tree. Capture groups are numbered from 1 in the order in
which they open.
-/

namespace FieldSchema.Pattern

/-- How often something is repeated, and whether few repetitions are tried first. -/
structure Repetition where
  least : Nat
  /-- Without a value there is no upper bound. -/
  most : Option Nat
  fewFirst : Bool
deriving Repr, DecidableEq

/-- The capture groups that open inside a part of a pattern: `count` of them after the first
`before`. -/
structure GroupSpan where
  before : Nat
  count : Nat
deriving Repr, DecidableEq

/-- Whether a group is opened inside the part. -/
def GroupSpan.contains (span : GroupSpan) (group : Nat) : Bool :=
  span.before < group && group ≤ span.before + span.count

/-- A pattern tree. -/
inductive Tree where
  | empty
  | unit (set : UnitSet)
  | both (first second : Tree)
  | either (first second : Tree)
  | capture (group : Nat) (body : Tree)
  | repeated (times : Repetition) (groups : GroupSpan) (body : Tree)
  /-- The text around the position is looked at but not taken. -/
  | look (behind negated : Bool) (body : Tree)
  | textStart
  | textEnd
  | wordBoundary (negated : Bool)
  /-- What a group has captured, once more. -/
  | again (group : Nat)
deriving Repr

namespace Tree

/-- Parts that must follow one another. -/
def sequence : List Tree → Tree
  | [] => .empty
  | [t] => t
  | t :: rest => .both t (sequence rest)

/-- Alternatives in the order in which they are tried. -/
def alternatives : List Tree → Tree
  | [] => .empty
  | [t] => t
  | t :: rest => .either t (alternatives rest)

end Tree

end FieldSchema.Pattern
