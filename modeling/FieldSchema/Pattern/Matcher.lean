import FieldSchema.Pattern.Tree

/-!
# Matching

A pattern tree is matched by backtracking: each part is given what is to be done after it, and
tries its ways in order until one of them succeeds. Inside a look behind, parts are matched from
right to left.
-/

namespace FieldSchema.Pattern

/-- How far a match has come. -/
structure Progress where
  position : Nat
  /-- The bounds of what each group has captured. -/
  captured : Nat → Option (Nat × Nat) := fun _ => none

/-- What is to be done after a part has been matched. -/
abbrev Next := Progress → Option Progress

namespace Progress

/-- Forget what the groups of a part have captured. -/
def forget (groups : GroupSpan) (p : Progress) : Progress :=
  { p with captured := fun group => if groups.contains group then none else p.captured group }

/-- Note that a group has captured the text between two positions, in either order. -/
def capture (group : Nat) (before : Nat) (p : Progress) : Progress :=
  { p with
    captured := fun other =>
      if other = group then some (min before p.position, max before p.position)
      else p.captured other }

end Progress

/-- The text that a pattern is matched against, in units. -/
abbrev Subject := Array Nat

namespace Subject

/-- The unit before a position. -/
def before? (subject : Subject) (position : Nat) : Option Nat :=
  match position with
  | 0 => none
  | earlier + 1 => subject[earlier]?

/-- The progress after one unit of a set, in either direction. -/
def step? (subject : Subject) (set : UnitSet) (backward : Bool) (p : Progress) : Option Progress :=
  if backward then
    match subject.before? p.position with
    | some unit => if set.contains unit then some { p with position := p.position - 1 } else none
    | none => none
  else
    match subject[p.position]? with
    | some unit => if set.contains unit then some { p with position := p.position + 1 } else none
    | none => none

/-- Whether there is a unit and it belongs to a word. -/
def isWordUnit : Option Nat → Bool
  | some unit => UnitSet.word.contains unit
  | none => false

/-- Whether a word begins or ends at a position. -/
def isWordBoundary (subject : Subject) (position : Nat) : Bool :=
  isWordUnit (subject.before? position) != isWordUnit subject[position]?

/-- The progress after the text between two positions once more, in either direction. -/
def again? (subject : Subject) (first last : Nat) (backward : Bool) (p : Progress) :
    Option Progress :=
  let length := last - first
  let wanted := subject.extract first last
  if backward then
    if length ≤ p.position && subject.extract (p.position - length) p.position == wanted then
      some { p with position := p.position - length }
    else none
  else if p.position + length ≤ subject.size &&
      subject.extract p.position (p.position + length) == wanted then
    some { p with position := p.position + length }
  else none

end Subject

/-- The repetition to try on a subject of some length. Of the repetitions that are needed, all but as
many as the subject has units take nothing, and nothing can be taken once as well as many times. So
one more than the length stands for any larger number, and the room above it stays the same. -/
def Repetition.within (times : Repetition) (length : Nat) : Repetition :=
  let least := min times.least (length + 1)
  { times with least := least, most := times.most.map (· - (times.least - least)) }

/-- Match a body repeatedly. `budget` bounds the number of repetitions; a repetition that takes
nothing fails when it is not needed, so the subject's length bounds the others. -/
def iterate (body : Progress → Next → Option Progress) (groups : GroupSpan) (fewFirst : Bool) :
    Nat → Nat → Option Nat → Progress → Next → Option Progress
  | 0, _, _, p, next => next p
  | budget + 1, least, most, p, next =>
      if most = some 0 then next p
      else
        let further : Next := fun q =>
          if least = 0 ∧ q.position = p.position then none
          else iterate body groups fewFirst budget (least - 1) (most.map (· - 1)) q next
        if least = 0 then
          if fewFirst then
            match next p with
            | some result => some result
            | none => body (p.forget groups) further
          else
            match body (p.forget groups) further with
            | some result => some result
            | none => next p
        else body (p.forget groups) further

/-- Match a tree from a position on, then do what comes next. -/
def run (subject : Subject) : Tree → Bool → Progress → Next → Option Progress
  | .empty, _, p, next => next p
  | .unit set, backward, p, next => (subject.step? set backward p).bind next
  | .both first second, backward, p, next =>
      if backward then
        run subject second backward p fun q => run subject first backward q next
      else run subject first backward p fun q => run subject second backward q next
  | .either first second, backward, p, next =>
      match run subject first backward p next with
      | some result => some result
      | none => run subject second backward p next
  | .capture group body, backward, p, next =>
      run subject body backward p fun q => next (q.capture group p.position)
  | .repeated times groups body, backward, p, next =>
      let tried := times.within subject.size
      iterate (fun q further => run subject body backward q further) groups tried.fewFirst
        (tried.least + subject.size + 1) tried.least tried.most p next
  | .look behind negated body, _, p, next =>
      match run subject body behind p some with
      | some q => if negated then none else next { q with position := p.position }
      | none => if negated then next p else none
  | .textStart, _, p, next => if p.position = 0 then next p else none
  | .textEnd, _, p, next => if p.position = subject.size then next p else none
  | .wordBoundary negated, _, p, next =>
      if subject.isWordBoundary p.position != negated then next p else none
  | .again group, backward, p, next =>
      match p.captured group with
      | some (first, last) => (subject.again? first last backward p).bind next
      | none => next p

/-- Whether a tree matches somewhere in the subject. -/
def Tree.matchesIn (tree : Tree) (subject : Subject) : Bool :=
  (List.range (subject.size + 1)).any fun start =>
    (run subject tree false { position := start } some).isSome

end FieldSchema.Pattern
