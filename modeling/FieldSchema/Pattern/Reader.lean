import FieldSchema.Pattern.Token

/-!
# Reading patterns

The tokens of a pattern are taken one by one. The reader holds the groups that are open, each with
its finished alternatives and the terms of the alternative that it is in.
-/

namespace FieldSchema.Pattern

/-- A finished term of an alternative. -/
structure Term where
  tree : Tree
  /-- The capture groups inside the term. -/
  groups : GroupSpan
  /-- Whether a repetition may follow. -/
  repeatable : Bool

/-- A group that is open, or the pattern as a whole. Lists hold the latest first. -/
structure OpenGroup where
  kind : GroupKind
  /-- The number of capture groups that were open before. -/
  before : Nat
  finished : List Tree := []
  terms : List Term := []

/-- What has been read. -/
structure Reader where
  innermost : OpenGroup := ⟨.plain, 0, [], []⟩
  around : List OpenGroup := []
  /-- The number of capture groups opened so far. -/
  opened : Nat := 0
  /-- The members, latest first, of a class that is open, and whether the class is negated. -/
  members : Option (Bool × List ClassMember) := none

namespace ClassMember

/-- The units of a member. -/
def toSet : ClassMember → UnitSet
  | .unit code => .single code
  | .set s => s
  | .dash => .single '-'.toNat

/-- The single unit that a member is. -/
def unit? : ClassMember → Option Nat
  | .unit code => some code
  | .set _ => none
  | .dash => some '-'.toNat

/-- The range between two members. If either is a set of its own, both and the dash are meant. -/
def between? (low high : ClassMember) : Option UnitSet :=
  match low.unit?, high.unit? with
  | some first, some last => if first ≤ last then some (.range first last) else none
  | _, _ => some (.union (.union low.toSet high.toSet) (.single '-'.toNat))

/-- The sets of the members of a class. A dash between two members makes a range. -/
def sets? : List ClassMember → Option (List UnitSet)
  | low :: .dash :: high :: rest => do
      let range ← between? low high
      return range :: (← sets? rest)
  | m :: rest => (sets? rest).map (m.toSet :: ·)
  | [] => some []

end ClassMember

namespace OpenGroup

/-- What the group demands. -/
def body (g : OpenGroup) : Tree :=
  .alternatives ((Tree.sequence (g.terms.map Term.tree).reverse :: g.finished).reverse)

/-- Add a term. -/
def add (g : OpenGroup) (term : Term) : OpenGroup :=
  { g with terms := term :: g.terms }

/-- The term that a closed group is; `opened` capture groups have been opened by then. -/
def close (g : OpenGroup) (opened : Nat) : Term :=
  let span : GroupSpan := ⟨g.before, opened - g.before⟩
  match g.kind with
  | .plain => ⟨g.body, span, true⟩
  | .capture => ⟨.capture (g.before + 1) g.body, span, true⟩
  | .look behind negated => ⟨.look behind negated g.body, span, !behind⟩

/-- Repeat the last term. -/
def repeatLast? (g : OpenGroup) (times : Repetition) : Option OpenGroup :=
  match g.terms with
  | [] => none
  | term :: rest =>
      if term.repeatable then
        some { g with
          terms := ⟨.repeated times term.groups term.tree, term.groups, false⟩ :: rest }
      else none

end OpenGroup

namespace Repetition

/-- Whether the upper bound reaches the lower. -/
def isOrdered (times : Repetition) : Bool :=
  match times.most with
  | some most => times.least ≤ most
  | none => true

end Repetition

namespace Reader

/-- Add a term to the innermost open group. -/
def add (r : Reader) (tree : Tree) (repeatable : Bool) : Reader :=
  { r with innermost := r.innermost.add ⟨tree, ⟨r.opened, 0⟩, repeatable⟩ }

/-- Open a group. -/
def enter (r : Reader) (kind : GroupKind) : Reader :=
  { r with
    innermost := ⟨kind, r.opened, [], []⟩
    around := r.innermost :: r.around
    opened := if kind = .capture then r.opened + 1 else r.opened }

/-- Close the innermost group. -/
def leave? (r : Reader) : Option Reader :=
  match r.around with
  | [] => none
  | outer :: rest =>
      some { r with innermost := outer.add (r.innermost.close r.opened), around := rest }

/-- End an alternative. -/
def bar (r : Reader) : Reader :=
  let g := r.innermost
  { r with
    innermost := { g with
      finished := .sequence (g.terms.map Term.tree).reverse :: g.finished
      terms := [] } }

/-- Close a class. -/
def classEnd? (r : Reader) : Option Reader :=
  match r.members with
  | none => none
  | some (negated, members) =>
      (ClassMember.sets? members.reverse).map fun sets =>
        let set := UnitSet.unionAll sets
        { r with members := none }.add (.unit (if negated then .complement set else set)) true

/-- Take one token. -/
def step? (r : Reader) : Token → Option Reader
  | .unit set => some (r.add (.unit set) true)
  | .times repetition =>
      if repetition.isOrdered then
        (r.innermost.repeatLast? repetition).map fun g => { r with innermost := g }
      else none
  | .enter kind => some (r.enter kind)
  | .leave => r.leave?
  | .bar => some r.bar
  | .textStart => some (r.add .textStart false)
  | .textEnd => some (r.add .textEnd false)
  | .wordBoundary negated => some (r.add (.wordBoundary negated) false)
  | .again group => some (r.add (.again group) true)
  | .classStart negated => some { r with members := some (negated, []) }
  | .classMember m => some { r with members := r.members.map fun c => (c.1, m :: c.2) }
  | .classEnd => r.classEnd?

/-- The tree, if every group is closed. -/
def tree? (r : Reader) : Option Tree :=
  if r.around.isEmpty then some r.innermost.body else none

end Reader

/-- The tree of a pattern. A text with two groups of one name has none. -/
def tree? (source : String) : Option Tree := do
  let groups := groupsFrom false false source.toList
  if groups.names.Nodup then
    let tokens ← tokensFrom groups false 0 source.toList
    let reader ← tokens.foldlM Reader.step? {}
    reader.tree?
  else none

end FieldSchema.Pattern
