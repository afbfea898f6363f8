import FieldSchema.Pattern.Matcher
import FieldSchema.Pattern.Reader

/-!
# Patterns

A pattern is a regular expression without flags. It is known by its source; whether a text matches
is a question of its tree, asked at every position of the text. Letters are compared as they are, a
dot takes anything but a line end, and the two anchors stand for the ends of the text.
-/

namespace FieldSchema

/-- A pattern that was read. -/
structure Pattern where
  source : String
  tree : Pattern.Tree

namespace Pattern

/-- The pattern with a source, if the source is well formed. -/
def ofSource? (source : String) : Option Pattern :=
  (tree? source).map (⟨source, ·⟩)

/-- Whether a pattern matches somewhere in a text. -/
def matchesText (p : Pattern) (text : String) : Bool :=
  p.tree.matchesIn (Text.units text).toArray

/-- The letters by which a line end is shown. -/
def lineEndLetters (c : Char) : List Char :=
  if c = '\n' then ['n']
  else if c = '\r' then ['r']
  else if c.toNat = 0x2028 then "u2028".toList
  else "u2029".toList

/-- The rest of a source as it is shown between slashes. A slash outside a class and a line end are
escaped unless they already are. -/
def shownFrom (inClass escaped : Bool) : List Char → List Char
  | [] => []
  | c :: rest =>
      if Text.isLineEnd c then
        (if escaped then [] else ['\\']) ++ lineEndLetters c ++ shownFrom inClass false rest
      else if escaped then c :: shownFrom inClass false rest
      else if c = '\\' then c :: shownFrom inClass true rest
      else if c = '/' ∧ inClass = false then '\\' :: c :: shownFrom inClass false rest
      else c :: shownFrom (c = '[' || (inClass && c != ']')) false rest

/-- A pattern as it is shown: its source between slashes. The empty source is shown as an empty
group. -/
def shown (p : Pattern) : String :=
  let inner := if p.source = "" then "(?:)" else String.ofList (shownFrom false false p.source.toList)
  "/" ++ inner ++ "/"

end Pattern

end FieldSchema
