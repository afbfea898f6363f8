import FieldSchema.Text.Blank
import FieldSchema.Text.Uppercase

/-!
# Joined words

A name is cut into words at underscores, hyphens and blanks; the words are joined, each with its
first character in upper case.
-/

namespace FieldSchema.Text

/-- Whether a character stands between words. -/
def separatesWords (c : Char) : Bool :=
  c == '_' || c == '-' || isBlank c

/-- The words of a list of characters; `current` holds the characters, latest first, of the word
that was begun. -/
def wordsFrom (current : List Char) : List Char → List (List Char)
  | [] => if current.isEmpty then [] else [current.reverse]
  | c :: rest =>
      if separatesWords c then
        if current.isEmpty then wordsFrom [] rest else current.reverse :: wordsFrom [] rest
      else wordsFrom (c :: current) rest

/-- The name with its words joined, as in `CreateUser`. -/
def pascalCase (name : String) : String :=
  String.join ((wordsFrom [] name.toList).map fun word => capitalize (String.ofList word))

end FieldSchema.Text
