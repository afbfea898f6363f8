/-!
# Pieces of a text

A text is cut at every occurrence of one character. There is always at least one piece.
-/

namespace FieldSchema.Text

/-- The pieces between the occurrences of a character. -/
def pieces (separator : Char) : List Char → List (List Char)
  | [] => [[]]
  | c :: rest =>
      if c = separator then [] :: pieces separator rest
      else
        match pieces separator rest with
        | first :: others => (c :: first) :: others
        | [] => [[c]]

/-- The texts between the occurrences of a character. -/
def splitAtChar (separator : Char) (s : String) : List String :=
  (pieces separator s.toList).map String.ofList

theorem pieces_ne_nil (separator : Char) (cs : List Char) : pieces separator cs ≠ [] := by
  cases cs with
  | nil => simp [pieces]
  | cons c rest =>
      unfold pieces
      split
      · simp
      · split <;> simp

/-- The pieces, put together again with the character between them, are the text. -/
theorem intercalate_pieces (separator : Char) (cs : List Char) :
    [separator].intercalate (pieces separator cs) = cs := by
  induction cs with
  | nil => rfl
  | cons c rest ih =>
      unfold pieces
      split
      · next h =>
          subst h
          cases hp : pieces c rest with
          | nil => exact absurd hp (pieces_ne_nil c rest)
          | cons first others =>
              rw [hp] at ih
              rw [List.intercalate_cons_cons, ih]
              rfl
      · cases hp : pieces separator rest with
        | nil => exact absurd hp (pieces_ne_nil separator rest)
        | cons first others =>
            rw [hp] at ih
            cases others with
            | nil => simpa using ih
            | cons second more =>
                rw [List.intercalate_cons_cons] at ih ⊢
                simpa using ih

end FieldSchema.Text
