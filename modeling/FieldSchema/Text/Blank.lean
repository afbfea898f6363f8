/-!
# Blanks and line ends

Which characters count as white space, which of them end a line, and trimming.
-/

namespace FieldSchema.Text

/-- Codes of the white-space characters: tab, the line ends, vertical tab, form feed, the space
separators and the byte order mark. -/
def isBlankCode (code : Nat) : Bool :=
  (9 ≤ code && code ≤ 13) || code == 0x20 || code == 0xA0 || code == 0x1680 ||
    (0x2000 ≤ code && code ≤ 0x200A) || code == 0x2028 || code == 0x2029 || code == 0x202F ||
    code == 0x205F || code == 0x3000 || code == 0xFEFF

/-- Codes that end a line: line feed, carriage return, line and paragraph separator. -/
def isLineEndCode (code : Nat) : Bool :=
  code == 0x0A || code == 0x0D || code == 0x2028 || code == 0x2029

/-- White space. -/
def isBlank (c : Char) : Bool :=
  isBlankCode c.toNat

/-- A character that ends a line. -/
def isLineEnd (c : Char) : Bool :=
  isLineEndCode c.toNat

/-- The characters between the first and the last that are not blank. -/
def trimChars (cs : List Char) : List Char :=
  ((cs.dropWhile isBlank).reverse.dropWhile isBlank).reverse

/-- The text without the blanks at either end. -/
def trim (s : String) : String :=
  String.ofList (trimChars s.toList)

/-- A text of blanks only, or of nothing. -/
def isBlankText (s : String) : Bool :=
  s.toList.all isBlank

end FieldSchema.Text
