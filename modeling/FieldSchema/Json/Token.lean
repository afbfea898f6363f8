import FieldSchema.Number.Reading

/-!
# JSON tokens

A text is cut into tokens by a scanner that takes one character at a time. White space separates
tokens and is otherwise dropped; a character that no token can hold ends the scan without a result.
-/

namespace FieldSchema.Json

/-- A token of a JSON text. -/
inductive Token where
  | openList
  | closeList
  | openObject
  | closeObject
  | comma
  | colon
  | text (s : String)
  | number (x : Float)
  | true
  | false
  | null

/-- What the scanner is in the middle of. Characters already taken are in reverse order. -/
inductive Scan where
  | between
  | word (taken : List Char)
  | number (taken : List Char)
  | quoted (taken : List Char)
  | escape (taken : List Char)
  /-- Inside the four hexadecimal digits of an escape; `count` of them have been read. -/
  | hex (taken : List Char) (count value : Nat)
  /-- After the escape of a high surrogate. -/
  | high (taken : List Char) (unit : Nat)
  | highEscape (taken : List Char) (unit : Nat)
  | lowHex (taken : List Char) (unit count value : Nat)

/-- The four characters that JSON skips between tokens. -/
def isSpace (c : Char) : Bool :=
  c == ' ' || c == '\t' || c == '\n' || c == '\r'

/-- The value of a hexadecimal digit. -/
def hexValue? (c : Char) : Option Nat :=
  if '0' ≤ c ∧ c ≤ '9' then some (c.toNat - '0'.toNat)
  else if 'a' ≤ c ∧ c ≤ 'f' then some (c.toNat - 'a'.toNat + 10)
  else if 'A' ≤ c ∧ c ≤ 'F' then some (c.toNat - 'A'.toNat + 10)
  else none

/-- The token that a word is. -/
def wordToken? (word : List Char) : Option Token :=
  if word = ['t', 'r', 'u', 'e'] then some .true
  else if word = ['f', 'a', 'l', 's', 'e'] then some .false
  else if word = ['n', 'u', 'l', 'l'] then some .null
  else none

/-- Whether a character may stand in a number. -/
def isNumberChar (c : Char) : Bool :=
  c.isDigit || c == '-' || c == '+' || c == '.' || c == 'e' || c == 'E'

/-- The token that a mark is. -/
def markToken? (c : Char) : Option Token :=
  if c = '[' then some .openList
  else if c = ']' then some .closeList
  else if c = '\x7b' then some .openObject
  else if c = '\x7d' then some .closeObject
  else if c = ',' then some .comma
  else if c = ':' then some .colon
  else none

/-- Begin a token, or skip a space. -/
def begin? (c : Char) : Option (Scan × List Token) :=
  if isSpace c then some (.between, [])
  else if c = '"' then some (.quoted [], [])
  else if c = '-' || c.isDigit then some (.number [c], [])
  else if c.isAlpha then some (.word [c], [])
  else (markToken? c).map fun token => (.between, [token])

/-- The token of a finished number. -/
def numberToken? (taken : List Char) : Option Token :=
  (Number.ofJson? taken.reverse).map .number

/-- The character that a one-letter escape stands for. -/
def escaped? (c : Char) : Option Char :=
  if c = '"' ∨ c = '\\' ∨ c = '/' then some c
  else if c = 'b' then some (Char.ofNat 8)
  else if c = 'f' then some (Char.ofNat 12)
  else if c = 'n' then some '\n'
  else if c = 'r' then some '\r'
  else if c = 't' then some '\t'
  else none

/-- The replacement character, which stands for half of a surrogate pair. -/
def replacement : Char := Char.ofNat 0xFFFD

/-- Whether a unit is the first half of a surrogate pair. -/
def isHigh (unit : Nat) : Bool := 0xD800 ≤ unit && unit < 0xDC00

/-- Whether a unit is the second half of a surrogate pair. -/
def isLow (unit : Nat) : Bool := 0xDC00 ≤ unit && unit < 0xE000

/-- Continue a quoted text with one character. -/
def quotedStep? (taken : List Char) (c : Char) : Option (Scan × List Token) :=
  if c = '"' then some (.between, [.text (String.ofList taken.reverse)])
  else if c = '\\' then some (.escape taken, [])
  else if c.toNat < 32 then none
  else some (.quoted (c :: taken), [])

/-- Continue a quoted text after the escape of one unit. -/
def afterUnit (taken : List Char) (unit : Nat) : Scan :=
  if isHigh unit then .high taken unit
  else if isLow unit then .quoted (replacement :: taken)
  else .quoted (Char.ofNat unit :: taken)

/-- Continue a quoted text after the escapes of a high surrogate and of another unit. -/
def afterPair (taken : List Char) (high unit : Nat) : Scan :=
  if isLow unit then
    .quoted (Char.ofNat (0x10000 + (high - 0xD800) * 0x400 + (unit - 0xDC00)) :: taken)
  else afterUnit (replacement :: taken) unit

/-- Take one character: the next state and the tokens that are now complete. -/
def scanStep? : Scan → Char → Option (Scan × List Token)
  | .between, c => begin? c
  | .word taken, c =>
      if c.isAlpha then some (.word (c :: taken), [])
      else do
        let token ← wordToken? taken.reverse
        let (next, tokens) ← begin? c
        return (next, token :: tokens)
  | .number taken, c =>
      if isNumberChar c then some (.number (c :: taken), [])
      else do
        let token ← numberToken? taken
        let (next, tokens) ← begin? c
        return (next, token :: tokens)
  | .quoted taken, c => quotedStep? taken c
  | .escape taken, c =>
      if c = 'u' then some (.hex taken 0 0, [])
      else (escaped? c).map fun plain => (.quoted (plain :: taken), [])
  | .hex taken count value, c => do
      let digit ← hexValue? c
      let total := value * 16 + digit
      return (if count = 3 then afterUnit taken total else .hex taken (count + 1) total, [])
  | .high taken unit, c =>
      if c = '\\' then some (.highEscape taken unit, [])
      else quotedStep? (replacement :: taken) c
  | .highEscape taken unit, c =>
      if c = 'u' then some (.lowHex taken unit 0 0, [])
      else (escaped? c).map fun plain => (.quoted (plain :: replacement :: taken), [])
  | .lowHex taken unit count value, c => do
      let digit ← hexValue? c
      let total := value * 16 + digit
      return (if count = 3 then afterPair taken unit total
        else .lowHex taken unit (count + 1) total, [])

/-- The tokens that are complete when the text ends. -/
def scanEnd? : Scan → Option (List Token)
  | .between => some []
  | .word taken => (wordToken? taken.reverse).map ([·])
  | .number taken => (numberToken? taken).map ([·])
  | _ => none

/-- The tokens of the rest of a text. -/
def scanFrom? (state : Scan) : List Char → Option (List Token)
  | [] => scanEnd? state
  | c :: rest =>
      match scanStep? state c with
      | none => none
      | some (next, tokens) => (scanFrom? next rest).map (tokens ++ ·)

/-- The tokens of a text. -/
def tokens? (s : String) : Option (List Token) :=
  scanFrom? .between s.toList

end FieldSchema.Json
