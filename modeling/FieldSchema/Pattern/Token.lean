import FieldSchema.Json.Token
import FieldSchema.Pattern.Tree
import FieldSchema.Record
import FieldSchema.Text.Identifier
import FieldSchema.Text.Units

/-!
# Pattern tokens

A pattern is cut into tokens character by character. A character with a special meaning that its
surroundings do not bear out stands for itself: a brace that no count follows, a bracket that closes
nothing, a backslash before a character without a meaning of its own. A character outside the basic
plane is two units, so it yields two tokens.
-/

namespace FieldSchema.Pattern

/-- What an opening parenthesis begins. -/
inductive GroupKind where
  | plain
  | capture
  | look (behind negated : Bool)
deriving Repr, DecidableEq

/-- A member of a class, as written. -/
inductive ClassMember where
  | unit (code : Nat)
  | set (s : UnitSet)
  | dash
deriving Repr

/-- A token of a pattern. -/
inductive Token where
  | unit (set : UnitSet)
  | times (repetition : Repetition)
  | enter (kind : GroupKind)
  | leave
  | bar
  | textStart
  | textEnd
  | wordBoundary (negated : Bool)
  | again (group : Nat)
  | classStart (negated : Bool)
  | classMember (m : ClassMember)
  | classEnd
deriving Repr

/-- The capture groups of a pattern in order, each with its name if it has one. -/
abbrev Groups := List (Option String)

/-! ## Group names -/

/-- The number that hexadecimal digits spell, if there are exactly `count` of them in front. -/
def hexCode? (count : Nat) (cs : List Char) : Option Nat :=
  if cs.length < count then none
  else (cs.take count).foldlM (fun total c => (Json.hexValue? c).map (total * 16 + ·)) 0

/-- A code that some characters spell, and how many of them do. -/
structure Spelled where
  code : Nat
  taken : Nat

/-- The largest code of a character. -/
def largestCode : Nat := 0x10ffff

/-- The code between braces, which `cs` follow the first of: any number of hexadecimal digits. -/
def bracedCode? (cs : List Char) : Option Spelled := do
  let digits := cs.takeWhile (· != '\x7d')
  if digits.isEmpty || digits.length = cs.length then none
  else
    let code ← hexCode? digits.length digits
    if code ≤ largestCode then some ⟨code, digits.length + 2⟩ else none

/-- The code of two halves, if they are the halves of a character beyond the basic plane. -/
def joined? (high low : Nat) : Option Nat :=
  if 0xd800 ≤ high ∧ high < 0xdc00 ∧ 0xdc00 ≤ low ∧ low < 0xe000 then
    some (0x10000 + (high - 0xd800) * 0x400 + (low - 0xdc00))
  else none

/-- The code that an escape in a name spells with the characters after its `u`. A character beyond
the basic plane may be spelled by the escapes of its halves. -/
def nameEscape? (cs : List Char) : Option Spelled :=
  match cs with
  | '\x7b' :: rest => bracedCode? rest
  | _ => do
      let code ← hexCode? 4 cs
      let second := match cs.drop 4 with
        | '\\' :: 'u' :: rest => hexCode? 4 rest
        | _ => none
      match second.bind (joined? code) with
      | some both => return ⟨both, 10⟩
      | none => return ⟨code, 4⟩

/-- The code that is spelled at the character `c` of a name, where `rest` follows. -/
def spelled? (c : Char) (rest : List Char) : Option Spelled :=
  match c, rest with
  | '\\', 'u' :: more => (nameEscape? more).map fun s => { s with taken := s.taken + 2 }
  | _, _ => some ⟨c.toNat, 1⟩

/-- The codes of the rest of a name, of which the first `skip` characters are already taken, and the
number of characters up to the closing mark and with it. -/
def nameFrom (begun : Bool) (skip : Nat) : List Char → Option (List Nat × Nat)
  | [] => none
  | c :: rest =>
      match skip with
      | left + 1 => (nameFrom begun left rest).map fun (codes, taken) => (codes, taken + 1)
      | 0 =>
          match spelled? c rest with
          | none => none
          | some s =>
              if begun && s.code == '>'.toNat then some ([], s.taken)
              else if if begun then Text.continuesIdentifier s.code
                  else Text.beginsIdentifier s.code then
                (nameFrom true (s.taken - 1) rest).map fun (codes, taken) =>
                  (s.code :: codes, taken + 1)
              else none

/-- The name in angle brackets at the front of the characters, and how many characters it takes with
the closing bracket. A name is an identifier, whose characters may be written as escapes. -/
def name? (cs : List Char) : Option (String × Nat) :=
  (nameFrom false 0 cs).map fun (codes, taken) =>
    (String.ofList (codes.map Char.ofNat), taken)

/-! ## Groups -/

/-- The group, if it is a capture, that a parenthesis opens before these characters. -/
def groupOpened (cs : List Char) : Groups :=
  match cs with
  | '?' :: '<' :: '=' :: _ => []
  | '?' :: '<' :: '!' :: _ => []
  | '?' :: '<' :: rest => [(name? rest).map Prod.fst]
  | '?' :: _ => []
  | _ => [none]

/-- The groups of the rest of a pattern. Parentheses in classes and after a backslash open none. -/
def groupsFrom (inClass escaped : Bool) : List Char → Groups
  | [] => []
  | c :: rest =>
      if escaped then groupsFrom inClass false rest
      else if c = '\\' then groupsFrom inClass true rest
      else if inClass then groupsFrom (c != ']') false rest
      else if c = '[' then groupsFrom true false rest
      else if c = '(' then groupOpened rest ++ groupsFrom false false rest
      else groupsFrom false false rest

namespace Groups

/-- The names of the groups that have one. -/
def names (groups : Groups) : List String :=
  groups.filterMap id

/-- The number of the group of a name. -/
def number? (groups : Groups) (name : String) : Option Nat :=
  (groups.findIdx? (· == some name)).map (· + 1)

end Groups

/-! ## Escapes -/

/-- What an escape stands for. A character outside the basic plane is two units. -/
inductive Escape where
  | units (codes : List Nat)
  | set (s : UnitSet)
deriving Repr

/-- The value of an octal digit. -/
def octalValue? (c : Char) : Option Nat :=
  if '0' ≤ c ∧ c ≤ '7' then some (c.toNat - '0'.toNat) else none

/-- The code of up to three octal digits below 256, continuing from `start`; with it the number of
digits taken. -/
def octalCode (start : Nat) (digitsLeft : Nat) : List Char → Nat × Nat
  | [] => (start, 0)
  | c :: rest =>
      match digitsLeft, octalValue? c with
      | left + 1, some digit =>
          if start < 32 then
            let (code, taken) := octalCode (start * 8 + digit) left rest
            (code, taken + 1)
          else (start, 0)
      | _, _ => (start, 0)

/-- The sets that have a letter. -/
def letterSet? (c : Char) : Option UnitSet :=
  match c with
  | 'd' => some .digit
  | 'D' => some (.complement .digit)
  | 'w' => some .word
  | 'W' => some (.complement .word)
  | 's' => some .blank
  | 'S' => some (.complement .blank)
  | _ => none

/-- The control characters that have a letter. -/
def controlCode? (c : Char) : Option Nat :=
  match c with
  | 't' => some 9
  | 'n' => some 10
  | 'v' => some 11
  | 'f' => some 12
  | 'r' => some 13
  | _ => none

/-- Whether the character after `\c` names a control character. Classes also take digits and the
underscore. -/
def isControlName (inClass : Bool) (c : Char) : Bool :=
  c.isAlpha || (inClass && (c.isDigit || c == '_'))

/-- The escape of the character `c` after a backslash, where `rest` follows, and the number of
characters taken from `c` on. Without a result there is no such escape. -/
def escape? (groups : Groups) (inClass : Bool) (c : Char) (rest : List Char) :
    Option (Escape × Nat) :=
  match letterSet? c, controlCode? c, octalValue? c with
  | some s, _, _ => some (.set s, 1)
  | _, some code, _ => some (.units [code], 1)
  | _, _, some digit =>
      let (code, taken) := octalCode digit 2 rest
      some (.units [code], taken + 1)
  | none, none, none =>
      match c with
      | 'c' =>
          match rest with
          | d :: _ =>
              if isControlName inClass d then some (.units [d.toNat % 32], 2)
              else some (.units ['\\'.toNat], 0)
          | [] => some (.units ['\\'.toNat], 0)
      | 'x' =>
          match hexCode? 2 rest with
          | some code => some (.units [code], 3)
          | none => some (.units [c.toNat], 1)
      | 'u' =>
          match hexCode? 4 rest with
          | some code => some (.units [code], 5)
          | none => some (.units [c.toNat], 1)
      | 'k' => if groups.names.isEmpty then some (.units [c.toNat], 1) else none
      | _ => some (.units (Text.charUnits c), 1)

/-! ## Tokens -/

/-- Tokens read at one place: what they are, how many characters after the first they take, and
whether a class is open behind them. -/
structure Reading where
  tokens : List Token
  taken : Nat := 0
  inClass : Bool := false

/-- Counts beyond this one are not told apart. -/
def countLimit : Nat := 2147483647

/-- The count that digits spell. -/
def count (digits : List Char) : Nat :=
  min ((digitsValue? 0 digits).getD 0) countLimit

/-- The bounds that an opening brace begins before these characters, and the number of characters up
to the closing brace. -/
def bounds? (cs : List Char) : Option (Nat × Option Nat × Nat) :=
  let least := cs.takeWhile Char.isDigit
  let afterLeast := cs.dropWhile Char.isDigit
  if least.isEmpty then none
  else match afterLeast with
    | '\x7d' :: _ => some (count least, some (count least), least.length + 1)
    | ',' :: '\x7d' :: _ => some (count least, none, least.length + 2)
    | ',' :: more =>
        let most := more.takeWhile Char.isDigit
        match most, more.dropWhile Char.isDigit with
        | _ :: _, '\x7d' :: _ =>
            some (count least, some (count most), least.length + 1 + most.length + 1)
        | _, _ => none
    | _ => none

/-- A repetition after whose `taken` characters a question mark may stand. -/
def repetition (least : Nat) (most : Option Nat) (taken : Nat) (cs : List Char) : Reading :=
  match cs.drop taken with
  | '?' :: _ => ⟨[.times ⟨least, most, true⟩], taken + 1, false⟩
  | _ => ⟨[.times ⟨least, most, false⟩], taken, false⟩

/-- The tokens of a character that stands for itself. -/
def itself (c : Char) : Reading :=
  ⟨(Text.charUnits c).map fun code => .unit (.single code), 0, false⟩

/-- What an opening parenthesis begins before these characters. -/
def group? (cs : List Char) : Option Reading :=
  match cs with
  | '?' :: ':' :: _ => some ⟨[.enter .plain], 2, false⟩
  | '?' :: '=' :: _ => some ⟨[.enter (.look false false)], 2, false⟩
  | '?' :: '!' :: _ => some ⟨[.enter (.look false true)], 2, false⟩
  | '?' :: '<' :: '=' :: _ => some ⟨[.enter (.look true false)], 3, false⟩
  | '?' :: '<' :: '!' :: _ => some ⟨[.enter (.look true true)], 3, false⟩
  | '?' :: '<' :: rest => (name? rest).map fun (_, taken) => ⟨[.enter .capture], 2 + taken, false⟩
  | '?' :: _ => none
  | _ => some ⟨[.enter .capture], 0, false⟩

/-- The group that the digits after a backslash refer to. -/
def reference? (groups : Groups) (cs : List Char) : Option (Nat × Nat) :=
  let digits := cs.takeWhile Char.isDigit
  match cs with
  | '0' :: _ => none
  | _ =>
      let group := count digits
      if digits.isEmpty || groups.length < group then none else some (group, digits.length)

/-- The token of an escape that stands for units or a set. -/
def Escape.tokens : Escape → List Token
  | .units codes => codes.map fun code => .unit (.single code)
  | .set s => [.unit s]

/-- The class members of an escape. -/
def Escape.members : Escape → List Token
  | .units codes => codes.map fun code => .classMember (.unit code)
  | .set s => [.classMember (.set s)]

/-- What a backslash begins, outside classes, before these characters. -/
def backslash? (groups : Groups) (cs : List Char) : Option Reading :=
  match cs with
  | [] => none
  | 'b' :: _ => some ⟨[.wordBoundary false], 1, false⟩
  | 'B' :: _ => some ⟨[.wordBoundary true], 1, false⟩
  | 'k' :: '<' :: rest =>
      if groups.names.isEmpty then some ⟨[.unit (.single 'k'.toNat)], 1, false⟩
      else do
        let (name, taken) ← name? rest
        let group ← groups.number? name
        return ⟨[.again group], 2 + taken, false⟩
  | c :: rest =>
      match reference? groups (c :: rest) with
      | some (group, taken) => some ⟨[.again group], taken, false⟩
      | none => (escape? groups false c rest).map fun (e, taken) => ⟨e.tokens, taken, false⟩

/-- What is read at the character `c`, where `rest` follows, outside classes. -/
def outside? (groups : Groups) (c : Char) (rest : List Char) : Option Reading :=
  match c with
  | '^' => some ⟨[.textStart], 0, false⟩
  | '$' => some ⟨[.textEnd], 0, false⟩
  | '.' => some ⟨[.unit .withinLine], 0, false⟩
  | '|' => some ⟨[.bar], 0, false⟩
  | '(' => group? rest
  | ')' => some ⟨[.leave], 0, false⟩
  | '*' => some (repetition 0 none 0 rest)
  | '+' => some (repetition 1 none 0 rest)
  | '?' => some (repetition 0 (some 1) 0 rest)
  | '\x7b' =>
      match bounds? rest with
      | some (least, most, taken) => some (repetition least most taken rest)
      | none => some (itself c)
  | '[' =>
      match rest with
      | '^' :: _ => some ⟨[.classStart true], 1, true⟩
      | _ => some ⟨[.classStart false], 0, true⟩
  | '\\' => backslash? groups rest
  | _ => some (itself c)

/-- What is read at the character `c`, where `rest` follows, inside a class. -/
def inside? (groups : Groups) (c : Char) (rest : List Char) : Option Reading :=
  match c with
  | ']' => some ⟨[.classEnd], 0, false⟩
  | '-' => some ⟨[.classMember .dash], 0, true⟩
  | '\\' =>
      match rest with
      | [] => none
      | 'b' :: _ => some ⟨[.classMember (.unit 8)], 1, true⟩
      | d :: more =>
          (escape? groups true d more).map fun (e, taken) => ⟨e.members, taken, true⟩
  | _ => some ⟨(Text.charUnits c).map fun code => .classMember (.unit code), 0, true⟩

/-- The tokens of the rest of a pattern, of which the first `skip` characters are already taken. -/
def tokensFrom (groups : Groups) (inClass : Bool) (skip : Nat) : List Char → Option (List Token)
  | [] => if inClass then none else some []
  | c :: rest =>
      match skip with
      | left + 1 => tokensFrom groups inClass left rest
      | 0 =>
          match if inClass then inside? groups c rest else outside? groups c rest with
          | none => none
          | some reading =>
              (tokensFrom groups reading.inClass reading.taken rest).map (reading.tokens ++ ·)

end FieldSchema.Pattern
