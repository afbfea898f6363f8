import FieldSchema.Failure
import FieldSchema.Json.Token
import FieldSchema.Value

/-!
# Reading JSON

The value that a sequence of tokens spells. The reader keeps the lists and objects that are still
open and takes one token at a time. A name that occurs twice in an object keeps its first place and
its last value.
-/

namespace FieldSchema.Json

/-- A list or an object that is still open; the items of a list are in reverse order. -/
inductive OpenValue where
  | list (items : List Value)
  /-- An object whose next value belongs under `name`. -/
  | object (members : Record Value) (name : String)

/-- What may come next. -/
inductive Expecting where
  | value (outer : List OpenValue)
  | firstItem (outer : List OpenValue)
  | firstName (outer : List OpenValue)
  | name (outer : List OpenValue) (members : Record Value)
  | colon (outer : List OpenValue) (members : Record Value) (name : String)
  | separator (outer : List OpenValue) (done : Value)

/-- The value that a single token is. -/
def Token.scalar? : Token → Option Value
  | .text s => some (.text s)
  | .number x => some (.number x)
  | .true => some (.bool Bool.true)
  | .false => some (.bool Bool.false)
  | .null => some .null
  | _ => none

/-- Begin a value. -/
def beginValue? (outer : List OpenValue) : Token → Option Expecting
  | .openList => some (.firstItem outer)
  | .openObject => some (.firstName outer)
  | token => token.scalar?.map (.separator outer)

/-- Take one token. -/
def readStep? : Expecting → Token → Option Expecting
  | .value outer, token => beginValue? outer token
  | .firstItem outer, .closeList => some (.separator outer (.list []))
  | .firstItem outer, token => beginValue? (.list [] :: outer) token
  | .firstName outer, .closeObject => some (.separator outer (.object Bool.false []))
  | .firstName outer, .text name => some (.colon outer [] name)
  | .firstName _, _ => none
  | .name outer members, .text name => some (.colon outer members name)
  | .name _ _, _ => none
  | .colon outer members name, .colon => some (.value (.object members name :: outer))
  | .colon _ _ _, _ => none
  | .separator (.list items :: outer) done, .comma => some (.value (.list (done :: items) :: outer))
  | .separator (.list items :: outer) done, .closeList =>
      some (.separator outer (.list (done :: items).reverse))
  | .separator (.object members name :: outer) done, .comma =>
      some (.name outer (members.set name done))
  | .separator (.object members name :: outer) done, .closeObject =>
      some (.separator outer (.object Bool.false (members.set name done)))
  | .separator _ _, _ => none

/-- The value of a complete reading. -/
def Expecting.result? : Expecting → Option Value
  | .separator [] done => some done
  | _ => none

/-- The value that the rest of the tokens completes. -/
def readFrom? (state : Expecting) : List Token → Option Value
  | [] => state.result?
  | token :: rest =>
      match readStep? state token with
      | some next => readFrom? next rest
      | none => none

/-- The value that a JSON text spells. -/
def read? (s : String) : Option Value := do
  readFrom? (.value []) (← tokens? s)

/-- The value that a JSON text spells; any other text is a failure. -/
def read (s : String) : Outcome Value :=
  match read? s with
  | some v => .ok v
  | none => .error .badJson

end FieldSchema.Json
