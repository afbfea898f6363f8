import FieldSchema.Declaration
import FieldSchema.Text.Blank

/-!
# Reading declarations

A raw declaration is a list: a kind, a name, a type and optionally options, or an embed kind, a
name and a schema reference. A list of them is read in order, names must be unique in each block,
and the first mistake ends the reading.
-/

namespace FieldSchema.Declaration

/-- The path of a parent as errors give it: the top level has none. -/
def parentPath (parent : String) : Option String :=
  if parent = "" then none else some parent

/-- The type that a type tag means. -/
def readType (tag : Value) (path : Option String) : Outcome FieldType :=
  match tag with
  | .text name =>
      match ScalarType.ofName? name with
      | some type => .ok (.scalar type)
      | none =>
          if name = "array" then .malformed .arrayWithoutSubtype path
          else .malformed (.unknownType name) path
  | .list [.text "array", subtype] =>
      match subtype with
      | .text name =>
          match ElementType.ofName? name with
          | some element => .ok (.array element)
          | none => .error (.defect (.unsupportedSubtype name path))
      | _ => .malformed .subtypeNotAName path
  | _ => do
      let json ← Json.compact? tag
      .malformed (.unknownTypeTag (json.getD "undefined")) path

/-- The name of the schema that a reference means: a name that is not blank, or the name of a
compiled schema. -/
def referenceName? (reference : Value) : Option String :=
  match reference with
  | .text name => if Text.isBlankText name then none else some name
  | .object _ _ =>
      match reference.member "name" with
      | .text name => if name = "" then none else some name
      | _ => none
  | _ => none

/-- A declaration whose inline block has not been read. -/
inductive Opening where
  | field (kind : FieldKind) (name : String) (type : FieldType)
  | embed (kind : EmbedKind) (name reference : String)

/-- Read what stands before the options of a raw field declaration. -/
def openField (kind : FieldKind) (name path : String) (parts : List Value) : Outcome Opening := do
  if parts.length < 3 then
    Outcome.malformed (.noType kind.name) (some path)
  else if 4 < parts.length then
    Outcome.malformed (.tooManyParts kind.name) (some path)
  else
    return .field kind name (← readType (parts.getD 2 .absent) (some path))

/-- Read a raw embed declaration. -/
def openEmbed (kind : EmbedKind) (name path : String) (parts : List Value) : Outcome Opening :=
  if parts.length ≠ 3 then
    .malformed (.embedParts kind.name) (some path)
  else
    match referenceName? (parts.getD 2 .absent) with
    | some reference => .ok (.embed kind name reference)
    | none => .malformed (.embedReference kind.name) (some path)

/-- Read the kind and the name of a raw declaration, and what depends on them alone. -/
def openTuple (ordinal parent : String) (parts : List Value) : Outcome Opening :=
  match parts.getD 1 .absent with
  | .text name =>
      if Text.isBlankText name then .malformed (.noName ordinal) (parentPath parent)
      else
        let path := joinPath parent name
        let kind := parts.getD 0 .absent
        let kindName := match kind with
          | .text word => word
          | _ => ""
        match FieldKind.ofName? kindName, EmbedKind.ofName? kindName with
        | some fieldKind, _ => openField fieldKind name path parts
        | none, some embedKind => openEmbed embedKind name path parts
        | none, none => do
            Outcome.malformed (.unknownKind (← kind.toText)) (some path)
  | _ => .malformed (.noName ordinal) (parentPath parent)

/-- Whether fields of a type may declare the fields inside them. -/
def allowsBlock : FieldType → Bool
  | .scalar .object => true
  | .array .object => true
  | _ => false

/-- Complete a field once its options and its inline block are known. -/
def closeField (kind : FieldKind) (name path : String) (type : FieldType)
    (options : Record Value) (block : Option (List Declaration)) : Outcome Declaration :=
  if block.isSome && !allowsBlock type then .malformed .misplacedBlock (some path)
  else if type = .array .object && block.isNone then .malformed .noBlock (some path)
  else if type = .scalar .enumeration && ((options.get? "values").getD .absent).isAbsent then
    .malformed .noEnumValues (some path)
  else
    match block with
    | some inner => .ok (.block ⟨kind, name, type, options⟩ inner)
    | none => .ok (.field ⟨kind, name, type, options⟩)

mutual

/-- Read a raw list of declarations below a parent. -/
def readBlock (parent : String) : Value → Outcome (List Declaration)
  | .list entries => readEntries parent 0 [] entries
  | _ => .malformed .notAList (parentPath parent)

/-- Read the declarations that follow the first `count`, whose names are `seen`. -/
def readEntries (parent : String) (count : Nat) (seen : List String) :
    List Value → Outcome (List Declaration)
  | [] => .ok []
  | entry :: rest => do
      let declaration ← readOne (toString (count + 1)) parent entry
      if declaration.name ∈ seen then
        Outcome.malformed (.duplicateName declaration.name) (some (joinPath parent declaration.name))
      else
        return declaration :: (← readEntries parent (count + 1) (declaration.name :: seen) rest)

/-- Read one raw declaration. -/
def readOne (ordinal parent : String) : Value → Outcome Declaration
  | .list parts => readTuple ordinal parent parts
  | v => .malformed (.notATuple ordinal v.typeName) (parentPath parent)

/-- Read the parts of one raw declaration. -/
def readTuple (ordinal parent : String) (parts : List Value) : Outcome Declaration := do
  match ← openTuple ordinal parent parts with
  | .embed kind name reference => return .embed kind name reference
  | .field kind name type =>
      let path := joinPath parent name
      match parts with
      | [_, _, _, .object _ members] =>
          let block ← readInner path members
          closeField kind name path type (Record.erase members "fields") block
      | [_, _, _, .absent] => closeField kind name path type [] none
      | [_, _, _, _] => Outcome.malformed .optionsNotPlain (some path)
      | _ => closeField kind name path type [] none

/-- Read the inline block among a field's options, if there is one. -/
def readInner (path : String) : List (String × Value) → Outcome (Option (List Declaration))
  | [] => .ok none
  | (name, value) :: rest =>
      if name = "fields" then
        if value.isAbsent then .ok none
        else do return some (← readBlock path value)
      else readInner path rest

end

/-- Read a raw list of declarations at the top level. -/
def readAll (raw : Value) : Outcome (List Declaration) :=
  readBlock "" raw

end FieldSchema.Declaration
