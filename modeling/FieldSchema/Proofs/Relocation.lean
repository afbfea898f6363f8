import FieldSchema.Schema

/-!
# Declarations elsewhere

Where declarations stand matters to the wording of complaints and to overrides only. What is read
below one parent is read the same below any other, and without overrides it compiles to the same
fields there, also where more schemas may be embedded.
-/

namespace FieldSchema

namespace Outcome

variable {α β : Type}

/-- A result of the first outcome is the result of the second one. -/
def Implies (x y : Outcome α) : Prop :=
  ∀ a, x = .ok a → y = .ok a

namespace Implies

@[simp] theorem refl (x : Outcome α) : Implies x x := fun _ h => h

@[simp] theorem of_error (failure : Failure) (y : Outcome α) : Implies (.error failure) y :=
  fun _ h => nomatch h

@[simp] theorem of_malformed (complaint : Complaint) (path : Option String) (y : Outcome α) :
    Implies (malformed complaint path) y :=
  of_error _ y

theorem bind {x y : Outcome α} {f g : α → Outcome β} (hxy : Implies x y)
    (hfg : ∀ a, Implies (f a) (g a)) : Implies (x >>= f) (y >>= g) := by
  intro b h
  obtain ⟨a, hx, hf⟩ := bind_eq_ok.mp h
  exact bind_eq_ok.mpr ⟨a, hxy a hx, hfg a b hf⟩

/-- A computation that ends in an error however it goes on implies anything. -/
theorem of_bind {x : Outcome α} {f : α → Outcome β} {y : Outcome β}
    (hf : ∀ a, Implies (f a) y) : Implies (x >>= f) y := by
  intro b h
  obtain ⟨a, _, hfa⟩ := bind_eq_ok.mp h
  exact hf a b hfa

theorem mapM {f g : α → Outcome β} (items : List α) (hfg : ∀ a, Implies (f a) (g a)) :
    Implies (items.mapM f) (items.mapM g) := by
  induction items with
  | nil => exact refl _
  | cons item rest ih =>
      rw [List.mapM_cons, List.mapM_cons]
      exact (hfg item).bind fun _ => ih.bind fun _ => refl _

theorem forM {f g : α → Outcome PUnit} (items : List α) (hfg : ∀ a, Implies (f a) (g a)) :
    Implies (items.forM f) (items.forM g) := by
  induction items with
  | nil => exact refl _
  | cons item rest ih => exact (hfg item).bind fun _ => ih

end Implies

end Outcome

open Outcome

/-! ## Resolving options -/

namespace Value

@[simp] theorem notLiteral_implies (option : String) (path : Option String) (v : Value)
    (y : Outcome Value) : Implies (literal.notLiteral option path v) y :=
  .of_bind fun _ => .of_error _ y

mutual

theorem literal_implies (option : String) (path other : Option String) (v : Value) :
    Implies (literal option path v) (literal option other v) := by
  cases v with
  | null => exact .refl _
  | bool flag => exact .refl _
  | text s => exact .refl _
  | number x =>
      rw [literal, literal]
      split <;> simp
  | date ms =>
      cases ms with
      | none => exact notLiteral_implies _ _ _ _
      | some ms => exact .refl _
  | list items =>
      rw [literal, literal]
      exact (literalItems_implies option path other items).bind fun _ => .refl _
  | object bare members =>
      rw [literal, literal]
      exact (literalMembers_implies option path other members).bind fun _ => .refl _
  | _ => exact notLiteral_implies _ _ _ _
termination_by sizeOf v

theorem literalItems_implies (option : String) (path other : Option String) (items : List Value) :
    Implies (literalItems option path items) (literalItems option other items) := by
  cases items with
  | nil => exact .refl _
  | cons item rest =>
      rw [literalItems, literalItems]
      exact (literal_implies option path other item).bind fun _ =>
        (literalItems_implies option path other rest).bind fun _ => .refl _
termination_by sizeOf items

theorem literalMembers_implies (option : String) (path other : Option String)
    (members : List (String × Value)) :
    Implies (literalMembers option path members) (literalMembers option other members) := by
  match members with
  | [] => exact .refl _
  | (name, value) :: rest =>
      rw [literalMembers, literalMembers]
      exact (literal_implies option path other value).bind fun _ =>
        (literalMembers_implies option path other rest).bind fun _ => .refl _
termination_by sizeOf members

end

end Value

namespace OptionSet

theorem requirePlainDecimals_implies (options : OptionSet) (path other : Option String) :
    Implies (options.requirePlainDecimals path) (options.requirePlainDecimals other) := by
  refine Implies.forM _ fun key => ?_
  cases List.lookup key options with
  | none => exact .refl _
  | some v =>
      dsimp only
      split
      next => exact .of_bind fun _ => .of_error _ _
      next => exact .refl _

theorem resolve_implies (options : OptionSet) (path other : Option String) :
    Implies (options.resolve path) (options.resolve other) :=
  .mapM _ fun (key, value) => (value.literal_implies key.name path other).bind fun _ => .refl _

end OptionSet

/-! ## Reading -/

namespace Declaration

theorem readType_implies (tag : Value) (path other : Option String) :
    Implies (readType tag path) (readType tag other) := by
  unfold readType
  split
  next =>
    split
    next => exact .refl _
    next => split <;> simp
  next =>
    split
    next => split <;> simp
    next => simp
  next => exact .of_bind fun _ => .of_malformed _ _ _

theorem openField_implies (kind : FieldKind) (name path other : String) (parts : List Value) :
    Implies (openField kind name path parts) (openField kind name other parts) := by
  unfold openField
  split
  next => simp
  next =>
    split
    next => simp
    next => exact (readType_implies _ _ _).bind fun _ => .refl _

theorem openEmbed_implies (kind : EmbedKind) (name path other : String) (parts : List Value) :
    Implies (openEmbed kind name path parts) (openEmbed kind name other parts) := by
  unfold openEmbed
  split
  next => simp
  next => split <;> simp

theorem openTuple_implies (ordinal otherOrdinal parent other : String) (parts : List Value) :
    Implies (openTuple ordinal parent parts) (openTuple otherOrdinal other parts) := by
  unfold openTuple
  split
  next =>
    split
    next => simp
    next =>
      dsimp only
      split
      next => exact openField_implies _ _ _ _ _
      next => exact openEmbed_implies _ _ _ _ _
      next => exact .of_bind fun _ => .of_malformed _ _ _
  next => simp

theorem closeField_implies (kind : FieldKind) (name path other : String) (type : FieldType)
    (options : Record Value) (block : Option (List Declaration)) :
    Implies (closeField kind name path type options block)
      (closeField kind name other type options block) := by
  unfold closeField
  split
  next => simp
  next =>
    split
    next => simp
    next => split <;> simp

mutual

theorem readBlock_implies (parent other : String) (raw : Value) :
    Implies (readBlock parent raw) (readBlock other raw) := by
  cases raw with
  | list entries => exact readEntries_implies parent other 0 [] entries
  | _ => exact .of_malformed _ _ _
termination_by sizeOf raw

theorem readEntries_implies (parent other : String) (count : Nat) (seen : List String)
    (entries : List Value) :
    Implies (readEntries parent count seen entries) (readEntries other count seen entries) := by
  cases entries with
  | nil => exact .refl _
  | cons entry rest =>
      rw [readEntries, readEntries]
      refine (readOne_implies _ parent other entry).bind fun d => ?_
      split
      next => simp
      next => exact (readEntries_implies parent other _ _ rest).bind fun _ => .refl _
termination_by sizeOf entries

theorem readOne_implies (ordinal parent other : String) (entry : Value) :
    Implies (readOne ordinal parent entry) (readOne ordinal other entry) := by
  cases entry with
  | list parts => exact readTuple_implies ordinal parent other parts
  | _ => exact .of_malformed _ _ _
termination_by sizeOf entry

theorem readTuple_implies (ordinal parent other : String) (parts : List Value) :
    Implies (readTuple ordinal parent parts) (readTuple ordinal other parts) := by
  rw [readTuple, readTuple]
  refine (openTuple_implies _ _ _ _ parts).bind fun opening => ?_
  cases opening with
  | embed kind name reference => exact .refl _
  | field kind name type =>
      dsimp only
      split
      next members =>
        exact (readInner_implies _ _ members).bind fun block => closeField_implies _ _ _ _ _ _ _
      next => exact closeField_implies _ _ _ _ _ _ _
      next => simp
      next => exact closeField_implies _ _ _ _ _ _ _
termination_by sizeOf parts

theorem readInner_implies (path other : String) (members : List (String × Value)) :
    Implies (readInner path members) (readInner other members) := by
  match members with
  | [] => exact .refl _
  | (name, value) :: rest =>
      rw [readInner, readInner]
      split
      next =>
        split
        next => exact .refl _
        next => exact (readBlock_implies path other value).bind fun _ => .refl _
      next => exact readInner_implies path other rest
termination_by sizeOf members

end

end Declaration

/-! ## Compiling -/

/-- Surroundings without overrides offer what others without overrides do: the same type defaults,
and every schema that may be embedded there. -/
structure Surroundings.Extends (other around : Surroundings) : Prop where
  lookup : ∀ reference s, around.lookup reference = some s → other.lookup reference = some s
  typeDefaults : other.typeDefaults = around.typeDefaults
  plain : around.overrides = [] ∧ other.overrides = []

namespace Compilation

theorem numberOption_implies (options : OptionSet) (key : OptionKey) (path other : String) :
    Implies (numberOption options key path) (numberOption options key other) := by
  unfold numberOption
  split <;> simp

theorem textOption_implies (options : OptionSet) (key : OptionKey) (path other : String) :
    Implies (textOption options key path) (textOption options key other) := by
  unfold textOption
  split <;> simp

theorem flagOption_implies (options : OptionSet) (key : OptionKey) (path other : String) :
    Implies (flagOption options key path) (flagOption options key other) := by
  unfold flagOption
  split <;> simp

theorem keywords_implies (options : OptionSet) (path other : String) :
    Implies (keywords options path) (keywords options other) := by
  unfold keywords
  iterate 4 refine (numberOption_implies options _ path other).bind fun _ => ?_
  iterate 4 refine (textOption_implies options _ path other).bind fun _ => ?_
  iterate 4 refine (flagOption_implies options _ path other).bind fun _ => ?_
  exact .refl _

theorem choiceValues_implies (options : OptionSet) (key : OptionKey) (path other : String) :
    Implies (choiceValues options key path) (choiceValues options key other) := by
  unfold choiceValues
  split
  next =>
    refine .mapM _ fun v => ?_
    unfold choiceText
    split <;> simp
  next => simp

section FieldContext

variable (ctx : FieldContext) (path : String)

theorem compilePlain_implies (leaf : LeafType) (type : RuleType) (imposed : Imposed) :
    Implies (compilePlain ctx leaf type imposed)
      (compilePlain { ctx with path := path } leaf type imposed) :=
  (keywords_implies _ _ _).bind fun _ => .refl _

theorem compileTemporal_implies (format : String) (type : RuleType) (canonical : String) :
    Implies (compileTemporal ctx format type canonical)
      (compileTemporal { ctx with path := path } format type canonical) :=
  (keywords_implies _ _ _).bind fun _ => .refl _

theorem compileChoice_implies (source : OptionKey) :
    Implies (compileChoice ctx source) (compileChoice { ctx with path := path } source) :=
  (choiceValues_implies _ _ _ _).bind fun _ => (keywords_implies _ _ _).bind fun _ => .refl _

theorem compileScalar_implies (type : ScalarType) :
    Implies (compileScalar ctx type) (compileScalar { ctx with path := path } type) := by
  cases type with
  | string =>
      rw [compileScalar, compileScalar]
      split
      next => exact compileChoice_implies ctx path _
      next => exact compilePlain_implies ctx path _ _ _
  | integer => exact compilePlain_implies ctx path _ _ _
  | number => exact compilePlain_implies ctx path _ _ _
  | boolean => exact compilePlain_implies ctx path _ _ _
  | uuid => exact compilePlain_implies ctx path _ _ _
  | date => exact compileTemporal_implies ctx path _ _ _
  | datetime => exact compileTemporal_implies ctx path _ _ _
  | decimal => exact compilePlain_implies ctx path _ _ _
  | enumeration => exact compileChoice_implies ctx path _
  | object => exact (keywords_implies _ _ _).bind fun _ => .refl _

theorem compileArray_implies (element : ElementType) :
    Implies (compileArray ctx element) (compileArray { ctx with path := path } element) :=
  (keywords_implies _ _ _).bind fun _ => .refl _

end FieldContext

/-- The options of a decimal field must be plain numbers. -/
def requirePlain (type : FieldType) (declared override : OptionSet) (path : Option String) :
    Outcome Unit :=
  if type = .scalar .decimal then do
    declared.requirePlainDecimals path
    override.requirePlainDecimals path
  else .ok ()

/-- The options of a date field are cut to calendar days. -/
def prepared (type : FieldType) (options : OptionSet) : OptionSet :=
  if type = .scalar .date then options.toCalendarDays else options

/-- Options are checked, prepared and resolved before they are merged. -/
theorem mergeOptions_eq (type : FieldType) (declared override defaults : OptionSet)
    (path : String) :
    mergeOptions type declared override defaults path = (do
      requirePlain type declared override (some path)
      let lower ← (prepared type declared).resolve (some path)
      let upper ← (prepared type override).resolve (some path)
      return upper.onTopOf (lower.onTopOf defaults)) := by
  unfold mergeOptions requirePlain prepared
  by_cases htype : type = .scalar .decimal
  · simp [htype]
  · simp only [htype, if_false]
    rfl

theorem requirePlain_implies (type : FieldType) (declared override : OptionSet)
    (path other : Option String) :
    Implies (requirePlain type declared override path)
      (requirePlain type declared override other) := by
  unfold requirePlain
  split
  next =>
    exact (declared.requirePlainDecimals_implies _ _).bind fun _ =>
      override.requirePlainDecimals_implies _ _
  next => exact .refl _

theorem mergeOptions_implies (type : FieldType) (declared override defaults : OptionSet)
    (path other : String) :
    Implies (mergeOptions type declared override defaults path)
      (mergeOptions type declared override defaults other) := by
  rw [mergeOptions_eq, mergeOptions_eq]
  exact (requirePlain_implies _ _ _ _ _).bind fun _ =>
    (OptionSet.resolve_implies _ _ _).bind fun _ =>
      (OptionSet.resolve_implies _ _ _).bind fun _ => .refl _

variable {around other : Surroundings}

/-- Without overrides only the path of a field's context depends on where it stands. -/
theorem fieldContext_extends (h : other.Extends around) {parent : String} (otherParent : String)
    {head : FieldHead} {ctx : FieldContext} (hctx : fieldContext around parent head = .ok ctx) :
    fieldContext other otherParent head =
      .ok { ctx with path := joinPath otherParent head.name } := by
  unfold fieldContext at hctx ⊢
  obtain ⟨options, hoptions, hctx⟩ := bind_eq_ok.mp hctx
  obtain rfl := pure_eq_ok.mp hctx
  refine bind_eq_ok.mpr ⟨options, ?_, rfl⟩
  rw [h.plain.1] at hoptions
  rw [h.plain.2, h.typeDefaults]
  exact mergeOptions_implies _ _ _ _ _ _ _ hoptions

theorem compileEmbed_extends (h : other.Extends around) (kind : EmbedKind)
    (name reference path otherPath : String) :
    Implies (compileEmbed around.lookup kind name reference path)
      (compileEmbed other.lookup kind name reference otherPath) := by
  unfold compileEmbed
  cases hlookup : around.lookup reference with
  | none => simp
  | some target =>
      rw [h.lookup reference target hlookup]
      exact .refl _

mutual

theorem compileOne_extends (h : other.Extends around) (parent otherParent : String)
    (d : Declaration) : Implies (compileOne around parent d) (compileOne other otherParent d) := by
  intro field hfield
  cases d with
  | field head =>
      obtain ⟨ctx, hctx, hfield⟩ := bind_eq_ok.mp hfield
      refine bind_eq_ok.mpr ⟨_, fieldContext_extends h otherParent hctx, ?_⟩
      cases htype : head.type with
      | scalar type =>
          rw [htype] at hfield
          exact compileScalar_implies ctx _ type field hfield
      | array element =>
          rw [htype] at hfield
          exact compileArray_implies ctx _ element field hfield
  | block head inner =>
      rw [compileOne] at hfield ⊢
      obtain ⟨ctx, hctx, hfield⟩ := bind_eq_ok.mp hfield
      refine bind_eq_ok.mpr ⟨_, fieldContext_extends h otherParent hctx, ?_⟩
      refine Implies.bind (keywords_implies _ _ _) (fun stated => ?_) field hfield
      exact (compileAll_extends h _ _ inner).bind fun _ => .refl _
  | embed kind name reference => exact compileEmbed_extends h kind name reference _ _ field hfield
termination_by sizeOf d

/-- What compiles without overrides compiles to the same fields elsewhere, where at least the same
schemas may be embedded. -/
theorem compileAll_extends (h : other.Extends around) (parent otherParent : String)
    (block : List Declaration) :
    Implies (compileAll around parent block) (compileAll other otherParent block) := by
  cases block with
  | nil => exact .refl _
  | cons d rest =>
      rw [compileAll, compileAll]
      exact (compileOne_extends h parent otherParent d).bind fun _ =>
        (compileAll_extends h parent otherParent rest).bind fun _ => .refl _
termination_by sizeOf block

end

end Compilation

end FieldSchema
