import FieldSchema.Schema

/-!
# The registry

A registry holds compiled schemas under their names, in the order in which the names were first
compiled. Names can be announced before they are compiled. While a name is being compiled it is
marked; the mark becomes its final state when the compilation succeeds, and its earlier state when
it fails. Once the registry is frozen it only answers.
-/

namespace FieldSchema

/-- How far a name has come. -/
inductive SchemaState where
  | declared
  | compiling
  | compiled
deriving Repr, DecidableEq

/-- The word for a state. -/
def SchemaState.name : SchemaState → String
  | .declared => "declared"
  | .compiling => "compiling"
  | .compiled => "compiled"

/-- Entries by name in the order in which the names came. -/
abbrev NameTable (α : Type) := List (String × α)

namespace NameTable

variable {α : Type}

/-- The entry under a name. -/
def get? (t : NameTable α) (name : String) : Option α :=
  List.lookup name t

/-- Put an entry under a name: in its place when the name is present, else at the end. -/
def put (t : NameTable α) (name : String) (value : α) : NameTable α :=
  if (t.get? name).isSome then
    t.map fun entry => if entry.1 = name then (name, value) else entry
  else t ++ [(name, value)]

/-- Take a name away. -/
def remove (t : NameTable α) (name : String) : NameTable α :=
  t.filter fun entry => entry.1 != name

/-- The names in the order in which they came. -/
def names (t : NameTable α) : List String :=
  t.map Prod.fst

theorem get?_cons (entry : String × α) (t : NameTable α) (name : String) :
    get? (entry :: t) name = if name = entry.1 then some entry.2 else get? t name :=
  Record.get?_cons entry t name

theorem isSome_get?_iff (t : NameTable α) (name : String) :
    (t.get? name).isSome = true ↔ name ∈ t.names :=
  Record.has_iff_mem_names t name

theorem get?_put (t : NameTable α) (name other : String) (value : α) :
    (t.put name value).get? other = if other = name then some value else t.get? other := by
  unfold put
  split
  next h =>
    have hpresent : Record.has t name = true := h
    refine (Record.get?_overwrite t name other value).trans ?_
    simp only [hpresent, and_true]
    rfl
  next h =>
    have hnone : Record.get? t name = none := Option.not_isSome_iff_eq_none.mp h
    refine (Record.get?_append t [(name, value)] other).trans ?_
    rw [Record.get?_cons, Record.get?_nil]
    by_cases heq : other = name
    · subst heq
      simp [hnone]
    · simp only [heq, if_false, Option.or_none]
      rfl

theorem get?_remove (t : NameTable α) (name other : String) :
    (t.remove name).get? other = if other = name then none else t.get? other := by
  induction t with
  | nil => simp [remove, get?]
  | cons entry t ih =>
      rw [get?_cons]
      by_cases hentry : entry.1 = name
      · have hremove : remove (entry :: t) name = remove t name := by simp [remove, hentry]
        rw [hremove, ih]
        by_cases heq : other = name <;> simp [heq, hentry]
      · have hremove : remove (entry :: t) name = entry :: remove t name := by
          simp [remove, hentry]
        rw [hremove, get?_cons, ih]
        by_cases heq : other = entry.1 <;> simp [heq, hentry]

/-- Putting an entry under a name that is there keeps all names in their places; another name is
added at the end. -/
theorem names_put (t : NameTable α) (name : String) (value : α) :
    (t.put name value).names = if name ∈ t.names then t.names else t.names ++ [name] := by
  unfold put
  by_cases h : name ∈ t.names
  · rw [if_pos ((isSome_get?_iff t name).mpr h), if_pos h, names, List.map_map]
    apply List.map_congr_left
    intro entry _
    by_cases heq : entry.1 = name <;> simp [heq]
  · rw [if_neg (mt (isSome_get?_iff t name).mp h), if_neg h]
    simp [names]

end NameTable

/-- What an operation on a state leaves behind: its outcome, the state after it, and its
notices. -/
structure Step (σ α : Type) where
  outcome : Outcome α
  state : σ
  notices : List Notice := []

/-- Compiled schemas by name. -/
structure Registry where
  schemas : NameTable Schema := []
  states : NameTable SchemaState := []
  frozen : Bool := false
  typeDefaults : TypeDefaults := TypeDefaults.builtIn

namespace Registry

/-- The compiled schema of a name. -/
def get? (r : Registry) (name : String) : Option Schema :=
  r.schemas.get? name

/-- Whether a name is compiled. -/
def has (r : Registry) (name : String) : Bool :=
  (r.get? name).isSome

/-- The compiled names in the order of their first compilation. -/
def names (r : Registry) : List String :=
  r.schemas.names

/-- How far a name has come. -/
def stateOf (r : Registry) (name : String) : Option SchemaState :=
  r.states.get? name

/-- The compiled schema of a name, which must be there. -/
def lookup (r : Registry) (name : String) : Outcome Schema :=
  match r.get? name with
  | some schema => .ok schema
  | none => .error (.defect (.schemaNotFound name))

/-- Set the state of a name. -/
def mark (r : Registry) (name : String) (state : SchemaState) : Registry :=
  { r with states := r.states.put name state }

/-- Give a name back the state it had, or none. -/
def restore (r : Registry) (name : String) (earlier : Option SchemaState) : Registry :=
  match earlier with
  | some state => r.mark name state
  | none => { r with states := r.states.remove name }

/-- Hold a compiled schema under a name. -/
def hold (r : Registry) (name : String) (schema : Schema) : Registry :=
  { r with schemas := r.schemas.put name schema }.mark name .compiled

/-- The schemas that declarations compiled under a name may embed: all but its own. -/
def embeddable (r : Registry) (name : String) (reference : String) : Option Schema :=
  if reference = name then none else r.get? reference

/-- Compile raw declarations under a name. -/
def compile (r : Registry) (name : String) (raw : Value) (overrides : Record Value) :
    Step Registry Schema :=
  if r.frozen then { outcome := .error (.defect (.registryFrozen name)), state := r }
  else
    let marked := r.mark name .compiling
    match Schema.compile name raw ⟨marked.embeddable name, r.typeDefaults, overrides⟩ with
    | .error failure => { outcome := .error failure, state := marked.restore name (r.stateOf name) }
    | .ok (schema, notices) =>
        { outcome := .ok schema
          state := marked.hold name schema
          notices := notices ++ if marked.has name then [.replaced name] else [] }

/-- Announce a name that will be compiled later. -/
def declare (r : Registry) (name : String) : Step Registry Unit :=
  if r.frozen then { outcome := .error (.defect (.registryFrozen name)), state := r }
  else
    { outcome := .ok ()
      state := if (r.stateOf name).isSome then r else r.mark name .declared }

/-- End the time of compiling. -/
def freeze (r : Registry) : Registry :=
  { r with frozen := true }

end Registry

end FieldSchema
