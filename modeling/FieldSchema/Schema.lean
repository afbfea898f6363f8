import FieldSchema.Compilation
import FieldSchema.Declaration.Reader

/-!
# Schemas

A schema is compiled from one list of raw declarations. Overrides for paths that no field has are
ignored, and each is noticed.
-/

namespace FieldSchema

/-- Something worth telling that does not stop the work. -/
inductive Notice where
  | unknownOverride (schema path : String)
  | replaced (schema : String)
  | fileFailed (file : String)
deriving Repr, DecidableEq

/-- The line in which a notice is told. -/
def Notice.line : Notice → String
  | .unknownOverride schema path =>
      "[compiler] " ++ schema ++ ": override for unknown field \"" ++ path ++ "\" ignored"
  | .replaced schema => "[registry] Replacing compiled schema: " ++ schema
  | .fileFailed file => "[project] Failed to compile schema " ++ file

namespace Schema

/-- The documentation node of a whole schema. -/
def rootNode (name : String) (fields : List (String × CompiledField)) : Node :=
  .object (Compilation.properties fields) ⟨false, {}, { title := some name }⟩

/-- A schema out of its compiled fields. -/
def ofFields (name : String) (fields : List (String × CompiledField)) : Schema :=
  ⟨name, Compilation.rules fields, rootNode name fields⟩

/-- The notices of the overrides that no declared field uses, in enumeration order. -/
def unusedOverrides (name : String) (overrides : Record Value) (declared : List Declaration) :
    List Notice :=
  let paths := Declaration.blockPaths "" declared
  (overrides.names.filter fun path => !paths.contains path).map (.unknownOverride name)

/-- Compile raw declarations under a name. -/
def compile (name : String) (raw : Value) (around : Surroundings) :
    Outcome (Schema × List Notice) := do
  let declared ← Declaration.readAll raw
  let fields ← Compilation.compileAll around "" declared
  return (ofFields name fields, unusedOverrides name around.overrides declared)

/-- A schema is made of the fields that its declarations compile to. -/
theorem compile_eq_ok {name : String} {raw : Value} {around : Surroundings} {s : Schema}
    {notices : List Notice} :
    compile name raw around = .ok (s, notices) ↔
      ∃ declared fields, Declaration.readAll raw = .ok declared ∧
        Compilation.compileAll around "" declared = .ok fields ∧ ofFields name fields = s ∧
        unusedOverrides name around.overrides declared = notices := by
  simp only [compile, Outcome.bind_eq_ok, Outcome.pure_eq_ok, Prod.mk.injEq, exists_and_left]

/-- A compiled schema as data. -/
def toValue (s : Schema) : Value :=
  .object false
    [("name", .text s.name), ("validationDescriptor", s.descriptor.toValue),
      ("documentationSchema", s.documentation.toValue)]

end Schema

end FieldSchema
