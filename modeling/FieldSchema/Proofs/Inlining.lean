import FieldSchema.Proofs.Publishing
import FieldSchema.Proofs.WritingOut

/-!
# Embedding is inlining

A schema that embeds others compiles to what it compiles to when the others are written out in it.
The descriptors are equal. The documentation is the same data, but where elements of an array are
written out they have no title. This is so because a schema that is embedded is taken as it was
compiled, and its declarations, compiled again inside another schema, give the same fields.
-/

namespace FieldSchema

open Outcome

/-- Values that are the same data: objects have the same members in whatever order. -/
inductive Value.SameData : Value → Value → Prop
  | refl (v : Value) : SameData v v
  | list {items others : List Value} (h : List.Forall₂ SameData items others) :
      SameData (.list items) (.list others)
  | object {bare : Bool} {members others : Record Value}
      (h : ∀ name, Option.Rel SameData (Record.get? members name) (Record.get? others name)) :
      SameData (.object bare members) (.object bare others)

def Annotations.untitled (notes : Annotations) : Annotations :=
  { notes with
    stated := { notes.stated with title := none }
    imposed := { notes.imposed with title := none } }

namespace Node

/-- A node without its title. -/
def untitled : Node → Node
  | .leaf type notes => .leaf type notes.untitled
  | .array items notes => .array items notes.untitled
  | .openObject notes => .openObject notes.untitled
  | .object properties notes => .object properties notes.untitled

mutual

/-- A tree in which the arrays at the chosen places hold embedded schemas without their titles. The
trees of embedded schemas are not searched. -/
def withoutTitles (places : List String → Bool) : Node → Node
  | .array items notes =>
      if items.rootOf?.isSome then .array (if places [] then items.untitled else items) notes
      else .array (withoutTitles places items) notes
  | .object properties notes => .object (propertiesWithoutTitles places properties) notes
  | .leaf type notes => .leaf type notes
  | .openObject notes => .openObject notes

def propertiesWithoutTitles (places : List String → Bool) :
    List (String × Node) → List (String × Node)
  | [] => []
  | (name, n) :: rest =>
      (name,
          if n.rootOf?.isSome then n else withoutTitles (fun place => places (name :: place)) n) ::
        propertiesWithoutTitles places rest

end

/-- What becomes of the property of a name. -/
def inProperty (places : List String → Bool) (name : String) (n : Node) : Node :=
  if n.rootOf?.isSome then n else n.withoutTitles fun place => places (name :: place)

theorem inProperty_of_root {places : List String → Bool} {name : String} {n : Node}
    (hn : n.rootOf?.isSome = true) : n.inProperty places name = n :=
  if_pos hn

theorem inProperty_array_of_root {places : List String → Bool} {name : String} {items : Node}
    {notes : Annotations} (hitems : items.rootOf?.isSome = true)
    (hnotes : notes.imposed.title = none) :
    (array items notes).inProperty places name =
      .array (if places [name] then items.untitled else items) notes := by
  have hnode : (array items notes).rootOf? = none := hnotes
  rw [inProperty, hnode, withoutTitles, if_pos hitems]
  rfl

mutual

theorem withoutTitles_of_nowhere {places : List String → Bool} (h : ∀ place, places place = false)
    (n : Node) : n.withoutTitles places = n := by
  cases n with
  | leaf type notes => rfl
  | openObject notes => rfl
  | array items notes =>
      rw [withoutTitles, withoutTitles_of_nowhere h items, h]
      simp
  | object properties notes =>
      rw [withoutTitles, propertiesWithoutTitles_of_nowhere h properties]
termination_by sizeOf n

theorem propertiesWithoutTitles_of_nowhere {places : List String → Bool}
    (h : ∀ place, places place = false) (properties : List (String × Node)) :
    propertiesWithoutTitles places properties = properties := by
  match properties with
  | [] => rfl
  | (name, n) :: rest =>
      have hn := withoutTitles_of_nowhere (fun place => h (name :: place)) n
      rw [propertiesWithoutTitles, hn, propertiesWithoutTitles_of_nowhere h rest, ite_self]
termination_by sizeOf properties

end

theorem get?_propertiesWithoutTitles (places : List String → Bool) (properties : Record Node)
    (name : String) :
    Record.get? (propertiesWithoutTitles places properties) name =
      (properties.get? name).map (inProperty places name) := by
  induction properties with
  | nil => rfl
  | cons entry rest ih =>
      obtain ⟨key, n⟩ := entry
      rw [propertiesWithoutTitles, Record.get?_cons, Record.get?_cons, ih]
      by_cases h : name = key
      · subst h
        simp [inProperty]
      · simp [h]

end Node

/-! ## The same data -/

theorem rel_option_map {α β γ δ : Type} {R : α → β → Prop} {S : γ → δ → Prop} {f : α → γ}
    {g : β → δ} {x : Option α} {y : Option β} (h : Option.Rel R x y)
    (hfg : ∀ a b, R a b → S (f a) (g b)) : Option.Rel S (x.map f) (y.map g) := by
  cases h with
  | none => exact .none
  | some hab => exact .some (hfg _ _ hab)

namespace Value.SameData

theorem rel_refl (x : Option Value) : Option.Rel SameData x x := by
  cases x with
  | none => exact .none
  | some v => exact .some (.refl v)

theorem rel_or {x y z w : Option Value} (hxy : Option.Rel SameData x y)
    (hzw : Option.Rel SameData z w) : Option.Rel SameData (x.or z) (y.or w) := by
  cases hxy with
  | none => exact hzw
  | some h => exact .some h

theorem rel_entry {v w : Value} (h : v.SameData w) (name other : String) :
    Option.Rel SameData (Record.get? [(name, v)] other) (Record.get? [(name, w)] other) := by
  rw [Record.get?_cons, Record.get?_cons]
  by_cases hname : other = name
  · simpa [hname] using Option.Rel.some h
  · simp [hname]

/-- Nodes that differ in their content only are the same data when their content is. -/
theorem entriesAround (notes : Annotations) (type : String) {content others : Record Value}
    (h : ∀ name, Option.Rel SameData (content.get? name) (others.get? name)) :
    SameData (.object false (Node.entriesAround notes type content))
      (.object false (Node.entriesAround notes type others)) := by
  refine .object fun name => ?_
  simp only [Node.entriesAround, Record.get?_append]
  iterate 3 refine rel_or ?_ (rel_refl _)
  exact rel_or (rel_refl _) (h name)

theorem array (notes : Annotations) {items others : Node}
    (h : items.toValue.SameData others.toValue) :
    (Node.array items notes).toValue.SameData (Node.array others notes).toValue :=
  entriesAround notes "array" (rel_entry h "items")

theorem objectNode (notes : Annotations) {properties others : Record Node}
    (h : ∀ name, Option.Rel (fun n other : Node => n.toValue.SameData other.toValue)
      (properties.get? name) (others.get? name)) :
    (Node.object properties notes).toValue.SameData (Node.object others notes).toValue := by
  refine entriesAround notes "object" (rel_entry (.object fun name => ?_) "properties")
  rw [Node.propertiesToValue_eq_mapValues, Node.propertiesToValue_eq_mapValues,
    Record.get?_mapValues, Record.get?_mapValues]
  exact rel_option_map (h name) fun _ _ hn => hn

/-- It is no matter whether a title is imposed or stated. -/
theorem titled (name : String) (required : Bool) (properties : Record Node) :
    (Node.object properties ⟨required, {}, { title := some name }⟩).toValue.SameData
      (Node.object properties ⟨required, { title := some name }, {}⟩).toValue := by
  refine .object fun other => ?_
  have hget : Record.get?
      (Node.entriesAround ⟨required, {}, { title := some name }⟩ "object"
        [("properties", .object false (Node.propertiesToValue properties))]) other =
      Record.get?
        (Node.entriesAround ⟨required, { title := some name }, {}⟩ "object"
          [("properties", .object false (Node.propertiesToValue properties))]) other := by
    by_cases htitle : other = "title" <;>
      simp [htitle, Node.entriesAround, Keywords.entries, Node.unplaced, Record.get?_append,
        Record.get?_cons, Record.get?_ofOption]
  rw [hget]
  exact rel_refl _

end Value.SameData

/-! ## Compiling what has been written out -/

/-- What writing out leaves of a compiled field of a name: its rule, and its documentation up to the
titles at the chosen places. -/
structure CompiledField.Keeps (places : List String → Bool) (name : String)
    (field other : CompiledField) : Prop where
  rule : other.rule = field.rule
  node : (field.node.inProperty places name).toValue.SameData other.node.toValue

namespace Compilation

/-- Compiled fields correspond one by one. -/
def FieldsKept (places : List String → Bool) (fields others : List (String × CompiledField)) :
    Prop :=
  List.Forall₂ (fun field other => other.1 = field.1 ∧ field.2.Keeps places field.1 other.2)
    fields others

namespace FieldsKept

variable {places : List String → Bool} {fields others : List (String × CompiledField)}

theorem rules_eq (h : FieldsKept places fields others) : rules others = rules fields := by
  induction h with
  | nil => rfl
  | cons hfirst _ ih => exact congrArg₂ List.cons hfirst.2.rule ih

theorem names_eq (h : FieldsKept places fields others) :
    others.map Prod.fst = fields.map Prod.fst := by
  induction h with
  | nil => rfl
  | cons hfirst _ ih => exact congrArg₂ List.cons hfirst.1 ih

theorem get? (h : FieldsKept places fields others) (name : String) :
    Option.Rel (fun field other => field.Keeps places name other)
      (Record.get? fields name) (Record.get? others name) := by
  induction h with
  | nil => exact .none
  | @cons field other _ _ hfirst _ ih =>
      obtain ⟨hname, hkept⟩ := hfirst
      rw [Record.get?_cons, Record.get?_cons, hname]
      by_cases heq : name = field.1
      · subst heq
        simpa using Option.Rel.some hkept
      · simpa [heq] using ih

/-- Of fields with distinct names, the properties correspond too. -/
theorem properties (h : FieldsKept places fields others) (hnodup : (fields.map Prod.fst).Nodup)
    (name : String) :
    Option.Rel (fun n other : Node => n.toValue.SameData other.toValue)
      (Record.get? (Node.propertiesWithoutTitles places (properties fields)) name)
      (Record.get? (Compilation.properties others) name) := by
  rw [Node.get?_propertiesWithoutTitles, get?_properties hnodup,
    get?_properties (h.names_eq ▸ hnodup), Option.map_map]
  exact rel_option_map (h.get? name) fun _ _ hkept => hkept.node

end FieldsKept

/-- A block keeps what the fields inside it keep. -/
theorem assembleBlock_keeps {places : List String → Bool} (ctx : FieldContext) (type : FieldType)
    (stated : Keywords) {name : String} {fields others : List (String × CompiledField)}
    (h : FieldsKept (fun place => places (name :: place)) fields others)
    (hnodup : (fields.map Prod.fst).Nodup) :
    (assembleBlock ctx type stated fields).Keeps places name
      (assembleBlock ctx type stated others) := by
  have hobject (notes : Annotations) :=
    Value.SameData.objectNode notes fun name => h.properties hnodup name
  cases type with
  | scalar type => exact ⟨by simp [assembleBlock, h.rules_eq], hobject _⟩
  | array element => exact ⟨by simp [assembleBlock, h.rules_eq], .array _ (hobject _)⟩

theorem withoutTitles_compileField {around : Surroundings} {parent : String} {head : FieldHead}
    {field : CompiledField} (h : compileField around parent head = .ok field)
    (places : List String → Bool) : field.node.withoutTitles places = field.node := by
  obtain ⟨ctx, _, h⟩ := bind_eq_ok.mp h
  split at h
  next =>
    have hchildren := (compileScalar_node h).1
    generalize field.node = n at hchildren
    cases n with
    | object properties notes =>
        obtain rfl := List.map_eq_nil_iff.mp hchildren
        rfl
    | array items notes => cases hchildren
    | leaf type notes => rfl
    | openObject notes => rfl
  next element _ =>
    obtain ⟨stated, _, h⟩ := bind_eq_ok.mp h
    cases element <;>
      (obtain rfl := pure_eq_ok.mp h
       rfl)

section WrittenOut

variable {around : Surroundings} {source : String → Value}

theorem compileOne_writtenOut (hplain : around.overrides = []) {parent name : String}
    (kind : EmbedKind) (reference : String) {inner : List Declaration}
    {fields : List (String × CompiledField)}
    (hobject : kind = .one → around.typeDefaults.optionsFor .object = [])
    (hinner : compileAll around (joinPath parent name) inner = .ok fields) :
    compileOne around parent (.writtenOut kind name reference inner) =
      .ok (match kind with
        | .one => ⟨.object (properties fields) ⟨false, { title := some reference }, {}⟩,
            .fields ⟨name, .map, false, {}⟩ (rules fields)⟩
        | .many => ⟨.array (.object (properties fields) ⟨false, {}, {}⟩) ⟨false, {}, {}⟩,
            .itemFields ⟨name, .array, false, {}⟩ (rules fields)⟩) := by
  cases kind with
  | one =>
      have hctx : fieldContext around parent
          ⟨.optional, name, .scalar .object, [("title", .text reference)]⟩ =
          .ok ⟨name, joinPath parent name, false, [(.title, .text reference)]⟩ := by
        simp only [fieldContext, defaultsFor, hobject rfl, hplain]
        rfl
      rw [Declaration.writtenOut, compileOne, hctx]
      refine bind_eq_ok.mpr ⟨_, rfl, bind_eq_ok.mpr ⟨{ title := some reference }, rfl, ?_⟩⟩
      exact bind_eq_ok.mpr ⟨fields, hinner, rfl⟩
  | many =>
      have hctx : fieldContext around parent ⟨.optional, name, .array .object, []⟩ =
          .ok ⟨name, joinPath parent name, false, []⟩ := by
        simp only [fieldContext, defaultsFor, hplain]
        rfl
      rw [Declaration.writtenOut, compileOne, hctx]
      refine bind_eq_ok.mpr ⟨_, rfl, bind_eq_ok.mpr ⟨{}, rfl, ?_⟩⟩
      exact bind_eq_ok.mpr ⟨fields, hinner, rfl⟩

/-- The schemas that may be embedded are what their sources compile to, wherever these stand. -/
def Embeds (around : Surroundings) (source : String → Value) : Prop :=
  ∀ reference t, around.lookup reference = some t → ∃ declared fields,
    Declaration.readAll (source reference) = .ok declared ∧ t = Schema.ofFields reference fields ∧
      ∀ parent, compileAll around parent declared = .ok fields

theorem compileEmbed_writeOut (hplain : around.overrides = []) (hembeds : Embeds around source)
    {chosen : EmbedChoice}
    (hobject : ∀ place, chosen .one place = true → around.typeDefaults.optionsFor .object = [])
    {parent name reference : String} {kind : EmbedKind} {field : CompiledField}
    (h : compileOne around parent (.embed kind name reference) = .ok field) :
    ∃ other,
      compileOne around parent
        (.writeOut (Declaration.readings source) chosen (.embed kind name reference)) =
          .ok other ∧
      field.Keeps (chosen .many) name other := by
  have hfield := h
  rw [compileOne, compileEmbed] at hfield
  rw [Declaration.writeOut]
  cases hlookup : around.lookup reference with
  | none => simp [hlookup] at hfield
  | some t =>
      obtain ⟨declared, fields, hread, rfl, hfields⟩ := hembeds reference t hlookup
      rw [hlookup] at hfield
      rw [Declaration.readings_eq hread]
      split
      next hchosen =>
        refine ⟨_, compileOne_writtenOut hplain kind reference ?_ (hfields _), ?_⟩
        · rintro rfl
          exact hobject [name] hchosen
        cases kind with
        | one =>
            obtain rfl := Except.ok.inj hfield
            -- the title that the tree has imposed on it is stated in the block
            refine ⟨rfl, ?_⟩
            rw [Node.inProperty_of_root rfl]
            exact .titled _ _ _
        | many =>
            obtain rfl := Except.ok.inj hfield
            refine ⟨rfl, ?_⟩
            rw [Node.inProperty_array_of_root rfl rfl, if_pos hchosen]
            exact .refl _
      next hchosen =>
        refine ⟨field, h, rfl, ?_⟩
        cases kind with
        | one =>
            obtain rfl := Except.ok.inj hfield
            rw [Node.inProperty_of_root rfl]
            exact .refl _
        | many =>
            obtain rfl := Except.ok.inj hfield
            rw [Node.inProperty_array_of_root rfl rfl, if_neg hchosen]
            exact .refl _

mutual

theorem compileOne_writeOut (hplain : around.overrides = []) (hembeds : Embeds around source)
    (chosen : EmbedChoice)
    (hobject : ∀ place, chosen .one place = true → around.typeDefaults.optionsFor .object = [])
    (parent : String) (d : Declaration) (hd : d.IsWellFormed) {field : CompiledField}
    (h : compileOne around parent d = .ok field) :
    ∃ other,
      compileOne around parent (d.writeOut (Declaration.readings source) chosen) = .ok other ∧
      field.Keeps (chosen .many) d.name other := by
  cases d with
  | field head =>
      refine ⟨field, h, rfl, ?_⟩
      rw [Node.inProperty, withoutTitles_compileField h, ite_self]
      exact .refl _
  | block head inner =>
      obtain ⟨ctx, stated, fields, hctx, hstated, hfields, rfl⟩ := compileBlock_eq_ok.mp h
      obtain ⟨others, hothers, hkept⟩ := compileAll_writeOut hplain hembeds
        (chosen.inside head.name) (fun place => hobject (head.name :: place)) ctx.path inner
        hd.2.2 hfields
      refine ⟨assembleBlock ctx head.type stated others, ?_, assembleBlock_keeps ctx _ _ hkept ?_⟩
      · rw [Declaration.writeOut]
        exact compileBlock_eq_ok.mpr ⟨ctx, stated, others, hctx, hstated, hothers, rfl⟩
      · exact map_fst_compileAll hfields ▸ hd.2.2.nodup_names
  | embed kind name reference => exact compileEmbed_writeOut hplain hembeds hobject h
termination_by sizeOf d

theorem compileAll_writeOut (hplain : around.overrides = []) (hembeds : Embeds around source)
    (chosen : EmbedChoice)
    (hobject : ∀ place, chosen .one place = true → around.typeDefaults.optionsFor .object = [])
    (parent : String) (block : List Declaration) (hblock : Declaration.BlockIsWellFormed block)
    {fields : List (String × CompiledField)} (h : compileAll around parent block = .ok fields) :
    ∃ others,
      compileAll around parent
        (Declaration.writeOutAll (Declaration.readings source) chosen block) = .ok others ∧
      FieldsKept (chosen .many) fields others := by
  cases block with
  | nil =>
      obtain rfl := Except.ok.inj h
      exact ⟨[], rfl, .nil⟩
  | cons d rest =>
      obtain ⟨first, fields, hfirst, hfields, rfl⟩ := compileAll_cons_eq_ok.mp h
      obtain ⟨other, hother, hkept⟩ :=
        compileOne_writeOut hplain hembeds chosen hobject parent d hblock.1 hfirst
      obtain ⟨others, hothers, hrest⟩ :=
        compileAll_writeOut hplain hembeds chosen hobject parent rest hblock.2.2 hfields
      refine ⟨(d.name, other) :: others, ?_, .cons ⟨rfl, hkept⟩ hrest⟩
      rw [Declaration.writeOutAll, ← Declaration.name_writeOut]
      exact compileAll_cons_eq_ok.mpr ⟨other, others, hother, hothers, rfl⟩
termination_by sizeOf block

end

end WrittenOut

end Compilation

namespace Registry

theorem compile_eq_ok_iff {r : Registry} {name : String} {raw : Value} {overrides : Record Value}
    {s : Schema} :
    (r.compile name raw overrides).outcome = .ok s ↔ r.frozen = false ∧
      ∃ notices, Schema.compile name raw (r.surroundings name overrides) = .ok (s, notices) := by
  rcases r.compile_cases name raw overrides with
    ⟨hfrozen, _, houtcome⟩ | ⟨_, _, hcompile, houtcome, _⟩ | ⟨_, _, hopen, hcompile, houtcome, _⟩
  · simp [houtcome, hfrozen]
  · simp [houtcome, hcompile]
  · simp [houtcome, hcompile, hopen]

/-- Where the schemas that may be embedded are what their sources compile to, a compilation
succeeds with embeds written out too. -/
theorem compile_writeOut_outcome {r : Registry} {name : String} {raw : Value} {s : Schema}
    {source : String → Value} (hembeds : Compilation.Embeds (r.surroundings name []) source)
    (chosen : EmbedChoice)
    (hobject : ∀ place, chosen .one place = true → r.typeDefaults.optionsFor .object = [])
    (h : (r.compile name raw []).outcome = .ok s) :
    ∃ inlined, (r.compile name (raw.writeOut source chosen) []).outcome = .ok inlined ∧
      inlined.descriptor = s.descriptor ∧
      (s.documentation.withoutTitles (chosen .many)).toValue.SameData
        inlined.documentation.toValue := by
  obtain ⟨hopen, notices, hcompile⟩ := compile_eq_ok_iff.mp h
  obtain ⟨declared, fields, hdeclared, hfields, rfl, -⟩ := Schema.compile_eq_ok.mp hcompile
  have hwell := Declaration.readAll_isWellFormed hdeclared
  have hread : ∀ reference ∈ Declaration.blockReferences declared,
      Declaration.readAll (source reference) = .ok (Declaration.readings source reference) := by
    intro reference hreference
    obtain ⟨t, ht⟩ := Option.isSome_iff_exists.mp
      (Compilation.lookup_of_compileAll "" declared hfields reference hreference)
    obtain ⟨_, _, hsource, _⟩ := hembeds reference t ht
    rw [Declaration.readings_eq hsource, hsource]
  obtain ⟨others, hothers, hkept⟩ := Compilation.compileAll_writeOut rfl hembeds chosen hobject ""
    declared hwell hfields
  have hcompile : Schema.compile name (raw.writeOut source chosen) (r.surroundings name []) =
      .ok (Schema.ofFields name others, _) :=
    Schema.compile_eq_ok.mpr ⟨_, others,
      Declaration.readBlock_writeOut chosen "" raw hdeclared hread, hothers, rfl, rfl⟩
  refine ⟨Schema.ofFields name others, compile_eq_ok_iff.mpr ⟨hopen, _, hcompile⟩,
    hkept.rules_eq, ?_⟩
  have hnodup : (fields.map Prod.fst).Nodup :=
    Compilation.map_fst_compileAll hfields ▸ hwell.nodup_names
  exact .objectNode _ fun property => hkept.properties hnodup property

end Registry

namespace Session

/-- Where every name is registered at most once and without overrides, the schemas that a new name
may embed are what they were registered with, wherever that stands. -/
theorem run_embeds {defaults : TypeDefaults} {calls : List Call} {name : String}
    (honce : ((start defaults).registeredNames calls).Nodup)
    (hname : name ∉ (start defaults).registeredNames calls)
    (hplain : ∀ g ∈ (start defaults).registrations calls, g.overrides = []) :
    Compilation.Embeds (((start defaults).run calls).registry.surroundings name [])
      ((start defaults).declarationsOf calls) := by
  intro reference t ht
  obtain ⟨_, hheld⟩ := Registry.lookup_surroundings_iff.mp ht
  obtain ⟨g, hg, rfl⟩ := List.mem_map.mp (mem_registeredNames_of_get? hheld)
  have hstands := run_stands defaults calls honce g hg
  obtain rfl : g.schema = t := Option.some.inj (hstands.held.symm.trans hheld)
  obtain ⟨around, notices, hcompile, hdefaults, hoverrides, hlookup⟩ := hstands.compiled
  obtain ⟨declared, fields, hdeclared, hfields, hschema, -⟩ := Schema.compile_eq_ok.mp hcompile
  -- what could be embedded then can be embedded now, for the new name was not among it
  have hextends : (((start defaults).run calls).registry.surroundings name []).Extends around := by
    refine ⟨fun other s hs => ?_, hdefaults.symm, hoverrides.trans (hplain g hg), rfl⟩
    have hother := hlookup other s hs
    have hne : other ≠ name := fun heq => hname (heq ▸ mem_registeredNames_of_get? hother)
    exact (if_neg hne).trans hother
  refine ⟨declared, fields, ?_, hschema.symm, fun parent => ?_⟩
  · rw [declarationsOf_eq honce hg, hdeclared]
  · exact Compilation.compileAll_extends hextends "" parent declared fields hfields

/-- In a run in which every name is registered at most once and without overrides, writing out
embeds of a schema, each with what the embedded schema was registered with, gives a schema with the
same descriptor and the same documentation; only where an array of embedded schemas was written out
its elements have no title. Writing out single embeds takes type defaults without options for
objects. -/
theorem compile_writeOut {defaults : TypeDefaults} {calls : List Call} {name : String} {raw : Value}
    {s : Schema} (chosen : EmbedChoice)
    (honce : ((start defaults).registeredNames (calls ++ [.compile name raw []])).Nodup)
    (hplain : ∀ g ∈ (start defaults).registrations calls, g.overrides = [])
    (hobject : ∀ place, chosen .one place = true → defaults.optionsFor .object = [])
    (h : (((start defaults).run calls).registry.compile name raw []).outcome = .ok s) :
    ∃ inlined,
      (((start defaults).run calls).registry.compile name
        (raw.writeOut ((start defaults).declarationsOf calls) chosen) []).outcome = .ok inlined ∧
      inlined.descriptor = s.descriptor ∧
      (s.documentation.withoutTitles (chosen .many)).toValue.SameData
        inlined.documentation.toValue ∧
      ((∀ place, chosen .many place = false) →
        s.documentation.toValue.SameData inlined.documentation.toValue) := by
  have hregistered : ((start defaults).run calls).registration? (.compile name raw []) =
      some ⟨s, raw, []⟩ := by
    simp [registration?, compiled?, Call.source?, h, Except.toOption]
  obtain ⟨_, notices, hcompile⟩ := Registry.compile_ok_state h
  rw [registeredNames, registrations_concat, hregistered, List.map_append] at honce
  have hname : name ∉ (start defaults).registeredNames calls := fun hmem =>
    List.disjoint_of_nodup_append honce hmem
      (List.mem_singleton.mpr (Schema.compile_name hcompile).symm)
  have hembeds := run_embeds honce.of_append_left hname hplain
  generalize hr : ((start defaults).run calls).registry = r at *
  have hdefaults : r.typeDefaults = defaults := hr ▸ run_typeDefaults defaults calls
  obtain ⟨inlined, hinlined, hdescriptor, hdocumentation⟩ :=
    Registry.compile_writeOut_outcome hembeds chosen (fun place => hdefaults ▸ hobject place) h
  refine ⟨inlined, hinlined, hdescriptor, hdocumentation, fun hnowhere => ?_⟩
  rwa [Node.withoutTitles_of_nowhere hnowhere] at hdocumentation

/-- Declarations of an address. -/
def addressDeclarations : Value :=
  .list [.list [.text "required", .text "city", .text "string"]]

def addressOnly : List Call := [.compile "Address" addressDeclarations []]

/-- A household has an address inside its profile, and further addresses. -/
def household : Value :=
  .list [
    .list [.text "required", .text "profile", .text "object",
      .object false [("fields",
        .list [.list [.text "embeds_one", .text "home", .text "Address"]])]],
    .list [.text "embeds_many", .text "others", .text "Address"]]

/-- A household with its addresses written out. -/
def householdInlined : Value :=
  .list [
    .list [.text "required", .text "profile", .text "object",
      .object false [("fields",
        .list [.list [.text "optional", .text "home", .text "object",
          .object false [("title", .text "Address"), ("fields", addressDeclarations)]]])]],
    .list [.text "optional", .text "others", .list [.text "array", .text "object"],
      .object false [("fields", addressDeclarations)]]]

theorem household_eq_inlined :
    ∃ s inlined,
      (((start .builtIn).run addressOnly).registry.compile "Household" household []).outcome =
        .ok s ∧
      (((start .builtIn).run addressOnly).registry.compile "Household" householdInlined
        []).outcome = .ok inlined ∧
      inlined.descriptor = s.descriptor ∧
      (s.documentation.withoutTitles fun _ => true).toValue.SameData
        inlined.documentation.toValue := by
  have hregistered : (start .builtIn).registrations addressOnly =
      [⟨_, addressDeclarations, []⟩] := rfl
  have hnames : (start .builtIn).registeredNames
      (addressOnly ++ [.compile "Household" household []]) = ["Address", "Household"] := rfl
  have honce : ((start .builtIn).registeredNames
      (addressOnly ++ [.compile "Household" household []])).Nodup := by
    rw [hnames]
    decide
  have hplain : ∀ g ∈ (start .builtIn).registrations addressOnly, g.overrides = [] := by
    simp [hregistered]
  obtain ⟨s, hs⟩ : ∃ s, (((start .builtIn).run addressOnly).registry.compile "Household" household
      []).outcome = .ok s := ⟨_, rfl⟩
  obtain ⟨inlined, hinlined, hdescriptor, hdocumentation, _⟩ :=
    compile_writeOut (fun _ _ => true) honce hplain (fun _ _ => rfl) hs
  exact ⟨s, inlined, hs, hinlined, hdescriptor, hdocumentation⟩

end Session

end FieldSchema
