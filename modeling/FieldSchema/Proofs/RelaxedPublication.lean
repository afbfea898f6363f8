import FieldSchema.Proofs.Recovery
import FieldSchema.Proofs.RelaxedChecks

/-!
# Published schemas with a relaxed field

What is published for a tree with a relaxed field differs from what is published for the tree in one
list: the object around the field no longer lists the name of the field as required. So a field that
is made optional relaxes its schema in all three respects: it compiles as before, it accepts more,
and it publishes less.
-/

namespace FieldSchema

open Outcome Publication

/-- The place where the published form of a tree has what the tree has at a place. -/
def Place.published (place : Place) : Place :=
  place.flatMap fun selector =>
    match selector with
    | .member name => [.member "properties", .member name]
    | .item _ => [.member "items"]

namespace Publication

/-- The members of a published schema that does not list a name as required. A list that would be
empty is left out. -/
def withoutRequirement (name : String) (members : Record Value) : Record Value :=
  match Record.get? members "required" with
  | some (.list names) =>
      match names.filter fun listed => !listed.isText name with
      | [] => members.erase "required"
      | rest => members.overwrite "required" (.list rest)
  | _ => members

/-- A schema is published as another one is, but for one object: that to which members of these
names lead. The object lists a name as required there, and does not list it here. -/
def DropsRequirement (published relaxed : Value) (outer : List String) (name : String) : Prop :=
  ∃ place : Place, place.names = outer ∧ Requires (schemaAt published place) name ∧
    relaxed = published.modifyAt (withoutRequirement name) place.published

end Publication

/-! ## Records in parts -/

namespace Record

variable {α β : Type}

theorem overwrite_append (r s : Record α) (name : String) (value : α) :
    overwrite (r ++ s) name value = r.overwrite name value ++ s.overwrite name value :=
  List.map_append

theorem overwrite_cons (entry : String × α) (r : Record α) (name : String) (value : α) :
    overwrite (entry :: r) name value =
      (if entry.1 = name then (name, value) else entry) :: r.overwrite name value :=
  rfl

theorem overwrite_of_get?_eq_none {r : Record α} {name : String} (h : r.get? name = none)
    (value : α) : r.overwrite name value = r := by
  rw [get?_eq_none_iff] at h
  refine (List.map_congr_left fun entry hentry => if_neg ?_).trans (List.map_id' r)
  rintro rfl
  exact h (List.mem_map_of_mem hentry)

theorem mapValues_overwrite (f : α → β) (r : Record α) (name : String) (value : α) :
    (r.overwrite name value).mapValues f = (r.mapValues f).overwrite name (f value) := by
  rw [mapValues, overwrite, mapValues, overwrite, List.map_map, List.map_map]
  refine List.map_congr_left fun entry _ => ?_
  by_cases hname : entry.1 = name <;> simp [hname]

end Record

namespace Node

/-! ## Parts of a published node -/

theorem keywords_append (r s : Record Value) : keywords (r ++ s) = keywords r ++ keywords s :=
  List.filter_append ..

theorem keywords_content (n : Node) : keywords n.content = [] := by
  cases n with
  | leaf type notes => cases type <;> rfl
  | _ => rfl

/-- The keywords of a node come from what it says beside its content and its requiredness. -/
theorem keywords_toValue (n : Node) :
    keywords n.toValue.ownEntries =
      keywords (n.notes.stated.entries n.notes.imposed) ++
        keywords (unplaced "format" .text n.notes.imposed.format n.notes.stated.format) ++
        keywords (unplaced "example" id n.notes.imposed.sample n.notes.stated.sample) ++
        keywords (unplaced "title" .text n.notes.imposed.title n.notes.stated.title) := by
  have htype : keywords [("type", .text n.typeName)] = [] := rfl
  have hrequired : keywords [("required", .bool n.notes.required)] = [] := rfl
  rw [ownEntries_toValue, entriesAround]
  simp only [keywords_append, keywords_content, htype, hrequired, List.append_nil]

theorem publicHead_congr {n m : Node} (hstated : n.notes.stated = m.notes.stated)
    (himposed : n.notes.imposed = m.notes.imposed) (htype : n.typeName = m.typeName) :
    n.publicHead = m.publicHead := by
  rw [publicHead, publicHead, keywords_toValue, keywords_toValue, hstated, himposed, htype]

theorem get?_publicHead {n : Node} {name : String} (hname : name ∈ structuralNames)
    (htype : name ≠ "type") : Record.get? n.publicHead name = none := by
  rw [publicHead, Record.get?_append, get?_keywords_structural _ hname]
  simp [Record.get?_cons, htype]

/-- A published node is changed inside its content. -/
theorem modifyAt_publicForm {n : Node} {name : String} (hname : name ∈ structuralNames)
    (htype : name ≠ "type") {value : Value} (h : Record.get? n.publicContent name = some value)
    (change : Record Value → Record Value) (place : Place) :
    n.publicForm.modifyAt change (.member name :: place) =
      .object false
        (n.publicHead ++ Record.overwrite n.publicContent name (value.modifyAt change place)) := by
  have hhead := get?_publicHead (n := n) hname htype
  have hget : Record.get? (n.publicHead ++ n.publicContent) name = some value := by
    rw [Record.get?_append, hhead, Option.none_or, h]
  rw [publicForm_eq_append, Value.modifyAt, hget]
  dsimp only
  rw [Record.overwrite_append, Record.overwrite_of_get?_eq_none hhead]

theorem requiredNames_cons (name : String) (n : Node) (rest : Record Node) :
    requiredNames (.object false (propertiesToValue ((name, n) :: rest))) =
      if n.required = true then
        name :: requiredNames (.object false (propertiesToValue rest))
      else requiredNames (.object false (propertiesToValue rest)) := by
  have hrequired : (n.toValue.member "required").isTruthy = n.required := by
    rw [member_toValue, published?_required]
    rfl
  rw [propertiesToValue, requiredNames, Value.ownEntries, List.filter_cons, hrequired]
  split <;> rfl

/-! ## The object around the field -/

theorem required_relaxed (n : Node) : n.relaxed.required = false := by
  cases n <;> rfl

/-- A node does not publish on itself that it is required. -/
theorem publicForm_relaxed (n : Node) : n.relaxed.publicForm = n.publicForm := by
  have hhead : n.relaxed.publicHead = n.publicHead := by
    cases n <;> exact publicHead_congr rfl rfl rfl
  rw [publicForm_eq_append, publicForm_eq_append, hhead]
  cases n with
  | array items notes => rw [relaxed, publicContent, publicContent, publicForm_relaxed items]
  | _ => rfl
termination_by sizeOf n

/-- Properties that are changed without a change of requiredness are required as before. -/
theorem requiredNames_modify {f : Node → Node} (hf : ∀ n, (f n).required = n.required)
    (properties : Record Node) (name : String) :
    requiredNames (.object false (propertiesToValue (properties.modify name f))) =
      requiredNames (.object false (propertiesToValue properties)) := by
  induction properties with
  | nil => rfl
  | cons entry rest ih =>
      obtain ⟨other, n⟩ := entry
      rw [Record.modify_cons, requiredNames_cons, requiredNames_cons, ih]
      by_cases hname : other = name
      · simp [hname, hf]
      · simp [hname]

/-- A relaxed property is the one that is no longer required. -/
theorem requiredNames_modify_relaxed (properties : Record Node) (name : String) :
    requiredNames (.object false (propertiesToValue (properties.modify name relaxed))) =
      (requiredNames (.object false (propertiesToValue properties))).filter (· != name) := by
  induction properties with
  | nil => rfl
  | cons entry rest ih =>
      obtain ⟨other, n⟩ := entry
      rw [Record.modify_cons, requiredNames_cons, requiredNames_cons, ih]
      by_cases hname : other = name
      · cases n.required <;> simp [hname, required_relaxed]
      · cases hrequired : n.required <;> simp [hname, hrequired]

theorem publicForms_modify_relaxed (properties : Record Node) (name : String) :
    publicForms (properties.modify name relaxed) = publicForms properties := by
  rw [publicForms_eq_mapValues, publicForms_eq_mapValues, Record.mapValues, Record.mapValues,
    Record.modify, List.map_map]
  refine List.map_congr_left fun entry _ => ?_
  by_cases hname : entry.1 = name <;> simp [hname, publicForm_relaxed]

end Node

namespace Publication

theorem withoutRequirement_append {r : Record Value} (h : r.get? "required" = none)
    (s : Record Value) (name : String) :
    withoutRequirement name (r ++ s) = r ++ withoutRequirement name s := by
  unfold withoutRequirement
  rw [Record.get?_append, h, Option.none_or, Record.erase_append, Record.erase_of_get?_eq_none h]
  split
  next =>
    split
    next => rfl
    next => rw [Record.overwrite_append, Record.overwrite_of_get?_eq_none h]
  next => rfl

theorem withoutRequirement_cons {entry : String × Value} (h : entry.1 ≠ "required")
    (rest : Record Value) (name : String) :
    withoutRequirement name (entry :: rest) = entry :: withoutRequirement name rest := by
  have hnone : Record.get? [entry] "required" = none := by
    rw [Record.get?_cons, if_neg h.symm, Record.get?_nil]
  exact withoutRequirement_append hnone rest name

theorem withoutRequirement_requiredEntry {properties others : Value} {name : String}
    (h : requiredNames others = (requiredNames properties).filter (· != name)) :
    withoutRequirement name (requiredEntry properties) = requiredEntry others := by
  have hfilter (names : List String) :
      (names.map Value.text).filter (fun listed => !listed.isText name) =
        (names.filter (· != name)).map Value.text := by
    rw [List.filter_map]
    rfl
  cases hnames : requiredNames properties with
  | nil => simp [requiredEntry, h, hnames, withoutRequirement]
  | cons first rest =>
      rw [requiredEntry, requiredEntry, h, hnames]
      dsimp only
      rw [withoutRequirement, Record.get?_cons, if_pos rfl]
      dsimp only
      rw [hfilter]
      cases (first :: rest).filter (· != name) with
      | nil => rfl
      | cons other others => rfl

end Publication

namespace Node

/-- An object with a relaxed property is published without the requirement. -/
theorem publicForm_modify_relaxed (properties : Record Node) (notes : Annotations) (name : String) :
    publicForm (.object (properties.modify name relaxed) notes) =
      (publicForm (.object properties notes)).modifyAt (withoutRequirement name) [] := by
  have hhead : publicHead (.object (properties.modify name relaxed) notes) =
      publicHead (.object properties notes) := publicHead_congr rfl rfl rfl
  have hnone : Record.get? (publicHead (.object properties notes)) "required" = none :=
    get?_publicHead (by simp [structuralNames]) (by simp)
  rw [publicForm_eq_append, publicForm_eq_append, hhead]
  simp only [Value.modifyAt, publicContent]
  rw [withoutRequirement_append hnone, withoutRequirement_cons (by simp),
    withoutRequirement_requiredEntry (requiredNames_modify_relaxed properties name),
    publicForms_modify_relaxed]

/-! ## The nodes around the object -/

/-- Relaxing inside leaves what a node itself says. -/
theorem required_relaxedAt {way : List String} (hway : way ≠ []) (n : Node) :
    (n.relaxedAt way).required = n.required := by
  cases way with
  | nil => exact absurd rfl hway
  | cons name way =>
      cases n with
      | array items notes => cases items <;> rfl
      | _ => rfl

/-- Relaxing inside an array of objects relaxes inside its elements. -/
theorem relaxedAt_array {way : List String} (hway : way ≠ []) (properties : Record Node)
    (inner notes : Annotations) :
    relaxedAt way (.array (.object properties inner) notes) =
      .array (relaxedAt way (.object properties inner)) notes := by
  cases way with
  | nil => exact absurd rfl hway
  | cons name way => rfl

/-- The published properties of an object are changed where one property is. -/
theorem ofEntries_modify {properties : Record Node} (hdistinct : properties.names.Nodup)
    (hordered : properties.names.Pairwise Record.EnumeratedBefore) {name : String} {property : Node}
    (hproperty : properties.get? name = some property) {f : Node → Node}
    {change : Record Value → Record Value} {place : Place}
    (h : (f property).publicForm = property.publicForm.modifyAt change place) :
    Value.ofEntries (publicForms (properties.modify name f)) =
      (Value.ofEntries (publicForms properties)).modifyAt change (.member name :: place) := by
  have hform : Record.get? (publicForms properties) name = some property.publicForm := by
    rw [publicForms_eq_mapValues, Record.get?_mapValues, hproperty]
    rfl
  have hforms : publicForms (properties.modify name f) =
      Record.overwrite (publicForms properties) name
        (property.publicForm.modifyAt change place) := by
    rw [publicForms_eq_mapValues, publicForms_eq_mapValues,
      Record.modify_eq_overwrite hdistinct hproperty, Record.mapValues_overwrite, h]
  have hnames := Record.names_modify properties name f
  rw [ofEntries_publicForms hdistinct hordered,
    ofEntries_publicForms (hnames ▸ hdistinct) (hnames ▸ hordered), hforms]
  simp only [Value.modifyAt, hform]

/-- An object with a changed property is published as the object is, changed inside the property. -/
theorem publicForm_modify {properties : Record Node} {notes : Annotations}
    (hregular : (Node.object properties notes).IsRegular) {name : String} {property : Node}
    (hproperty : properties.get? name = some property) {f : Node → Node}
    (hf : ∀ n, (f n).required = n.required) {change : Record Value → Record Value} {place : Place}
    (h : (f property).publicForm = property.publicForm.modifyAt change place) :
    publicForm (.object (properties.modify name f) notes) =
      (publicForm (.object properties notes)).modifyAt change
        (.member "properties" :: .member name :: place) := by
  have hhead : publicHead (.object (properties.modify name f) notes) =
      publicHead (.object properties notes) := publicHead_congr rfl rfl rfl
  have hentry : requiredEntry (.object false (propertiesToValue (properties.modify name f))) =
      requiredEntry (.object false (propertiesToValue properties)) := by
    rw [requiredEntry, requiredEntry, requiredNames_modify hf]
  have hget : Record.get? (publicContent (.object properties notes)) "properties" =
      some (.ofEntries (publicForms properties)) := by
    rw [publicContent, Record.get?_cons, if_pos rfl]
  have hnone : Record.get? (requiredEntry (.object false (propertiesToValue properties)))
      "properties" = none := get?_requiredEntry _ (by simp)
  rw [modifyAt_publicForm (by simp [structuralNames]) (by simp) hget, publicForm_eq_append, hhead,
    publicContent, publicContent, hentry, Record.overwrite_cons, if_pos rfl,
    Record.overwrite_of_get?_eq_none hnone]
  cases hregular with
  | object hdistinct hordered => rw [ofEntries_modify hdistinct hordered hproperty h]

/-- An array of changed elements is published as the array is, changed inside its elements. -/
theorem publicForm_array {items others : Node} {change : Record Value → Record Value}
    {place : Place} (h : others.publicForm = items.publicForm.modifyAt change place)
    (notes : Annotations) :
    publicForm (.array others notes) =
      (publicForm (.array items notes)).modifyAt change (.member "items" :: place) := by
  have hhead : publicHead (.array others notes) = publicHead (.array items notes) :=
    publicHead_congr rfl rfl rfl
  have hget : Record.get? (publicContent (.array items notes)) "items" =
      some items.publicForm := by
    rw [publicContent, Record.get?_cons, if_pos rfl]
  rw [modifyAt_publicForm (by simp [structuralNames]) (by simp) hget, publicForm_eq_append, hhead,
    publicContent, publicContent, h, Record.overwrite_cons, if_pos rfl]
  rfl

/-! ## Trees with a relaxed field -/

variable {name : String}

/-- Where the field belongs to the object itself, the object's own list changes. -/
theorem dropsRequirement_here {properties : Record Node} {notes : Annotations}
    (hregular : (Node.object properties notes).IsRegular) {property : Node}
    (hproperty : properties.get? name = some property) (hrequired : property.required = true) :
    DropsRequirement (publicForm (.object properties notes))
      (publicForm (.object (properties.modify name relaxed) notes)) [] name := by
  refine ⟨[], rfl, ?_, publicForm_modify_relaxed properties notes name⟩
  cases hregular with
  | object hdistinct =>
      exact (requires_publicForm_iff rfl hdistinct name).mpr ⟨property, hproperty, hrequired⟩

theorem dropsRequirement_property {properties : Record Node} {notes : Annotations}
    (hregular : (Node.object properties notes).IsRegular) {outer : List String} {next : String}
    {property : Node} (hproperty : properties.get? next = some property) {f : Node → Node}
    (hf : ∀ n, (f n).required = n.required)
    (h : DropsRequirement property.publicForm (f property).publicForm outer name) :
    DropsRequirement (publicForm (.object properties notes))
      (publicForm (.object (properties.modify next f) notes)) (next :: outer) name := by
  obtain ⟨place, hnames, hrequires, hchanged⟩ := h
  refine ⟨.member next :: place, congrArg (next :: ·) hnames, ?_,
    publicForm_modify hregular hproperty hf hchanged⟩
  cases hregular with
  | object hdistinct =>
      rw [schemaAt, member_publicForm_property rfl hdistinct hproperty]
      exact hrequires

theorem dropsRequirement_array {items others : Node} {outer : List String}
    (h : DropsRequirement items.publicForm others.publicForm outer name) (notes : Annotations) :
    DropsRequirement (publicForm (.array items notes)) (publicForm (.array others notes)) outer
      name := by
  obtain ⟨place, hnames, hrequires, hchanged⟩ := h
  refine ⟨.item 0 :: place, hnames, ?_, publicForm_array hchanged notes⟩
  rw [schemaAt, member_publicForm_items rfl]
  exact hrequires

/-- What holds of objects holds of arrays of objects too. -/
theorem dropsRequirement_of_object {way outer : List String} (hway : way ≠ []) {found : Node}
    (hobject : ∀ (properties : Record Node) (notes : Annotations),
      (Node.object properties notes).IsRegular →
        (Node.object properties notes).field? way = some found →
          DropsRequirement (publicForm (.object properties notes))
            (relaxedAt way (.object properties notes)).publicForm outer name)
    {n : Node} (hn : n.IsRegular) (hfield : n.field? way = some found) :
    DropsRequirement n.publicForm (n.relaxedAt way).publicForm outer name := by
  obtain ⟨next, rest, rfl⟩ := List.exists_cons_of_ne_nil hway
  cases hn with
  | object hdistinct hordered heach =>
      exact hobject _ _ (.object hdistinct hordered heach) hfield
  | @array items notes _ hitems =>
      cases hitems with
      | object hdistinct hordered heach =>
          rw [relaxedAt_array hway]
          exact dropsRequirement_array (hobject _ _ (.object hdistinct hordered heach) hfield) notes
      | _ => cases hfield
  | _ => cases hfield

theorem exists_property_of_field? {properties : Record Node} {notes : Annotations} {next : String}
    {way : List String} {found : Node}
    (h : (Node.object properties notes).field? (next :: way) = some found) :
    ∃ property, properties.get? next = some property ∧ property.field? way = some found :=
  Option.bind_eq_some_iff.mp h

/-- A tree with a required field relaxed is published as the tree is, but for the list of required
names of the object around the field. -/
theorem dropsRequirement_relaxedAt {outer : List String} {n property : Node} (hn : n.IsRegular)
    (hfield : n.field? (outer ++ [name]) = some property) (hrequired : property.required = true) :
    DropsRequirement n.publicForm (n.relaxedAt (outer ++ [name])).publicForm outer name := by
  -- on the names around the field, each of which leads to an object or to an array of objects
  induction outer generalizing n with
  | nil =>
      refine dropsRequirement_of_object (by simp) (fun properties notes hregular hfound => ?_) hn
        hfield
      obtain ⟨_, hproperty, hfound⟩ := exists_property_of_field? hfound
      obtain rfl := Option.some.inj hfound
      exact dropsRequirement_here hregular hproperty hrequired
  | cons next outer ih =>
      refine dropsRequirement_of_object (by simp) (fun properties notes hregular hfound => ?_) hn
        hfield
      obtain ⟨next, hproperty, hfound⟩ := exists_property_of_field? hfound
      have hnext : next.IsRegular := by
        cases hregular with
        | object _ _ heach => exact heach _ (Record.mem_of_get? hproperty)
      exact dropsRequirement_property hregular hproperty (required_relaxedAt (by simp))
        (ih hnext hfound)

end Node

/-! ## Compiled schemas -/

namespace Compilation

variable {ctx : FieldContext} {field : CompiledField}

theorem required_compileScalar {type : ScalarType} (h : compileScalar ctx type = .ok field) :
    field.node.required = ctx.required := by
  cases compileScalar_madeAs h with
  | choice h =>
      obtain ⟨values, _, h⟩ := bind_eq_ok.mp h
      obtain ⟨given, _, h⟩ := bind_eq_ok.mp h
      obtain ⟨default, _, h⟩ := bind_eq_ok.mp h
      obtain rfl := pure_eq_ok.mp h
      rfl
  | plain _ _ _ h =>
      obtain ⟨stated, _, h⟩ := bind_eq_ok.mp h
      obtain rfl := pure_eq_ok.mp h
      rfl
  | temporal _ h =>
      obtain ⟨stated, _, h⟩ := bind_eq_ok.mp h
      obtain ⟨sample, _, h⟩ := bind_eq_ok.mp h
      obtain rfl := pure_eq_ok.mp h
      rfl
  | openObject hfield => rw [hfield]; rfl

theorem required_compileArray {element : ElementType} (h : compileArray ctx element = .ok field) :
    field.node.required = ctx.required := by
  obtain ⟨stated, _, h⟩ := bind_eq_ok.mp h
  cases element <;> (obtain rfl := pure_eq_ok.mp h; rfl)

/-- The node of a required field says so. -/
theorem required_compileOne {around : Surroundings} {parent : String} {d : Declaration}
    (hkind : d.kind? = some .required) (h : compileOne around parent d = .ok field) :
    field.node.required = true := by
  have hcontext {head : FieldHead} {ctx : FieldContext} (hhead : head.kind = .required)
      (hctx : fieldContext around parent head = .ok ctx) : ctx.required = true := by
    obtain ⟨options, _, hctx⟩ := bind_eq_ok.mp hctx
    obtain rfl := pure_eq_ok.mp hctx
    exact decide_eq_true hhead
  cases d with
  | field head =>
      obtain ⟨ctx, hctx, h⟩ := bind_eq_ok.mp h
      rw [← hcontext (Option.some.inj hkind) hctx]
      split at h
      next => exact required_compileScalar h
      next => exact required_compileArray h
  | block head inner =>
      obtain ⟨ctx, stated, fields, hctx, _, _, rfl⟩ := compileBlock_eq_ok.mp h
      rw [← hcontext (Option.some.inj hkind) hctx]
      cases head.type <;> rfl
  | embed kind name reference => cases hkind

end Compilation

namespace Schema

/-- Making a required field optional only relaxes. The relaxed declarations compile, with the same
notices; what the schema accepted stays accepted with the same value taken over; JSON data that is
accepted now, and that gives the field wherever its rule applies, was accepted; and what is
published differs in the list of required names of the object around the field only. -/
theorem compile_relaxes {name : String} {raw : Value} {around : Surroundings} {s : Schema}
    {notices : List Notice}
    (hlookup : ∀ reference target, around.lookup reference = some target → target.IsCompiled)
    (h : compile name raw around = .ok (s, notices)) {declared : List Declaration}
    (hread : Declaration.readAll raw = .ok declared) {way : List String} {d : Declaration}
    (hd : Declaration.StandsAt declared way d) (hkind : d.kind? = some .required)
    (havoids : ∀ other ∈ way.dropLast, Value.isInheritedName other = false) :
    ∃ t, compile name (raw.withRelaxed way) around = .ok (t, notices) ∧
      (∀ x value, s.descriptor.judge x = .ok (.accepted value) →
        t.descriptor.judge x = .ok (.accepted value)) ∧
      (∀ x value, x.IsJson → s.descriptor.Gives way.dropLast d.name x →
        t.descriptor.judge x = .ok (.accepted value) →
          s.descriptor.judge x = .ok (.accepted value)) ∧
      ∃ published relaxed, schemaObject s.documentation.toValue = .ok published ∧
        schemaObject t.documentation.toValue = .ok relaxed ∧
        DropsRequirement published relaxed way.dropLast d.name := by
  have hway := hd.dropLast_append
  refine ⟨s.withRelaxed way, compile_withRelaxed h hread hd hkind, ?_, ?_, _, _,
    Node.schemaObject_toValue _, Node.schemaObject_toValue _, ?_⟩
  · intro x value haccepted
    have hkept := @Descriptor.judge_withRelaxed _ d.name havoids _ _ _ haccepted
    rwa [hway] at hkept
  · intro x value hjson hgives haccepted
    refine Descriptor.judge_of_withRelaxed havoids hjson hgives ?_
    rwa [hway]
  · have hregular := (IsCompiled.intro hlookup h).isRegular.documentation
    obtain ⟨_, fields, hdeclared, hfields, rfl, _⟩ := compile_eq_ok.mp h
    obtain rfl := Except.ok.inj (hread.symm.trans hdeclared)
    obtain ⟨field, hfield, hnode, -⟩ := Compilation.compileAll_standsAt hd
      (Declaration.readAll_isWellFormed hread) hfields
    have hfound := hnode (ofFields name fields).documentation rfl
    have hchanged := Node.dropsRequirement_relaxedAt hregular (hway.symm ▸ hfound)
      (Compilation.required_compileOne hkind hfield)
    rw [hway] at hchanged
    exact hchanged

/-- A shipment with lists of items, each with a code and a label. -/
def shipment : Value :=
  .list [.list [.text "required", .text "items", .list [.text "array", .text "map"],
    .object false [("fields", .list [
      .list [.text "required", .text "code", .text "string"],
      .list [.text "required", .text "label", .text "string"]])]]]

def shippedItemRules : Descriptor :=
  [.plain ⟨"code", .string, true, {}⟩, .plain ⟨"label", .string, true, {}⟩]

def shipmentRules : Descriptor := [.itemFields ⟨"items", .array, true, {}⟩ shippedItemRules]

/-- A shipment of one item, with its label. -/
def labelled : Value :=
  .object false [("items", .list [.object false [("code", .text "AB"), ("label", .text "x")]])]

theorem gives_labelled : shipmentRules.Gives ["items"] "label" labelled := by
  intro place rules object hdescribes hnames rule hrule hname
  cases hdescribes with
  | root => cases hnames
  | field hfields => simp [shipmentRules] at hfields
  | @element _ _ inner head _ _ items position place value _ hfields hvalue hitem hinner =>
      obtain ⟨rfl, rfl⟩ : head = ⟨"items", .array, true, {}⟩ ∧ inner = shippedItemRules := by
        simpa [shipmentRules] using hfields
      obtain rfl := Value.list.inj (Option.some.inj hvalue)
      obtain ⟨rfl, rfl⟩ : position = 0 ∧
          value = .object false [("code", .text "AB"), ("label", .text "x")] := by
        cases position with
        | zero => exact ⟨rfl, (Option.some.inj hitem).symm⟩
        | succ position => cases hitem
      have hrest : place.names = [] := (List.cons.inj hnames).2
      cases hinner with
      | root => exact .inr rfl
      | field => cases hrest
      | element => cases hrest

/-- The label of the items of a shipment may be made optional. -/
theorem compile_relaxes_label :
    ∃ s t declared head, compile "Shipment" shipment alone = .ok (s, []) ∧
      Declaration.readAll shipment = .ok declared ∧
      Declaration.StandsAt declared ["items", "label"] (.field head) ∧ head.kind = .required ∧
      head.name = "label" ∧ labelled.IsJson ∧ s.descriptor.Gives ["items"] "label" labelled ∧
      s.descriptor.judge labelled = .ok (.accepted labelled) ∧
      compile "Shipment" (shipment.withRelaxed ["items", "label"]) alone = .ok (t, []) ∧
      t.descriptor.judge labelled = .ok (.accepted labelled) ∧
      ∃ published relaxed, schemaObject s.documentation.toValue = .ok published ∧
        schemaObject t.documentation.toValue = .ok relaxed ∧
        DropsRequirement published relaxed ["items"] "label" := by
  obtain ⟨s, hs, hdescriptor⟩ : ∃ s, compile "Shipment" shipment alone = .ok (s, []) ∧
      s.descriptor = shipmentRules := ⟨_, rfl, by cbv⟩
  let label : FieldHead := ⟨.required, "label", .scalar .string, []⟩
  let items : List Declaration := [.field ⟨.required, "code", .scalar .string, []⟩, .field label]
  have hread : Declaration.readAll shipment =
      .ok [.block ⟨.required, "items", .array .object, []⟩ items] := rfl
  have hitem : Declaration.StandsAt items ["label"] (.field label) :=
    .here (List.mem_cons_of_mem _ List.mem_cons_self)
  have hlabel : Declaration.StandsAt [.block ⟨.required, "items", .array .object, []⟩ items]
      ["items", "label"] (.field label) := .inside List.mem_cons_self hitem
  have hjson : labelled.IsJson := by
    refine .object (List.forall_mem_singleton.mpr (.list (List.forall_mem_singleton.mpr ?_)))
    exact .object (List.forall_mem_cons.mpr ⟨.text _, List.forall_mem_singleton.mpr (.text _)⟩)
  have haccepted : s.descriptor.judge labelled = .ok (.accepted labelled) := by
    have hvalidator : shipmentRules.validator = .ok (.object [("items", ⟨true, false, none⟩,
        .list (.object [("code", ⟨true, false, none⟩, .text {}),
          ("label", ⟨true, false, none⟩, .text {})]))]) := by cbv
    rw [hdescriptor, Descriptor.judge_eq hvalidator]
    rfl
  obtain ⟨t, ht, hkeeps, hreturns, hpublished⟩ := compile_relaxes (by simp [alone]) hs hread hlabel
    rfl (by decide)
  have hgives : s.descriptor.Gives ["items"] "label" labelled := hdescriptor ▸ gives_labelled
  exact ⟨s, t, _, label, hs, hread, hlabel, rfl, rfl, hjson, hgives,
    hreturns _ _ hjson hgives (hkeeps _ _ haccepted), ht, hkeeps _ _ haccepted, hpublished⟩

end Schema

end FieldSchema
