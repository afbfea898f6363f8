import FieldSchema.Proofs.Places
import FieldSchema.Publication.SchemaObject

/-!
# Published documentation

Every documentation tree can be published. What is published for a node has the node's keywords, its
type and its content; what it lists as required are the names of those properties whose own nodes
say so. The published form of a place is found along the same place in the published form of the
tree.
-/

namespace FieldSchema

namespace Publication

/-- What is published at a place of a published schema. -/
def schemaAt : Value → Place → Value
  | published, [] => published
  | published, .member name :: rest => schemaAt ((published.member "properties").member name) rest
  | published, .item _ :: rest => schemaAt (published.member "items") rest

/-- A published schema lists a name as required. -/
def Requires (published : Value) (name : String) : Prop :=
  ∃ names, published.member "required" = .list names ∧ .text name ∈ names

/-- A published schema lists a name as required, and the property of that name has no default. -/
def Demands (published : Value) (name : String) : Prop :=
  Requires published name ∧
    (((published.member "properties").member name).member "default").isAbsent = true

/-! ## Members of data -/

theorem keywords_cons (entry : String × Value) (rest : Record Value) :
    keywords (entry :: rest) =
      if entry.1 ∈ structuralNames then keywords rest else entry :: keywords rest := by
  by_cases h : entry.1 ∈ structuralNames <;> simp [keywords, h]

theorem get?_keywords (members : Record Value) {name : String} (hname : name ∉ structuralNames) :
    Record.get? (keywords members) name = Record.get? members name := by
  induction members with
  | nil => rfl
  | cons entry rest ih =>
      rw [keywords_cons, Record.get?_cons]
      split
      next hstructural =>
        have hne : name ≠ entry.1 := fun heq => hname (heq ▸ hstructural)
        rw [ih, if_neg hne]
      next => rw [Record.get?_cons, ih]

theorem get?_keywords_structural (members : Record Value) {name : String}
    (hname : name ∈ structuralNames) : Record.get? (keywords members) name = none := by
  rw [Record.get?_eq_none_iff]
  intro hmem
  obtain ⟨entry, hentry, rfl⟩ := List.mem_map.mp hmem
  have hkept := (List.mem_filter.mp hentry).2
  simp [hname] at hkept

/-- The items of an array are what stands under the name of items, if anything does. -/
theorem itemObject_eq (members : Record Value) :
    itemObject members =
      ((members.get? "items").filter Value.isTruthy).elim (.ok (.object false []))
        schemaObject := by
  induction members with
  | nil => rfl
  | cons entry rest ih =>
      obtain ⟨name, value⟩ := entry
      rw [itemObject, Record.get?_cons]
      by_cases hname : name = "items"
      · subst hname
        cases htruthy : value.isTruthy <;> simp [htruthy, Option.filter]
      · rw [if_neg hname, if_neg (Ne.symm hname), ih]

/-- The properties of an object are what stands under the name of properties, if anything does. -/
theorem propertyObjects_eq (members : Record Value) :
    propertyObjects members =
      ((members.get? "properties").filter Value.isTruthy).elim (.ok none)
        fun properties => do return some (← childObjects properties) := by
  induction members with
  | nil => rw [propertyObjects]; rfl
  | cons entry rest ih =>
      obtain ⟨name, value⟩ := entry
      rw [propertyObjects, Record.get?_cons]
      by_cases hname : name = "properties"
      · subst hname
        cases htruthy : value.isTruthy <;> simp [htruthy, Option.filter]
      · rw [if_neg hname, if_neg (Ne.symm hname), ih]

theorem itemObject_of_get? {members : Record Value} {value : Value}
    (h : Record.get? members "items" = some value) (htruthy : value.isTruthy = true) :
    itemObject members = schemaObject value := by
  simp [itemObject_eq, h, Option.filter, htruthy]

theorem propertyObjects_of_get? {members : Record Value} {value : Value}
    (h : Record.get? members "properties" = some value) (htruthy : value.isTruthy = true) :
    propertyObjects members = (do return some (← childObjects value)) := by
  simp [propertyObjects_eq, h, Option.filter, htruthy]

theorem propertyObjects_of_get?_eq_none {members : Record Value}
    (h : Record.get? members "properties" = none) : propertyObjects members = .ok none := by
  simp [propertyObjects_eq, h]

end Publication

open Publication

namespace Node

/-! ## The published form of a tree -/

/-- The keywords and the type of a published node. -/
def publicHead (n : Node) : Record Value :=
  keywords n.toValue.ownEntries ++ [("type", .text n.typeName)]

/-- The entry for the listed values of a choice. -/
def choices : Node → Record Value
  | .leaf type _ => type.entries
  | _ => []

mutual

/-- The published form of a tree. -/
def publicForm : Node → Value
  | .leaf type notes => .object false (publicHead (.leaf type notes) ++ type.entries)
  | .array items notes =>
      .object false (publicHead (.array items notes) ++ [("items", items.publicForm)])
  | .openObject notes => .object false (publicHead (.openObject notes))
  | .object properties notes =>
      .object false
        (publicHead (.object properties notes) ++
          [("properties", .ofEntries (publicForms properties))] ++
          requiredEntry (.object false (propertiesToValue properties)))

def publicForms : List (String × Node) → List (String × Value)
  | [] => []
  | (name, node) :: rest => (name, node.publicForm) :: publicForms rest

end

theorem toValue_eq_object (n : Node) : n.toValue = .object false n.toValue.ownEntries := by
  cases n <;> rfl

/-- Under the names of contents a node publishes its own content. -/
theorem published?_content (n : Node) {name : String} (hname : name ∈ ["items", "properties"]) :
    n.published? name = Record.get? n.content name := by
  simp only [List.mem_cons, List.not_mem_nil, or_false] at hname
  rw [published?, ownEntries_toValue]
  rcases hname with rfl | rfl <;>
    simp [entriesAround, Keywords.entries, Record.get?_append, Record.get?_cons,
      Record.get?_ofOption, get?_unplaced]

theorem published?_items (n : Node) : n.published? "items" = n.items?.map toValue := by
  rw [published?_content n (by simp)]
  cases n with
  | leaf type notes => cases type <;> rfl
  | array items notes => rfl
  | openObject notes => rfl
  | object properties notes => rfl

theorem published?_properties (n : Node) :
    n.published? "properties" =
      n.properties?.map fun properties => .object false (propertiesToValue properties) := by
  rw [published?_content n (by simp)]
  cases n with
  | leaf type notes => cases type <;> rfl
  | array items notes => rfl
  | openObject notes => rfl
  | object properties notes => rfl

theorem isTruthy_toValue (n : Node) : n.toValue.isTruthy = true := by
  cases n <;> rfl

theorem schemaObject_array {items : Node} {notes : Annotations} {published : Value}
    (h : schemaObject items.toValue = .ok published) :
    schemaObject (toValue (.array items notes)) =
      .ok (.object false (publicHead (.array items notes) ++ [("items", published)])) := by
  have htype := published?_type (.array items notes)
  have hitems : published? (.array items notes) "items" = some items.toValue := by
    rw [published?_items]
    rfl
  unfold published? at htype hitems
  rw [toValue_eq_object, schemaObject, htype, itemObject_of_get? hitems items.isTruthy_toValue, h]
  simp [publicHead, typeName, Value.isText]

theorem choiceEntry_published? (n : Node) :
    choiceEntry ((n.published? "enum").getD .absent) = .ok n.choices := by
  rw [published?_enum]
  cases n with
  | leaf type notes => cases type <;> rfl
  | array items notes => rfl
  | openObject notes => rfl
  | object properties notes => rfl

theorem schemaObject_of_not_array {n : Node} (htype : n.typeName ≠ "array")
    {children : Option (List (String × Value))}
    (h : propertyObjects n.toValue.ownEntries = .ok children) :
    schemaObject n.toValue =
      .ok (.object false
        (n.publicHead ++ n.choices ++
          propertyEntries ((n.published? "properties").getD .absent) children)) := by
  have hpublished := n.published?_type
  have hchoice := n.choiceEntry_published?
  unfold published? at hpublished hchoice
  rw [toValue_eq_object, schemaObject, hpublished, hchoice, h]
  simp [publicHead, published?, Value.isText, htype]
  rfl

mutual

/-- Every tree can be published, and this gives its published form. -/
theorem schemaObject_toValue (n : Node) : schemaObject n.toValue = .ok n.publicForm := by
  cases n with
  | array items notes =>
      rw [schemaObject_array (schemaObject_toValue items), publicForm]
  | object properties notes =>
      have hproperties : published? (.object properties notes) "properties" =
          some (.object false (propertiesToValue properties)) := published?_properties _
      have hchildren := propertyObjects_of_get? hproperties rfl
      rw [childObjects, memberObjects_propertiesToValue properties] at hchildren
      rw [schemaObject_of_not_array (by simp [typeName]) hchildren, hproperties, publicForm]
      simp [choices, propertyEntries]
  | leaf type notes =>
      have hproperties : published? (.leaf type notes) "properties" = none :=
        published?_properties _
      have htype : typeName (.leaf type notes) ≠ "array" := by
        cases type <;> simp [typeName, LeafType.name]
      rw [schemaObject_of_not_array htype (propertyObjects_of_get?_eq_none hproperties), publicForm]
      simp [choices, propertyEntries]
  | openObject notes =>
      have hproperties : published? (.openObject notes) "properties" = none :=
        published?_properties _
      have hchildren := propertyObjects_of_get?_eq_none hproperties
      rw [schemaObject_of_not_array (by simp [typeName]) hchildren, publicForm]
      simp [choices, propertyEntries]
termination_by sizeOf n

theorem memberObjects_propertiesToValue (properties : List (String × Node)) :
    memberObjects (propertiesToValue properties) = .ok (publicForms properties) := by
  match properties with
  | [] => rw [propertiesToValue, memberObjects, publicForms]
  | (name, node) :: rest =>
      rw [propertiesToValue, memberObjects, publicForms, schemaObject_toValue node,
        memberObjects_propertiesToValue rest]
      rfl
termination_by sizeOf properties

end

/-! ## What the published form says -/

theorem propertiesToValue_eq_mapValues (properties : Record Node) :
    propertiesToValue properties = properties.mapValues toValue := by
  induction properties with
  | nil => rfl
  | cons entry rest ih =>
      rw [propertiesToValue, ih]
      rfl

theorem publicForms_eq_mapValues (properties : Record Node) :
    publicForms properties = properties.mapValues publicForm := by
  induction properties with
  | nil => rfl
  | cons entry rest ih =>
      rw [publicForms, ih]
      rfl

theorem member_toValue (n : Node) (name : String) :
    n.toValue.member name = (n.published? name).getD .absent := by
  cases n <;> rfl

/-- What a published node has after its keywords and its type. -/
def publicContent : Node → Record Value
  | .leaf type _ => type.entries
  | .array items _ => [("items", items.publicForm)]
  | .openObject _ => []
  | .object properties _ =>
      ("properties", .ofEntries (publicForms properties)) ::
        requiredEntry (.object false (propertiesToValue properties))

theorem publicForm_eq_append (n : Node) :
    n.publicForm = .object false (n.publicHead ++ n.publicContent) := by
  cases n <;> simp [publicForm, publicContent]

theorem get?_requiredEntry (properties : Value) {name : String} (hname : name ≠ "required") :
    Record.get? (requiredEntry properties) name = none := by
  unfold requiredEntry
  split
  next => rfl
  next => simp [Record.get?_cons, hname]

theorem mem_structuralNames_of_publicContent {n : Node} {entry : String × Value}
    (h : entry ∈ n.publicContent) : entry.1 ∈ structuralNames := by
  cases n with
  | leaf type notes =>
      obtain ⟨values, -, rfl⟩ := Record.mem_ofOption.mp h
      simp [structuralNames]
  | array items notes =>
      obtain rfl := List.mem_singleton.mp h
      simp [structuralNames]
  | openObject notes => simp [publicContent] at h
  | object properties notes =>
      rcases List.mem_cons.mp h with rfl | hrequired
      · simp [structuralNames]
      · unfold requiredEntry at hrequired
        split at hrequired
        next => simp at hrequired
        next =>
          obtain rfl := List.mem_singleton.mp hrequired
          simp [structuralNames]

/-- What is published for a node under a name. -/
def publicMember? (n : Node) (name : String) : Option Value :=
  Record.get? n.publicForm.ownEntries name

theorem publicMember?_eq (n : Node) (name : String) :
    n.publicMember? name =
      (Record.get? n.publicHead name).or (Record.get? n.publicContent name) := by
  rw [publicMember?, publicForm_eq_append, Value.ownEntries, Record.get?_append]

theorem member_publicForm_eq (n : Node) (name : String) :
    n.publicForm.member name = (n.publicMember? name).getD .absent := by
  rw [publicMember?, publicForm_eq_append]
  rfl

/-- Every node publishes its keywords, and nothing else under their names. -/
theorem publicMember?_keyword (n : Node) {name : String} (hname : name ∉ structuralNames) :
    n.publicMember? name = n.published? name := by
  have hnone : Record.get? n.publicContent name = none := by
    rw [Record.get?_eq_none_iff]
    intro hmem
    obtain ⟨entry, hentry, rfl⟩ := List.mem_map.mp hmem
    exact hname (mem_structuralNames_of_publicContent hentry)
  have htype : name ≠ "type" := by
    rintro rfl
    simp [structuralNames] at hname
  rw [publicMember?_eq, hnone, publicHead, Record.get?_append, get?_keywords _ hname]
  simp [Record.get?_cons, htype, published?]

theorem member_publicForm (n : Node) {name : String} (hname : name ∉ structuralNames) :
    n.publicForm.member name = (n.published? name).getD .absent := by
  rw [member_publicForm_eq, n.publicMember?_keyword hname]

theorem publicMember?_type (n : Node) : n.publicMember? "type" = some (.text n.typeName) := by
  rw [publicMember?_eq, publicHead, Record.get?_append,
    get?_keywords_structural _ (by simp [structuralNames])]
  simp [Record.get?_cons]

/-- Under the other names of its own a published node has its content. -/
theorem publicMember?_content (n : Node) {name : String} (hname : name ∈ structuralNames)
    (htype : name ≠ "type") : n.publicMember? name = Record.get? n.publicContent name := by
  rw [publicMember?_eq, publicHead, Record.get?_append, get?_keywords_structural _ hname]
  simp [Record.get?_cons, htype]

theorem publicMember?_enum (n : Node) : n.publicMember? "enum" = n.published? "enum" := by
  rw [publicMember?_content n (by simp [structuralNames]) (by simp), published?_enum]
  cases n with
  | leaf type notes => cases type <;> rfl
  | array items notes => rfl
  | openObject notes => rfl
  | object properties notes =>
      rw [publicContent, Record.get?_cons, if_neg (by simp), get?_requiredEntry _ (by simp)]
      rfl

theorem publicMember?_items (n : Node) : n.publicMember? "items" = n.items?.map publicForm := by
  rw [publicMember?_content n (by simp [structuralNames]) (by simp)]
  cases n with
  | leaf type notes => cases type <;> rfl
  | array items notes => rfl
  | openObject notes => rfl
  | object properties notes =>
      rw [publicContent, Record.get?_cons, if_neg (by simp), get?_requiredEntry _ (by simp)]
      rfl

theorem publicMember?_properties (n : Node) :
    n.publicMember? "properties" =
      n.properties?.map fun properties => .ofEntries (publicForms properties) := by
  rw [publicMember?_content n (by simp [structuralNames]) (by simp)]
  cases n with
  | leaf type notes => cases type <;> rfl
  | array items notes => rfl
  | openObject notes => rfl
  | object properties notes => rfl

theorem publicMember?_required (n : Node) :
    n.publicMember? "required" = n.properties?.bind fun properties =>
      Record.get? (requiredEntry (.object false (propertiesToValue properties))) "required" := by
  rw [publicMember?_content n (by simp [structuralNames]) (by simp)]
  cases n with
  | leaf type notes => cases type <;> rfl
  | array items notes => rfl
  | openObject notes => rfl
  | object properties notes => rfl

theorem member_publicForm_items {n items : Node} (h : n.items? = some items) :
    n.publicForm.member "items" = items.publicForm := by
  rw [member_publicForm_eq, publicMember?_items, h]
  rfl

/-- A property of an object is published under its name. -/
theorem member_publicForm_property {n property : Node} {properties : Record Node} {name : String}
    (hproperties : n.properties? = some properties) (hnodup : properties.names.Nodup)
    (h : properties.get? name = some property) :
    (n.publicForm.member "properties").member name = property.publicForm := by
  have hforms : (Record.names (publicForms properties)).Nodup := by
    rwa [publicForms_eq_mapValues, Record.names_mapValues]
  rw [member_publicForm_eq, publicMember?_properties, hproperties, Option.map_some,
    Option.getD_some, Value.ofEntries, Value.member, Record.get?_ofList hforms,
    publicForms_eq_mapValues, Record.get?_mapValues, h]
  rfl

theorem mem_requiredNames_iff {properties : Record Node} (hnodup : properties.names.Nodup)
    (name : String) :
    name ∈ requiredNames (.object false (propertiesToValue properties)) ↔
      ∃ property, properties.get? name = some property ∧ property.required = true := by
  have hrequired : ∀ node : Node, (node.toValue.member "required").isTruthy = node.required := by
    intro node
    rw [member_toValue, published?_required]
    rfl
  rw [propertiesToValue_eq_mapValues]
  simp only [requiredNames, Value.ownEntries, Record.mapValues, List.filter_map, List.map_map,
    List.mem_map, List.mem_filter, Function.comp_apply, hrequired]
  constructor
  · rintro ⟨⟨other, property⟩, ⟨hmem, hproperty⟩, rfl⟩
    exact ⟨property, Record.get?_of_mem hnodup hmem, hproperty⟩
  · rintro ⟨property, hget, hproperty⟩
    exact ⟨(name, property), ⟨Record.mem_of_get? hget, hproperty⟩, rfl⟩

/-- The required names are those of the properties whose nodes say so. -/
theorem requires_publicForm_iff {n : Node} {properties : Record Node}
    (hproperties : n.properties? = some properties) (hnodup : properties.names.Nodup)
    (name : String) :
    Requires n.publicForm name ↔
      ∃ property, properties.get? name = some property ∧ property.required = true := by
  rw [← mem_requiredNames_iff hnodup, Requires, member_publicForm_eq, publicMember?_required,
    hproperties, Option.bind_some, requiredEntry]
  -- the list is left out when it would be empty
  split
  next hnone => simp [hnone]
  next => simp [Record.get?_cons]

end Node

/-- Documentation that agrees with a descriptor has an object node at each place that the descriptor
describes. The properties of that node agree with the rules there, and its published form stands at
the same place of the published form of the whole. -/
theorem Descriptor.Describes.documented {d rules : Descriptor} {v object : Value} {place : Place}
    (h : d.Describes v place rules object) {n : Node} {properties : Record Node}
    (hproperties : n.properties? = some properties) (hblock : Node.BlockAgrees properties d) :
    ∃ found inner, n.at? place = some found ∧ schemaAt n.publicForm place = found.publicForm ∧
      found.properties? = some inner ∧ Node.BlockAgrees inner rules := by
  induction h generalizing n properties with
  | root => exact ⟨n, properties, rfl, rfl, hproperties, hblock⟩
  | field hrule _ _ ih =>
      obtain ⟨property, hproperty, hagrees⟩ := hblock.2.2.of_mem hrule
      obtain ⟨_, _, inner, hinner, hinnerBlock⟩ := hagrees
      obtain ⟨found, last, hfound, hpublished, hlast⟩ := ih hinner hinnerBlock
      have hname : properties.get? _ = some property := hproperty
      simp only [Rule.name, Rule.head] at hname
      refine ⟨found, last, ?_, ?_, hlast⟩
      · simp [Node.at?, hproperties, hname, hfound]
      · rw [schemaAt, Node.member_publicForm_property hproperties hblock.1 hname, hpublished]
  | element hrule _ _ _ ih =>
      obtain ⟨property, hproperty, hagrees⟩ := hblock.2.2.of_mem hrule
      obtain ⟨_, _, items, hitems, _, inner, hinner, hinnerBlock⟩ := hagrees
      obtain ⟨found, last, hfound, hpublished, hlast⟩ := ih hinner hinnerBlock
      have hname : properties.get? _ = some property := hproperty
      simp only [Rule.name, Rule.head] at hname
      refine ⟨found, last, ?_, ?_, hlast⟩
      · simp [Node.at?, hproperties, hname, hitems, hfound]
      · rw [schemaAt, schemaAt, Node.member_publicForm_property hproperties hblock.1 hname,
          Node.member_publicForm_items hitems, hpublished]

end FieldSchema
