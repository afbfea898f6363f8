import FieldSchema.Proofs.PathParameters
import FieldSchema.Proofs.Routes

/-!
# Names of published schemas

A schema is published under its name in two places: among the schemas of a document, and among the
callbacks of an operation. Either place is filled by assigning one entry after another, and has one
entry for every name in the end. Of the name that assignment loses nothing is said.
-/

namespace FieldSchema

open Outcome Publication

namespace Outcome

variable {α β : Type}

theorem mapM_eq_map {f : α → Outcome β} {g : α → β} {items : List α}
    (h : ∀ item ∈ items, f item = .ok (g item)) : items.mapM f = .ok (items.map g) := by
  induction items with
  | nil => rfl
  | cons item rest ih =>
      obtain ⟨hitem, hrest⟩ := List.forall_mem_cons.mp h
      rw [List.mapM_cons, hitem, ih hrest]
      rfl

theorem exists_foldlM_eq_ok {f : β → α → Outcome β} {items : List α}
    (h : ∀ acc, ∀ item ∈ items, ∃ next, f acc item = .ok next) (acc : β) :
    ∃ result, items.foldlM f acc = .ok result := by
  induction items generalizing acc with
  | nil => exact ⟨acc, rfl⟩
  | cons item rest ih =>
      obtain ⟨next, hnext⟩ := h acc item List.mem_cons_self
      obtain ⟨result, hresult⟩ :=
        ih (fun acc other hother => h acc other (List.mem_cons_of_mem _ hother)) next
      refine ⟨result, ?_⟩
      rw [List.foldlM_cons, hnext]
      exact hresult

end Outcome

/-! ## Entries for held schemas -/

/-- Entries for the schemas that a registry holds under some names: one for every name, with what is
shown of its schema. -/
structure Registry.Lists (r : Registry) (shown : Schema → Outcome Value) (names : List String)
    (entries : Record Value) : Prop where
  distinct : entries.names.Nodup
  names_iff : ∀ name, name ∈ entries.names ↔ name ∈ names
  each : ∀ name ∈ names, ∃ s v, r.get? name = some s ∧ shown s = .ok v ∧
    entries.get? name = some v

namespace Registry.Lists

variable {r : Registry} {shown : Schema → Outcome Value} {names : List String}
  {entries : Record Value}

/-- Entries that are assigned one after another, with the same for a name whenever it comes up. -/
theorem ofAssignments (hnames : Record.reservedName ∉ entries.names)
    (h : ∀ entry ∈ entries, ∃ s, r.get? entry.1 = some s ∧ shown s = .ok entry.2) :
    r.Lists shown entries.names (Record.ofAssignments entries) := by
  rw [Record.ofAssignments_of_not_mem hnames]
  refine ⟨Record.nodup_names_ofList entries, Record.mem_names_ofList entries, ?_⟩
  intro name hname
  have hpresent := (Record.has_iff_mem_names _ _).mpr ((Record.mem_names_ofList _ _).mpr hname)
  obtain ⟨v, hv⟩ := Option.isSome_iff_exists.mp hpresent
  obtain ⟨s, hs, hshown⟩ := h _ (Record.mem_of_mem_ofList (Record.mem_of_get? hv))
  exact ⟨s, v, hs, hshown, hv⟩

theorem exists_of_mem (h : r.Lists shown names entries) {entry : String × Value}
    (hentry : entry ∈ entries) : ∃ s, r.get? entry.1 = some s ∧ shown s = .ok entry.2 := by
  have hname : entry.1 ∈ names := (h.names_iff _).mp (List.mem_map_of_mem hentry)
  obtain ⟨s, v, hs, hshown, hv⟩ := h.each _ hname
  obtain rfl := Option.some.inj (hv.symm.trans (Record.get?_of_mem h.distinct hentry))
  exact ⟨s, hs, hshown⟩

/-- Entries that are made of items one by one, each under the name of its item, and assigned. -/
theorem exists_mapM {α : Type} {items : List α} {nameOf : α → String}
    {make : α → Outcome (String × Value)} (hnames : Record.reservedName ∉ items.map nameOf)
    (h : ∀ item ∈ items, ∃ s v, r.get? (nameOf item) = some s ∧ shown s = .ok v ∧
      make item = .ok (nameOf item, v)) :
    ∃ made, items.mapM make = .ok made ∧
      r.Lists shown (items.map nameOf) (Record.ofAssignments made) := by
  have hmade : ∃ made, items.mapM make = .ok made ∧ Record.names made = items.map nameOf := by
    clear hnames
    induction items with
    | nil => exact ⟨[], rfl, rfl⟩
    | cons item rest ih =>
        obtain ⟨⟨s, v, -, -, hitem⟩, hrest⟩ := List.forall_mem_cons.mp h
        obtain ⟨made, hmade, hmadeNames⟩ := ih hrest
        refine ⟨(nameOf item, v) :: made, ?_, congrArg (nameOf item :: ·) hmadeNames⟩
        rw [List.mapM_cons, hitem, hmade]
        rfl
  obtain ⟨made, hmade, hmadeNames⟩ := hmade
  rw [← hmadeNames] at hnames ⊢
  refine ⟨made, hmade, ofAssignments hnames fun entry hentry => ?_⟩
  obtain ⟨item, hitem, hmakes⟩ := exists_of_mem_mapM hmade entry hentry
  obtain ⟨s, v, hs, hshown, hmakes'⟩ := h item hitem
  obtain rfl := Except.ok.inj (hmakes'.symm.trans hmakes)
  exact ⟨s, hs, hshown⟩

theorem congr (h : r.Lists shown names entries) {others : List String}
    (hothers : ∀ name, name ∈ names ↔ name ∈ others) : r.Lists shown others entries where
  distinct := h.distinct
  names_iff name := (h.names_iff name).trans (hothers name)
  each name hname := h.each name ((hothers name).mpr hname)

end Registry.Lists

/-- Names that a registry holds lead to the schemas under them, which have these names. -/
theorem Registry.exists_lookups {r : Registry} (hr : r.IsSettled) {names : List String}
    (hheld : ∀ name ∈ names, r.has name = true) :
    ∃ schemas, names.mapM r.lookup = .ok schemas ∧ schemas.map Schema.name = names ∧
      ∀ s ∈ schemas, r.get? s.name = some s := by
  induction names with
  | nil => exact ⟨[], rfl, rfl, by simp⟩
  | cons name rest ih =>
      obtain ⟨hname, hrest⟩ := List.forall_mem_cons.mp hheld
      obtain ⟨s, hs⟩ := Option.isSome_iff_exists.mp hname
      obtain ⟨schemas, hschemas, rfl, hall⟩ := ih hrest
      have hlookup : r.lookup name = .ok s := by rw [lookup, hs]
      obtain ⟨-, rfl⟩ := hr.provenance name s hs
      refine ⟨s :: schemas, ?_, rfl, List.forall_mem_cons.mpr ⟨hs, hall⟩⟩
      rw [List.mapM_cons, hlookup, hschemas]
      rfl

/-! ## Schemas of a document -/

/-- A schema as a document publishes it. -/
def Schema.named (s : Schema) : NamedNode :=
  ⟨s.name, s.documentation.toValue⟩

/-- The schema object of a schema. -/
def Schema.published (s : Schema) : Outcome Value :=
  schemaObject s.documentation.toValue

/-- A callback whose request is the schema object of a schema. -/
def Schema.asCallback (s : Schema) : Outcome Value := do
  return callbackObject (← s.published)

namespace Publication

/-- The schemas that a document publishes, by name. -/
def publishedSchemas (document : Value) : Record Value :=
  ((document.member "components").member "schemas").ownEntries

/-- The callbacks of an operation, by name. -/
def callbacksOf (operation : Value) : Record Value :=
  (operation.member "callbacks").ownEntries

theorem exists_pathTable_of_isPublishable {es : List Endpoint} (h : ∀ e ∈ es, e.IsPublishable) :
    ∃ paths, pathTable es = .ok paths := by
  refine exists_foldlM_eq_ok (fun paths e he => ?_) []
  obtain ⟨operation, hoperation⟩ := exists_operationObject (h e he)
  rw [addOperation, hoperation]
  exact ⟨_, rfl⟩

/-- The schemas of a document are those of its components. -/
theorem publishedSchemas_document {h : Heading} {schemas : List NamedNode} {es : List Endpoint}
    {doc : Value} (hdoc : document h schemas es = .ok doc) :
    ∃ components, componentsEntry schemas = .ok components ∧
      publishedSchemas doc = publishedSchemas (object components) := by
  obtain ⟨paths, -, hdoc⟩ := bind_eq_ok.mp hdoc
  obtain ⟨components, hcomponents, hdoc⟩ := bind_eq_ok.mp hdoc
  obtain rfl := pure_eq_ok.mp hdoc
  refine ⟨components, hcomponents, ?_⟩
  unfold publishedSchemas object Value.member
  simp [Record.get?_append, Record.get?_cons, get?_listEntry]

theorem exists_componentsEntry_named {r : Registry} {schemas : List Schema}
    (hreserved : Record.reservedName ∉ schemas.map Schema.name)
    (hheld : ∀ s ∈ schemas, r.get? s.name = some s) :
    ∃ components, componentsEntry (schemas.map Schema.named) = .ok components ∧
      r.Lists Schema.published (schemas.map Schema.name)
        (publishedSchemas (object components)) := by
  have hnames : (schemas.map Schema.named).map NamedNode.name = schemas.map Schema.name := by
    rw [List.map_map]
    rfl
  have hmake : ∀ schema ∈ schemas.map Schema.named, ∃ s v, r.get? schema.name = some s ∧
      s.published = .ok v ∧
      (do return (schema.name, ← schemaObject schema.node) : Outcome (String × Value)) =
        .ok (schema.name, v) := by
    intro schema hschema
    obtain ⟨s, hs, rfl⟩ := List.mem_map.mp hschema
    refine ⟨s, s.documentation.publicForm, hheld s hs, s.documentation.schemaObject_toValue, ?_⟩
    rw [Schema.named, s.documentation.schemaObject_toValue]
    rfl
  obtain ⟨made, hmade, hlists⟩ := Registry.Lists.exists_mapM (hnames.symm ▸ hreserved) hmake
  rw [hnames] at hlists
  rw [componentsEntry, hmade]
  cases schemas with
  | nil =>
      obtain rfl := pure_eq_ok.mp hmade
      exact ⟨[], rfl, hlists⟩
  | cons s rest => exact ⟨_, rfl, hlists⟩

/-- A document of held schemas can be made around endpoints that can be published, and has a schema
for every name. -/
theorem document_lists {r : Registry} {schemas : List Schema}
    (hreserved : Record.reservedName ∉ schemas.map Schema.name)
    (hheld : ∀ s ∈ schemas, r.get? s.name = some s) (h : Heading) (es : List Endpoint) :
    ((∀ e ∈ es, e.IsPublishable) →
      ∃ doc, document h (schemas.map Schema.named) es = .ok doc) ∧
    ∀ doc, document h (schemas.map Schema.named) es = .ok doc →
      r.Lists Schema.published (schemas.map Schema.name) (publishedSchemas doc) := by
  obtain ⟨components, hcomponents, hlists⟩ := exists_componentsEntry_named hreserved hheld
  constructor
  · intro hes
    obtain ⟨paths, hpaths⟩ := exists_pathTable_of_isPublishable hes
    obtain ⟨doc, hdoc, -⟩ := document_eq_ok (h := h) hpaths hcomponents
    exact ⟨doc, hdoc⟩
  · intro doc hdoc
    obtain ⟨others, hothers, hview⟩ := publishedSchemas_document hdoc
    obtain rfl := Except.ok.inj (hcomponents.symm.trans hothers)
    rw [hview]
    exact hlists

/-! ## Callbacks of an operation -/

/-- Documentation nodes of held schemas are published as callbacks under the same names. -/
theorem exists_callbackEntry_lists {r : Registry} {names : List String} {nodes : Record Value}
    (hreserved : Record.reservedName ∉ names)
    (hnodes : r.Lists (fun s => .ok s.documentation.toValue) names nodes) :
    ∃ callbacks, callbackEntry nodes = .ok callbacks ∧
      r.Lists Schema.asCallback names (callbacksOf (object callbacks)) := by
  have hmake : ∀ entry ∈ nodes, ∃ s v, r.get? entry.1 = some s ∧ s.asCallback = .ok v ∧
      (do return (entry.1, callbackObject (← schemaObject entry.2)) : Outcome (String × Value)) =
        .ok (entry.1, v) := by
    intro entry hentry
    obtain ⟨s, hs, hnode⟩ := hnodes.exists_of_mem hentry
    obtain hnode := Except.ok.inj hnode
    refine ⟨s, callbackObject s.documentation.publicForm, hs, ?_, ?_⟩
    · rw [Schema.asCallback, Schema.published, s.documentation.schemaObject_toValue]
      rfl
    · rw [← hnode, s.documentation.schemaObject_toValue]
      rfl
  have hfresh : Record.reservedName ∉ nodes.names := mt (hnodes.names_iff _).mp hreserved
  obtain ⟨made, hmade, hmadeLists⟩ := Registry.Lists.exists_mapM hfresh hmake
  have hlists := hmadeLists.congr hnodes.names_iff
  rw [callbackEntry, hmade]
  cases nodes with
  | nil =>
      obtain rfl := pure_eq_ok.mp hmade
      exact ⟨[], rfl, hlists⟩
  | cons entry rest => exact ⟨_, rfl, hlists⟩

theorem callbacksOf_operation {e : Endpoint} {operation : Value}
    (h : operationObject e = .ok operation) :
    ∃ callbacks, callbackEntry e.callbacks = .ok callbacks ∧
      callbacksOf operation = callbacksOf (object callbacks) := by
  obtain ⟨callbacks, hcallbacks, hmember⟩ := (member_operation h).2
  exact ⟨callbacks, hcallbacks, congrArg Value.ownEntries hmember⟩

/-- The operation of an endpoint that holds documentation nodes for some names has a callback for
every name. -/
theorem operation_lists {r : Registry} {names : List String}
    (hreserved : Record.reservedName ∉ names) {e : Endpoint}
    (hnodes : r.Lists (fun s => .ok s.documentation.toValue) names e.callbacks) {operation : Value}
    (h : operationObject e = .ok operation) :
    r.Lists Schema.asCallback names (callbacksOf operation) := by
  obtain ⟨callbacks, hcallbacks, hview⟩ := callbacksOf_operation h
  obtain ⟨made, hmade, hlists⟩ := exists_callbackEntry_lists hreserved hnodes
  obtain rfl := Except.ok.inj (hmade.symm.trans hcallbacks)
  rw [hview]
  exact hlists

end Publication

namespace Controller

variable {c : Controller} {r : Registry}

/-- The node of a held schema has the name of the schema for its title, and so has the callback. -/
theorem callback_named (hr : r.IsSettled) {name : String} {s : Schema}
    (hs : r.get? name = some s) :
    (do
      let node ← r.documentationOf (.named name)
      return (← callbackName? r (.named name) node).map (·, node)) =
        (.ok (some (name, s.documentation.toValue)) : Outcome (Option (String × Value))) := by
  obtain ⟨hcompiled, rfl⟩ := hr.provenance name s hs
  have hlookup : r.lookup s.name = .ok s := by rw [Registry.lookup, hs]
  have htitle : s.documentation.toValue.requireMember "title" = .ok (.text s.name) := by
    have hmember := s.documentation.member_toValue "title"
    rw [hcompiled.isRootOf.title] at hmember
    rw [Node.toValue_eq_object] at hmember ⊢
    exact congrArg Except.ok hmember
  have hnode : r.documentationOf (.named s.name) = .ok s.documentation.toValue := by
    rw [Registry.documentationOf, hlookup]
    rfl
  have hnameOf : r.nameOf (.named s.name) = .ok (.text s.name) := by
    rw [Registry.nameOf, hlookup]
    rfl
  have hname : callbackName? r (.named s.name) s.documentation.toValue = .ok (some s.name) := by
    unfold callbackName?
    rw [htitle, hnameOf]
    rfl
  exact bind_eq_ok.mpr ⟨_, hnode, bind_eq_ok.mpr ⟨_, hname, rfl⟩⟩

/-- An action that has held schemas for callbacks holds the documentation node of each, by name. -/
theorem exists_callbackNodes (hr : r.IsSettled) {names : List String}
    (hheld : ∀ name ∈ names, r.has name = true) (hreserved : Record.reservedName ∉ names)
    {settings : ActionSettings}
    (hsettings : settings.callbacks.or c.settings.callbacks = some (names.map .named)) :
    ∃ nodes, c.callbackNodes r settings = .ok nodes ∧
      r.Lists (fun s => .ok s.documentation.toValue) names nodes := by
  obtain ⟨schemas, -, rfl, hall⟩ := Registry.exists_lookups hr hheld
  let nodes := schemas.map fun s => (s.name, s.documentation.toValue)
  have hmapM : ((schemas.map Schema.name).map Reference.named).mapM (fun reference => do
      let node ← r.documentationOf reference
      return (← callbackName? r reference node).map (·, node)) = .ok (nodes.map some) := by
    rw [List.map_map, List.mapM_map, List.map_map]
    exact mapM_eq_map fun s hs => callback_named hr (hall s hs)
  have hnames : Record.names nodes = schemas.map Schema.name := List.map_map
  refine ⟨Record.ofAssignments nodes, ?_, ?_⟩
  · rw [callbackNodes, hsettings]
    have hfilter : (nodes.map some).filterMap id = nodes := by simp
    exact bind_eq_ok.mpr ⟨_, hmapM, pure_eq_ok.mpr (congrArg Record.ofAssignments hfilter)⟩
  · rw [← hnames] at hreserved ⊢
    refine Registry.Lists.ofAssignments hreserved fun entry hentry => ?_
    obtain ⟨s, hs, rfl⟩ := List.mem_map.mp hentry
    exact ⟨s, hall s hs, rfl⟩

/-- The endpoint of an action holds the callbacks that the action has, or none. -/
theorem callbacks_of_bind {binding : Binding} {e : Endpoint}
    (h : (c.bind r binding).outcome = .ok e) :
    if binding.hasCallbacks = true then c.callbackNodes r binding.settings = .ok e.callbacks
    else e.callbacks = [] := by
  obtain ⟨schemas, request, hschemas, rfl⟩ := endpoint_of_bind h
  exact (actionSchemas_eq_ok hschemas).2

end Controller

namespace Session

/-- Schemas that a registry holds after any run are published under their names. A document of them
has one schema for every name among its components. The operation of an action that is bound with
their names for its callbacks has one callback for every name. Index and show never have any. -/
theorem run_publishes_names (defaults : TypeDefaults) (calls : List Call) {names : List String}
    (hheld : ∀ name ∈ names, ((start defaults).run calls).registry.has name = true)
    (hreserved : Record.reservedName ∉ names) :
    (∃ schemas, names.mapM ((start defaults).run calls).registry.lookup = .ok schemas ∧
      ∀ (h : Heading) (es : List Endpoint),
        ((∀ e ∈ es, e.IsPublishable) →
          ∃ doc, document h (schemas.map Schema.named) es = .ok doc) ∧
        ∀ doc, document h (schemas.map Schema.named) es = .ok doc →
          ((start defaults).run calls).registry.Lists Schema.published names
            (publishedSchemas doc)) ∧
    ∀ (c : Controller) (binding : Binding) (e : Endpoint),
      (c.bind ((start defaults).run calls).registry binding).outcome = .ok e →
      (c.settings.IsTyped → binding.settings.IsTyped →
        ∃ operation, operationObject e = .ok operation) ∧
      ∀ operation, operationObject e = .ok operation →
        (binding.hasCallbacks = true →
          binding.settings.callbacks.or c.settings.callbacks = some (names.map .named) →
          ((start defaults).run calls).registry.Lists Schema.asCallback names
            (callbacksOf operation)) ∧
        (binding.hasCallbacks = false → callbacksOf operation = []) := by
  have hsettled := run_isSettled defaults calls
  constructor
  · obtain ⟨schemas, hschemas, hnames, hall⟩ := Registry.exists_lookups hsettled hheld
    subst hnames
    exact ⟨schemas, hschemas, document_lists hreserved hall⟩
  · intro c binding e hbind
    have hcallbacks := Controller.callbacks_of_bind hbind
    refine ⟨fun hc hbinding => ?_, fun operation hoperation => ⟨fun hhas hsettings => ?_, ?_⟩⟩
    · exact exists_operationObject (Controller.bind_isPublishable hc hbinding hbind)
    · rw [if_pos hhas] at hcallbacks
      obtain ⟨nodes, hnodes, hlists⟩ :=
        Controller.exists_callbackNodes hsettled hheld hreserved hsettings
      obtain rfl := Except.ok.inj (hnodes.symm.trans hcallbacks)
      exact operation_lists hreserved hlists hoperation
    · intro hnone
      rw [if_neg (by simp [hnone])] at hcallbacks
      obtain ⟨callbacks, hentry, hview⟩ := callbacksOf_operation hoperation
      rw [hcallbacks] at hentry
      obtain rfl := pure_eq_ok.mp hentry
      rw [hview]
      rfl

/-- Two schemas that users are told of by callbacks. -/
def tidings : List Call :=
  [.compile "Ping" (.list [.list [.text "required", .text "event", .text "string"]]) [],
    .compile "Pong" (.list []) []]

/-- An action with callbacks, of which one is named twice. -/
def notify : Binding :=
  .customAction "notify" { callbacks := some [.named "Pong", .named "Ping", .named "Pong"] }

theorem tidings_published :
    ∃ schemas e doc operation,
      ["Pong", "Ping", "Pong"].mapM ((start .builtIn).run tidings).registry.lookup = .ok schemas ∧
      (users.bind ((start .builtIn).run tidings).registry notify).outcome = .ok e ∧
      document { title := .text "Users" } (schemas.map Schema.named) [e] = .ok doc ∧
      ((start .builtIn).run tidings).registry.Lists Schema.published ["Pong", "Ping", "Pong"]
        (publishedSchemas doc) ∧
      operationObject e = .ok operation ∧
      ((start .builtIn).run tidings).registry.Lists Schema.asCallback ["Pong", "Ping", "Pong"]
        (callbacksOf operation) := by
  have hheld : ∀ name ∈ ["Pong", "Ping", "Pong"],
      ((start .builtIn).run tidings).registry.has name = true := by decide
  have hsettings : users.settings.IsTyped := ⟨by simp [users], by simp [users]⟩
  have hnotify : notify.settings.IsTyped := by
    refine ⟨by simp [notify, Binding.settings], ?_, by simp [notify, Binding.settings]⟩
    simp [notify, Binding.settings, Reference.IsTyped]
  obtain ⟨⟨schemas, hschemas, hdocument⟩, hbindings⟩ :=
    run_publishes_names .builtIn tidings hheld (by decide)
  obtain ⟨e, he⟩ : ∃ e, (users.bind ((start .builtIn).run tidings).registry notify).outcome =
      .ok e := ⟨_, rfl⟩
  obtain ⟨hmade, hcallbacks⟩ := hbindings users notify e he
  obtain ⟨operation, hoperation⟩ := hmade hsettings hnotify
  obtain ⟨hexists, hlists⟩ := hdocument { title := .text "Users" } [e]
  have hpublishable : ∀ other ∈ [e], other.IsPublishable := by
    simpa using Controller.bind_isPublishable hsettings hnotify he
  obtain ⟨doc, hdoc⟩ := hexists hpublishable
  exact ⟨schemas, e, doc, operation, hschemas, he, hdoc, hlists doc hdoc, hoperation,
    (hcallbacks operation hoperation).1 rfl rfl⟩

/-- An index that is bound with the name of a held schema for its callbacks. -/
def indexWithCallback : Binding :=
  .index { callbacks := some [.named "Ping"] }

/-- The operation of the index has no callback for the name. -/
theorem indexWithCallback_not_listed :
    ((start .builtIn).run tidings).registry.has "Ping" = true ∧
      ∃ e operation,
        (users.bind ((start .builtIn).run tidings).registry indexWithCallback).outcome = .ok e ∧
        operationObject e = .ok operation ∧
        ¬((start .builtIn).run tidings).registry.Lists Schema.asCallback ["Ping"]
          (callbacksOf operation) := by
  refine ⟨by decide, _, _, rfl, rfl, fun hlists => ?_⟩
  have hname : "Ping" ∈ Record.names (callbacksOf _) := (hlists.names_iff "Ping").mpr (by simp)
  exact absurd hname (by decide)

end Session

end FieldSchema
