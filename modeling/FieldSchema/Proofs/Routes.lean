import FieldSchema.Proofs.Publishable

/-!
# Routes of published endpoints

A controller tells its endpoints apart by their actions, and a document holds operations by path and
method. Several actions may share a route: custom actions are posted to the collection unless they
say otherwise. The document has one operation for every route, and it is that of the last endpoint
on the route.
-/

namespace FieldSchema

open Outcome Publication

namespace Endpoint

/-- Where a document holds the operation of an endpoint: under its path and its method. -/
def route (e : Endpoint) : String × String :=
  (e.path, e.method)

/-- The last of some endpoints on a route. -/
def lastOn (es : List Endpoint) (route : String × String) : Option Endpoint :=
  (es.filter fun e => e.route == route).getLast?

theorem lastOn_append (es later : List Endpoint) (route : String × String) :
    lastOn (es ++ later) route = (lastOn later route).or (lastOn es route) := by
  rw [lastOn, List.filter_append, List.getLast?_append]
  rfl

theorem lastOn_singleton (e : Endpoint) (route : String × String) :
    lastOn [e] route = if e.route = route then some e else none := by
  by_cases h : e.route = route <;> simp [lastOn, h]

theorem lastOn_concat (es : List Endpoint) (last : Endpoint) (route : String × String) :
    lastOn (es ++ [last]) route = if last.route = route then some last else lastOn es route := by
  rw [lastOn_append, lastOn_singleton]
  split <;> rfl

theorem lastOn_eq_none_iff {es : List Endpoint} {route : String × String} :
    lastOn es route = none ↔ ∀ e ∈ es, e.route ≠ route := by
  rw [lastOn, List.getLast?_eq_none_iff, List.filter_eq_nil_iff]
  simp

theorem isSome_lastOn_iff {es : List Endpoint} {route : String × String} :
    (lastOn es route).isSome = true ↔ ∃ e ∈ es, e.route = route := by
  rw [← not_iff_not, Bool.not_eq_true, Option.isSome_eq_false_iff, Option.isNone_iff_eq_none,
    lastOn_eq_none_iff]
  simp

theorem mem_of_lastOn {es : List Endpoint} {route : String × String} {e : Endpoint}
    (h : lastOn es route = some e) : e ∈ es ∧ e.route = route := by
  simpa using List.mem_filter.mp (List.mem_of_getLast? h)

end Endpoint

namespace Publication

/-- The operations of a document by path and method. -/
def operations (document : Value) : Record (Record Value) :=
  Record.mapValues Value.ownEntries (document.member "paths").ownEntries

/-- The operation that a document holds under a path and a method. -/
def operationAt? (document : Value) (route : String × String) : Option Value :=
  ((operations document).get? route.1).bind fun byMethod => byMethod.get? route.2

/-- The routes under which a document holds operations, one for every operation. -/
def routes (document : Value) : List (String × String) :=
  (operations document).flatMap fun entry => entry.2.names.map fun method => (entry.1, method)

theorem member_operationObject {e : Endpoint} {operation : Value}
    (h : operationObject e = .ok operation) :
    operation.member "operationId" = .text e.operationId := by
  obtain ⟨responses, _, h⟩ := bind_eq_ok.mp h
  obtain ⟨request, _, h⟩ := bind_eq_ok.mp h
  obtain ⟨callbacks, _, h⟩ := bind_eq_ok.mp h
  obtain rfl := pure_eq_ok.mp h
  rfl

/-! ## The operations of endpoints -/

namespace PathTable

def operationAt? (paths : PathTable) (route : String × String) : Option Value :=
  (Record.get? paths route.1).bind fun item => Record.get? item.toValue.ownEntries route.2

/-- A table files endpoints: under every route on which one of them is, it has the operation of the
last of these. -/
structure Files (paths : PathTable) (es : List Endpoint) : Prop where
  paths_nodup : (Record.names paths).Nodup
  items : ∀ entry ∈ paths, ∃ byMethod, entry.2 = .operations byMethod ∧ byMethod.names.Nodup
  last : ∀ route,
    (Endpoint.lastOn es route).map operationObject = (paths.operationAt? route).map .ok

theorem files_nil : Files [] [] where
  paths_nodup := List.nodup_nil
  items := by simp
  last _ := rfl

end PathTable

theorem PathItem.initial_of_not_inherited {path : String}
    (h : Value.isInheritedName path = false) : PathItem.initial path = .operations [] := by
  obtain ⟨_, hnone⟩ :
      path ≠ Record.reservedName ∧ Record.get? Ancestor.objectMembers path = none := by
    simpa [Value.isInheritedName, Record.has] using h
  have hmember : Ancestor.ofObjects.member? path = none := by
    simp [Ancestor.member?, Ancestor.ownMembers, hnone]
  rw [initial, hmember]

namespace PathTable

variable {paths : PathTable} {es : List Endpoint}

/-- Under the path of an endpoint that is yet to be filed stand operations, if anything does. -/
theorem Files.item (h : paths.Files es) {path : String}
    (hpath : Value.isInheritedName path = false) :
    ∃ byMethod, (Record.get? paths path).getD (.initial path) = .operations byMethod ∧
      byMethod.names.Nodup ∧
      ∀ method, byMethod.get? method = paths.operationAt? (path, method) := by
  unfold operationAt?
  cases hget : Record.get? paths path with
  | none =>
      refine ⟨[], PathItem.initial_of_not_inherited hpath, List.nodup_nil, fun method => ?_⟩
      rw [hget]
      rfl
  | some item =>
      obtain ⟨byMethod, hitem, hnodup⟩ := h.items _ (Record.mem_of_get? hget)
      obtain rfl : item = .operations byMethod := hitem
      refine ⟨byMethod, rfl, hnodup, fun method => ?_⟩
      rw [hget]
      rfl

/-- An operation that is set takes the place of the one on its route, and the others stay. -/
theorem operationAt?_set {path method : String} {byMethod : Record Value} {operation : Value}
    (hbyMethod : ∀ method, byMethod.get? method = paths.operationAt? (path, method))
    (route : String × String) :
    operationAt? (Record.set paths path (.operations (byMethod.set method operation))) route =
      if (path, method) = route then some operation else paths.operationAt? route := by
  obtain ⟨otherPath, otherMethod⟩ := route
  rw [operationAt?, Record.get?_set]
  by_cases hpath : otherPath = path
  · subst hpath
    rw [if_pos rfl, Option.bind_some, PathItem.toValue, object, Value.ownEntries, Record.get?_set,
      hbyMethod]
    by_cases hmethod : otherMethod = method
    · simp [hmethod]
    · simp [hmethod, Ne.symm hmethod]
  · simp [hpath, Ne.symm hpath, operationAt?]

/-- One more endpoint can be filed. -/
theorem Files.addOperation (h : paths.Files es) {e : Endpoint} (he : e.IsPublishable)
    (hpath : Value.isInheritedName e.path = false) :
    ∃ next, addOperation paths e = .ok next ∧ Files next (es ++ [e]) := by
  obtain ⟨operation, hoperation⟩ := exists_operationObject he
  obtain ⟨byMethod, hitem, hnodup, hbyMethod⟩ := h.item hpath
  have hpathName : e.path ≠ Record.reservedName := by
    intro heq
    simp [Value.isInheritedName, heq] at hpath
  have hmethodName : e.method ≠ Record.reservedName := by
    intro heq
    simpa [heq, Route.methods, Record.reservedName] using he.method
  refine ⟨Record.set paths e.path (.operations (byMethod.set e.method operation)), ?_, ?_⟩
  · rw [Publication.addOperation, hoperation]
    simp only [bind, Except.bind, hitem, PathItem.assign, Record.assign, hpathName, hmethodName,
      if_false]
    rfl
  refine ⟨Record.nodup_names_set h.paths_nodup _ _, ?_, ?_⟩
  · intro entry hentry
    rcases Record.mem_of_mem_set hentry with rfl | hkept
    · exact ⟨_, rfl, Record.nodup_names_set hnodup _ _⟩
    · exact h.items entry hkept
  · intro route
    rw [Endpoint.lastOn_concat, operationAt?_set hbyMethod, ← Endpoint.route]
    split
    next => rw [Option.map_some, Option.map_some, hoperation]
    next => exact h.last route

end PathTable

/-- There is a table that files endpoints, where these can be published and their paths are no names
that every object inherits. -/
theorem exists_pathTable {es : List Endpoint} (h : ∀ e ∈ es, e.IsPublishable)
    (hpaths : ∀ e ∈ es, Value.isInheritedName e.path = false) :
    ∃ paths, pathTable es = .ok paths ∧ paths.Files es := by
  induction es using List.reverseRecOn with
  | nil => exact ⟨[], rfl, PathTable.files_nil⟩
  | append_singleton es last ih =>
      rw [List.forall_mem_append] at h hpaths
      obtain ⟨paths, hpathTable, hfiles⟩ := ih h.1 hpaths.1
      obtain ⟨next, hnext, hall⟩ :=
        hfiles.addOperation (h.2 last List.mem_cons_self) (hpaths.2 last List.mem_cons_self)
      refine ⟨next, ?_, hall⟩
      rw [pathTable] at hpathTable ⊢
      rw [List.foldlM_append, hpathTable]
      exact bind_eq_ok.mpr ⟨paths, rfl, bind_eq_ok.mpr ⟨next, hnext, rfl⟩⟩

/-! ## The operations of a document -/

section Operations

variable {document : Value} (hpaths : (operations document).names.Nodup)
include hpaths

theorem mem_routes_iff {route : String × String} :
    route ∈ routes document ↔ (operationAt? document route).isSome = true := by
  obtain ⟨path, method⟩ := route
  simp only [routes, operationAt?, List.mem_flatMap, List.mem_map, Prod.mk.injEq]
  constructor
  · rintro ⟨⟨other, byMethod⟩, hentry, name, hname, rfl, rfl⟩
    rw [Record.get?_of_mem hpaths hentry, Option.bind_some]
    exact (Record.has_iff_mem_names byMethod name).mpr hname
  · intro h
    obtain ⟨operation, h⟩ := Option.isSome_iff_exists.mp h
    obtain ⟨byMethod, hbyMethod, hoperation⟩ := Option.bind_eq_some_iff.mp h
    refine ⟨(path, byMethod), Record.mem_of_get? hbyMethod, method, ?_, rfl, rfl⟩
    exact List.mem_map_of_mem (Record.mem_of_get? hoperation)

theorem nodup_routes (hmethods : ∀ entry ∈ operations document, entry.2.names.Nodup) :
    (routes document).Nodup := by
  refine List.nodup_flatMap.mpr ⟨fun entry hentry => ?_, ?_⟩
  · exact (hmethods entry hentry).map fun _ _ h => (Prod.mk.inj h).2
  · -- operations under different paths differ in their paths
    refine (List.pairwise_map.mp hpaths).imp fun hne => ?_
    rintro ⟨path, method⟩ hfirst hsecond
    obtain ⟨_, _, hfirst⟩ := List.mem_map.mp hfirst
    obtain ⟨_, _, hsecond⟩ := List.mem_map.mp hsecond
    exact hne ((Prod.mk.inj hfirst).1.trans (Prod.mk.inj hsecond).1.symm)

end Operations

/-- What a document shows of endpoints: one operation for every route that they have. -/
structure Shows (document : Value) (es : List Endpoint) : Prop where
  /-- Under a route stands the operation of the last endpoint on it, if there is one. -/
  last : ∀ route,
    (Endpoint.lastOn es route).map operationObject = (operationAt? document route).map .ok
  routes_perm : (routes document).Perm (es.map Endpoint.route).dedup

/-- A document shows what its table files. -/
theorem PathTable.Files.shows {paths : PathTable} {es : List Endpoint} (h : paths.Files es)
    {doc : Value}
    (hoperations : operations doc = paths.mapValues fun item => item.toValue.ownEntries) :
    Shows doc es := by
  have hlast : ∀ route, Publication.operationAt? doc route = paths.operationAt? route := by
    intro route
    rw [Publication.operationAt?, hoperations, Record.get?_mapValues, operationAt?, Option.bind_map]
    rfl
  have hnodup : (operations doc).names.Nodup := by
    rw [hoperations, Record.names_mapValues]
    exact h.paths_nodup
  have hmethods : ∀ entry ∈ operations doc, entry.2.names.Nodup := by
    rw [hoperations]
    intro entry hentry
    obtain ⟨filed, hfiled, rfl⟩ := List.mem_map.mp hentry
    obtain ⟨byMethod, hitem, hbyMethod⟩ := h.items filed hfiled
    simpa [hitem, PathItem.toValue, object, Value.ownEntries] using hbyMethod
  refine ⟨fun route => hlast route ▸ h.last route, ?_⟩
  refine (List.perm_ext_iff_of_nodup (nodup_routes hnodup hmethods) (List.nodup_dedup _)).mpr ?_
  intro route
  rw [mem_routes_iff hnodup, hlast, List.mem_dedup, List.mem_map, ← Endpoint.isSome_lastOn_iff]
  have hsome := congrArg Option.isSome (h.last route)
  rw [Option.isSome_map, Option.isSome_map] at hsome
  rw [hsome]

theorem document_eq_ok {h : Heading} {schemas : List NamedNode} {es : List Endpoint}
    {paths : PathTable} (hpaths : pathTable es = .ok paths) {components : Record Value}
    (hcomponents : componentsEntry schemas = .ok components) :
    ∃ doc, document h schemas es = .ok doc ∧
      operations doc = paths.mapValues fun item => item.toValue.ownEntries := by
  rw [document, hpaths, hcomponents]
  refine ⟨_, rfl, ?_⟩
  change Record.mapValues Value.ownEntries (Record.mapValues PathItem.toValue paths) = _
  rw [Record.mapValues, Record.mapValues, List.map_map]
  rfl

/-- A document shows endpoints, where these can be published and their paths are no names that every
object inherits. -/
theorem exists_document (h : Heading) {schemas : List NamedNode} {es : List Endpoint}
    (hschemas : ∀ schema ∈ schemas, schema.node.IsPublishable)
    (hes : ∀ e ∈ es, e.IsPublishable)
    (hpaths : ∀ e ∈ es, Value.isInheritedName e.path = false) :
    ∃ doc, document h schemas es = .ok doc ∧ Shows doc es := by
  obtain ⟨paths, hpathTable, hfiles⟩ := exists_pathTable hes hpaths
  obtain ⟨components, hcomponents⟩ := exists_componentsEntry hschemas
  obtain ⟨doc, hdoc, hoperations⟩ := document_eq_ok hpathTable hcomponents
  exact ⟨doc, hdoc, hfiles.shows hoperations⟩

/-- Of endpoints without two of one identity, those whose operations stand on their routes are those
that no later one on the same route follows. -/
theorem Shows.operationId_iff {doc : Value} {es before after : List Endpoint} {e : Endpoint}
    (h : Shows doc es) (hdistinct : (es.map Endpoint.operationId).Nodup)
    (hsplit : es = before ++ e :: after) :
    (operationAt? doc e.route).map (·.member "operationId") = some (.text e.operationId) ↔
      ∀ later ∈ after, later.route ≠ e.route := by
  have hlast := h.last e.route
  rw [hsplit, List.append_cons, Endpoint.lastOn_append, Endpoint.lastOn_concat, if_pos rfl] at hlast
  rw [← Endpoint.lastOn_eq_none_iff]
  cases hafter : Endpoint.lastOn after e.route with
  | none =>
      rw [hafter, Option.none_or] at hlast
      obtain ⟨operation, hat, hoperation⟩ := Option.map_eq_some_iff.mp hlast.symm
      simp [hat, member_operationObject hoperation.symm]
  | some later =>
      rw [hafter, Option.some_or] at hlast
      obtain ⟨operation, hat, hoperation⟩ := Option.map_eq_some_iff.mp hlast.symm
      -- the operation is that of another endpoint, and these differ in their identities
      have hfresh : e.operationId ∉ after.map Endpoint.operationId := by
        rw [hsplit, List.map_append, List.map_cons] at hdistinct
        exact (List.nodup_cons.mp hdistinct.of_append_right).1
      have hne : later.operationId ≠ e.operationId := by
        intro heq
        exact hfresh (heq ▸ List.mem_map_of_mem (Endpoint.mem_of_lastOn hafter).1)
      simp [hat, member_operationObject hoperation.symm, hne]

/-- A document has as many operations as endpoints exactly when no two of these share a route. -/
theorem Shows.length_routes_eq_iff {doc : Value} {es : List Endpoint} (h : Shows doc es) :
    (routes doc).length = es.length ↔ (es.map Endpoint.route).Nodup := by
  rw [h.routes_perm.length_eq, ← List.dedup_eq_self, ← List.length_map (f := Endpoint.route)]
  constructor
  · exact (List.dedup_sublist _).eq_of_length
  · intro heq
    rw [heq]

end Publication

namespace Session

/-- Whatever is called after a controller has begun, its endpoints can be put into a document. Among
endpoints that share their path and method the last one's operation stands there, and so the
document has as many operations as the controller has endpoints exactly when no two of these share
both. -/
theorem run_document_shows (s : Session) (id : String) {settings : ControllerSettings}
    (hsettings : settings.IsTyped) {calls : List Call} (hkept : ∀ other, .begin id other ∉ calls)
    (htyped : ∀ binding, .bind id binding ∈ calls → binding.settings.IsTyped) {c : Controller}
    (hc : ((s.step (.begin id settings)).state.run calls).controllers.get? id = some c)
    (hpaths : ∀ e ∈ c.endpoints, Value.isInheritedName e.path = false) (h : Heading)
    {schemas : List NamedNode} (hschemas : ∀ schema ∈ schemas, schema.node.IsNodeData) :
    ∃ doc, document h schemas c.endpoints = .ok doc ∧
      (∀ before e after, c.endpoints = before ++ e :: after →
        ((operationAt? doc e.route).map (·.member "operationId") = some (.text e.operationId) ↔
          ∀ later ∈ after, later.route ≠ e.route)) ∧
      (routes doc).Perm (c.endpoints.map Endpoint.route).dedup ∧
      ((routes doc).length = c.endpoints.length ↔
        (c.endpoints.map Endpoint.route).Nodup) := by
  obtain ⟨made, hmade, hhistory⟩ := s.run_isMadeBy id settings hkept
  obtain rfl := Option.some.inj (hc.symm.trans hmade)
  obtain ⟨published, hpublished, hall⟩ := s.run_isPublishable id hsettings hkept htyped
  obtain rfl := Option.some.inj (hc.symm.trans hpublished)
  obtain ⟨doc, hdoc, hshows⟩ := exists_document h
    (fun schema hschema => (hschemas schema hschema).isPublishable) hall.endpoints hpaths
  refine ⟨doc, hdoc, ?_, hshows.routes_perm, hshows.length_routes_eq_iff⟩
  intro before e after hsplit
  exact hshows.operationId_iff hhistory.distinct hsplit

/-- Two actions of users that are both posted to the collection. -/
def transfers : List Call :=
  [.bind "u" (.customAction "export" {}), .bind "u" (.customAction "import" {})]

/-- The users with the two actions. -/
def transferring : Controller where
  settings := users.settings
  endpoints :=
    [users.endpoint "export" {} ⟨[], []⟩ none, users.endpoint "import" {} ⟨[], []⟩ none]

theorem run_transfers :
    (((start .builtIn).step (.begin "u" users.settings)).state.run transfers).controllers.get? "u" =
      some transferring := by
  cbv

/-- The statement above applies to the two actions. Only the last of them is shown. -/
theorem transfers_document_shows :
    ∃ doc, document { title := .text "API" } [] transferring.endpoints = .ok doc ∧
      ((operationAt? doc ("/users", "post")).map (·.member "operationId") =
        some (.text "Users.import")) ∧
      (routes doc).Perm (transferring.endpoints.map Endpoint.route).dedup := by
  have hsettings : users.settings.IsTyped := ⟨by simp [users], by simp [users]⟩
  have hbindings : ∀ binding, .bind "u" binding ∈ transfers → binding.settings.IsTyped := by
    intro binding hbinding
    have hnone : binding.settings = {} := by
      simp only [transfers, List.mem_cons, Call.bind.injEq, true_and, List.not_mem_nil,
        or_false] at hbinding
      rcases hbinding with rfl | rfl <;> rfl
    rw [hnone]
    exact ⟨by simp, by simp, by simp⟩
  have hschemas : ∀ schema ∈ ([] : List NamedNode), schema.node.IsNodeData := by simp
  obtain ⟨doc, hdoc, hoperation, hroutes, _⟩ :=
    run_document_shows (start .builtIn) "u" hsettings (by simp [transfers]) hbindings
      run_transfers (by decide) { title := .text "API" } hschemas
  refine ⟨doc, hdoc, ?_, hroutes⟩
  exact (hoperation [users.endpoint "export" {} ⟨[], []⟩ none] _ [] rfl).mpr (by simp)

/-- The export of users has no operation: on its route stands the import. -/
theorem transfers_export_notShown :
    ∃ c doc,
      (((start .builtIn).step (.begin "u" users.settings)).state.run transfers).controllers.get?
        "u" = some c ∧
      document { title := .text "API" } [] c.endpoints = .ok doc ∧
      (∃ e ∈ c.endpoints, e.operationId = "Users.export" ∧
        (operationAt? doc e.route).map (·.member "operationId") = some (.text "Users.import")) ∧
      c.endpoints.length = 2 ∧ (routes doc).length = 1 := by
  refine ⟨transferring, _, run_transfers, rfl, ?_, rfl, rfl⟩
  exact ⟨_, List.mem_cons_self, rfl, rfl⟩

end Session

end FieldSchema
