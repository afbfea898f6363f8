import FieldSchema.Proofs.Publishable
import FieldSchema.Proofs.Registrations

/-!
# Path parameters

An operation lists the declared parameters, and after them a required one for every name in braces
in the path that no declared path parameter has. What the names in braces are is said of the text:
each begins at the first brace that opens one, and the next is looked for behind it.
-/

namespace FieldSchema

open Outcome

theorem Value.isText_iff {v : Value} {s : String} : v.isText s = true ↔ v = .text s := by
  cases v <;> simp [isText]

namespace Publication

/-! ## Names in braces -/

/-- A name in braces: it follows an opening brace, ends at the next closing one, and is not empty. -/
structure Encloses (text before name after : List Char) : Prop where
  split : text = before ++ '\x7b' :: (name ++ '\x7d' :: after)
  nonempty : name ≠ []
  closed : '\x7d' ∉ name

/-- The names in braces that are found in a text from left to right, none within another. -/
inductive Finds : List Char → List String → Prop
  | none {text : List Char} (h : ∀ before name after, ¬Encloses text before name after) :
      Finds text []
  | next {text before name after : List Char} {names : List String}
      (h : Encloses text before name after)
      (first : ∀ earlier other rest, Encloses text earlier other rest →
        before.length ≤ earlier.length)
      (others : Finds after names) : Finds text (String.ofList name :: names)

theorem encloses_cons_iff {c : Char} {text before name after : List Char} :
    Encloses (c :: text) before name after ↔
      (before = [] ∧ c = '\x7b' ∧ text = name ++ '\x7d' :: after ∧ name ≠ [] ∧ '\x7d' ∉ name) ∨
        ∃ rest, before = c :: rest ∧ Encloses text rest name after := by
  constructor
  · rintro ⟨hsplit, hne, hclosed⟩
    cases before with
    | nil =>
        obtain ⟨rfl, rfl⟩ := List.cons.inj hsplit
        exact .inl ⟨rfl, rfl, rfl, hne, hclosed⟩
    | cons first rest =>
        obtain ⟨rfl, rfl⟩ := List.cons.inj hsplit
        exact .inr ⟨rest, rfl, rfl, hne, hclosed⟩
  · rintro (⟨rfl, rfl, rfl, hne, hclosed⟩ | ⟨rest, rfl, rfl, hne, hclosed⟩)
    · exact ⟨rfl, hne, hclosed⟩
    · exact ⟨rfl, hne, hclosed⟩

theorem Finds.of_not_mem {text : List Char} (h : '\x7d' ∉ text) : Finds text [] := by
  refine .none fun before name after henclosed => h ?_
  simp [henclosed.split]

/-- A character that opens no name is passed over. -/
theorem Finds.cons {text : List Char} {names : List String} (h : Finds text names) {c : Char}
    (hc : ∀ name after, ¬Encloses (c :: text) [] name after) : Finds (c :: text) names := by
  have hlater {before name after : List Char} (henclosed : Encloses (c :: text) before name after) :
      ∃ rest, before = c :: rest ∧ Encloses text rest name after := by
    rcases encloses_cons_iff.mp henclosed with ⟨rfl, _⟩ | hrest
    · exact absurd henclosed (hc name after)
    · exact hrest
  cases h with
  | none hnone =>
      refine .none fun before name after henclosed => ?_
      obtain ⟨rest, -, hrest⟩ := hlater henclosed
      exact hnone rest name after hrest
  | @next _ before name after names henclosed hfirst hothers =>
      refine .next (encloses_cons_iff.mpr (.inr ⟨before, rfl, henclosed⟩)) ?_ hothers
      intro earlier other rest hearlier
      obtain ⟨tail, rfl, htail⟩ := hlater hearlier
      exact Nat.succ_le_succ (hfirst tail other rest htail)

/-- A name that is begun and ended at once is none. -/
theorem Finds.cons_cons {text : List Char} {names : List String} (h : Finds text names) :
    Finds ('\x7b' :: '\x7d' :: text) names := by
  refine Finds.cons (Finds.cons h ?_) ?_
  · intro name after henclosed
    exact absurd (List.cons.inj henclosed.split).1 (by decide)
  · rintro name after ⟨hsplit, hne, hclosed⟩
    cases name with
    | nil => exact hne rfl
    | cons first rest =>
        obtain ⟨rfl, -⟩ := List.cons.inj (List.cons.inj hsplit).2
        exact hclosed List.mem_cons_self

theorem Finds.cons_name {text name : List Char} {names : List String} (h : Finds text names)
    (hne : name ≠ []) (hclosed : '\x7d' ∉ name) :
    Finds ('\x7b' :: (name ++ '\x7d' :: text)) (String.ofList name :: names) :=
  .next ⟨(List.nil_append _).symm, hne, hclosed⟩ (fun _ _ _ _ => Nat.zero_le _) h

/-- What is found behind an opening brace depends on the characters since: up to a closing brace
they are a name. -/
theorem finds_placeholdersFrom (current : Option (List Char)) (text : List Char)
    (hcurrent : ∀ taken ∈ current, '\x7d' ∉ taken) :
    Finds ((current.elim [] fun taken => '\x7b' :: taken.reverse) ++ text)
      (placeholdersFrom current text) := by
  induction text generalizing current with
  | nil =>
      refine .of_not_mem ?_
      cases current with
      | none => simp
      | some taken => simpa using hcurrent taken rfl
  | cons c rest ih =>
      match current with
      | none =>
          rw [placeholdersFrom]
          by_cases hc : c = '\x7b'
          · subst hc
            simpa using ih (some []) (by simp)
          · rw [if_neg hc]
            refine Finds.cons (ih none (by simp)) ?_
            intro name after henclosed
            exact hc (List.cons.inj henclosed.split).1
      | some [] =>
          rw [placeholdersFrom]
          by_cases hc : c = '\x7d'
          · subst hc
            simpa using Finds.cons_cons (ih none (by simp))
          · rw [if_neg hc]
            simpa using ih (some [c]) (by simpa using Ne.symm hc)
      | some (d :: taken) =>
          have htaken := hcurrent (d :: taken) rfl
          rw [placeholdersFrom]
          by_cases hc : c = '\x7d'
          · subst hc
            have hrest : Finds rest (placeholdersFrom none rest) := ih none (by simp)
            simpa using hrest.cons_name (by simp) (mt List.mem_reverse.mp htaken)
          · rw [if_neg hc]
            have hlonger : '\x7d' ∉ c :: d :: taken :=
              fun hmem => (List.mem_cons.mp hmem).elim (Ne.symm hc) htaken
            simpa using ih (some (c :: d :: taken)) (by simpa using hlonger)

theorem finds_placeholders (path : String) : Finds path.toList (placeholders path) :=
  finds_placeholdersFrom none path.toList (by simp)

/-- The first name in braces is determined by the text. -/
theorem Encloses.unique {text before name after before' name' after' : List Char}
    (h : Encloses text before name after) (h' : Encloses text before' name' after')
    (hlength : before.length = before'.length) : name = name' ∧ after = after' := by
  have hall {name : List Char} (hclosed : '\x7d' ∉ name) (after : List Char) :
      (name ++ '\x7d' :: after).takeWhile (· != '\x7d') = name := by
    have hbefore : ∀ c ∈ name, (c != '\x7d') = true := by
      intro c hc
      exact bne_iff_ne.mpr fun heq => hclosed (heq ▸ hc)
    rw [List.takeWhile_append_of_pos hbefore]
    simp
  have hsplit := (List.append_inj (h.split.symm.trans h'.split) hlength).2
  have htext := (List.cons.inj hsplit).2
  have hname : name = name' := by rw [← hall h.closed after, htext, hall h'.closed after']
  subst hname
  exact ⟨rfl, (List.cons.inj (List.append_cancel_left htext)).2⟩

theorem Finds.unique {text : List Char} {names others : List String} (h : Finds text names)
    (hothers : Finds text others) : others = names := by
  induction h generalizing others with
  | none hnone =>
      cases hothers with
      | none => rfl
      | next henclosed => exact absurd henclosed (hnone _ _ _)
  | next henclosed hfirst _ ih =>
      cases hothers with
      | none hnone => exact absurd henclosed (hnone _ _ _)
      | next henclosed' hfirst' hrest =>
          have hlength := le_antisymm (hfirst _ _ _ henclosed') (hfirst' _ _ _ henclosed)
          obtain ⟨rfl, rfl⟩ := henclosed.unique henclosed' hlength
          rw [ih hrest]

theorem finds_iff {path : String} {names : List String} :
    Finds path.toList names ↔ names = placeholders path := by
  constructor
  · exact (finds_placeholders path).unique
  · rintro rfl
    exact finds_placeholders path

/-! ## Parameters of an operation -/

/-- The required path parameter of a name, a string, as published. -/
def requiredInPath (name : String) : Value :=
  object [("name", .text name), ("in", .text "path"), ("required", .bool true),
    ("schema", object [("type", .text "string")])]

/-- The parameters that an operation lists. -/
def parametersOf (operation : Value) : List Value :=
  match operation.member "parameters" with
  | .list items => items
  | _ => []

/-- A published parameter is the path parameter of a name. -/
def isPathParameter (name : String) (published : Value) : Bool :=
  (published.member "in").isText "path" && (published.member "name").isText name

/-- The names, each once and in order, for which no path parameter is declared. -/
def undeclared (declared : List Parameter) (names : List String) : List String :=
  (names.filter fun name => !declared.any (Parameter.isPathParameter name)).eraseDups

theorem isPathParameter_inPath (name other : String) :
    (Parameter.inPath other).isPathParameter name = (other == name) :=
  rfl

theorem mem_undeclared_iff {declared : List Parameter} {names : List String} {name : String} :
    name ∈ undeclared declared names ↔
      name ∈ names ∧ declared.any (Parameter.isPathParameter name) = false := by
  simp [undeclared, List.mem_eraseDups]

theorem nodup_undeclared (declared : List Parameter) (names : List String) :
    (undeclared declared names).Nodup :=
  Session.nodup_eraseDups _

theorem undeclared_concat (declared : List Parameter) (names : List String) (name : String) :
    undeclared declared (names ++ [name]) =
      if declared.any (Parameter.isPathParameter name) = true ∨ name ∈ names then
        undeclared declared names
      else undeclared declared names ++ [name] := by
  rw [undeclared, List.filter_append]
  by_cases hdeclared : declared.any (Parameter.isPathParameter name) = true
  · simp [hdeclared, undeclared]
  · have hfilter : [name].filter (fun name => !declared.any (Parameter.isPathParameter name)) =
        [name] := by simpa using hdeclared
    rw [hfilter, Session.eraseDups_concat]
    refine if_congr ?_ rfl rfl
    simp [hdeclared]

/-- A name is known among the declared and the added parameters when it is declared, or came up. -/
theorem any_isPathParameter_iff {declared : List Parameter} {names : List String} {name : String} :
    (declared ++ (undeclared declared names).map Parameter.inPath).any
        (Parameter.isPathParameter name) = true ↔
      declared.any (Parameter.isPathParameter name) = true ∨ name ∈ names := by
  have hadded : ((undeclared declared names).map Parameter.inPath).any
      (Parameter.isPathParameter name) = true ↔ name ∈ undeclared declared names := by
    simp [List.any_map, isPathParameter_inPath]
  rw [List.any_append, Bool.or_eq_true, hadded, mem_undeclared_iff]
  by_cases hdeclared : declared.any (Parameter.isPathParameter name) = true <;> simp [hdeclared]

/-- Names are added one by one, in order, unless their parameter is there already. -/
theorem foldl_addPathParameter (declared : List Parameter) (names : List String) :
    names.foldl addPathParameter declared =
      declared ++ (undeclared declared names).map Parameter.inPath := by
  induction names using List.reverseRecOn with
  | nil => simp [undeclared]
  | append_singleton names name ih =>
      rw [List.foldl_append, ih, List.foldl_cons, List.foldl_nil, addPathParameter,
        undeclared_concat]
      simp only [any_isPathParameter_iff]
      split
      next => rfl
      next => simp

end Publication

namespace Parameter

theorem isPathParameter_iff {p : Parameter} {name : String} :
    p.isPathParameter name = true ↔ p.isInPath = true ∧ p.entry "name" = .text name := by
  rw [isPathParameter, Bool.and_eq_true, Value.isText_iff]

/-- Where no two declared path parameters share a name, a name has one of them at most. -/
theorem countP_isPathParameter_le_one {declared : List Parameter}
    (h : ((declared.filter isInPath).map (·.entry "name")).Nodup) (name : String) :
    declared.countP (isPathParameter name) ≤ 1 := by
  induction declared with
  | nil => simp
  | cons p rest ih =>
      rw [List.countP_cons]
      by_cases hp : p.isPathParameter name = true
      · obtain ⟨hin, hname⟩ := isPathParameter_iff.mp hp
        rw [List.filter_cons_of_pos hin, List.map_cons] at h
        obtain ⟨hfresh, -⟩ := List.nodup_cons.mp h
        have hnone : rest.countP (isPathParameter name) = 0 := by
          refine List.countP_eq_zero.mpr fun q hq hsame => hfresh ?_
          obtain ⟨hqin, hqname⟩ := isPathParameter_iff.mp hsame
          exact List.mem_map.mpr ⟨q, List.mem_filter.mpr ⟨hq, hqin⟩, hqname.trans hname.symm⟩
        rw [hnone, if_pos hp]
      · rw [if_neg hp]
        refine ih (h.sublist ?_)
        exact ((List.sublist_cons_self p rest).filter isInPath).map _

end Parameter

namespace Publication

/-- Among the declared and the added parameters every name that came up has exactly one, unless
declared ones share it. -/
theorem countP_isPathParameter {declared : List Parameter}
    (h : ((declared.filter Parameter.isInPath).map (·.entry "name")).Nodup) {names : List String}
    {name : String} (hname : name ∈ names) :
    (declared ++ (undeclared declared names).map Parameter.inPath).countP
      (Parameter.isPathParameter name) = 1 := by
  have hadded : ((undeclared declared names).map Parameter.inPath).countP
      (Parameter.isPathParameter name) = (undeclared declared names).count name := by
    rw [List.countP_map]
    rfl
  rw [List.countP_append, hadded]
  by_cases hdeclared : declared.any (Parameter.isPathParameter name) = true
  · have hnot : name ∉ undeclared declared names := by simp [mem_undeclared_iff, hdeclared]
    have hpos : 0 < declared.countP (Parameter.isPathParameter name) :=
      List.countP_pos_iff.mpr (List.any_eq_true.mp hdeclared)
    have hmost := Parameter.countP_isPathParameter_le_one h name
    rw [List.count_eq_zero.mpr hnot]
    omega
  · have hmem : name ∈ undeclared declared names := by simp [mem_undeclared_iff, hname, hdeclared]
    have hnone : declared.countP (Parameter.isPathParameter name) = 0 := by
      simpa [List.countP_eq_zero] using hdeclared
    rw [hnone, List.count_eq_one_of_mem (nodup_undeclared declared names) hmem]

theorem requestEntry_cases {body : Option Value} {request : Record Value}
    (h : requestEntry body = .ok request) : request = [] ∨ ∃ v, request = [("requestBody", v)] := by
  unfold requestEntry at h
  split at h
  next =>
    split at h
    next =>
      obtain ⟨published, _, h⟩ := bind_eq_ok.mp h
      exact .inr ⟨_, (pure_eq_ok.mp h).symm⟩
    next => exact .inl (Except.ok.inj h).symm
  next => exact .inl (Except.ok.inj h).symm

theorem callbackEntry_cases {nodes callbacks : Record Value}
    (h : callbackEntry nodes = .ok callbacks) :
    callbacks = [] ∨ ∃ v, callbacks = [("callbacks", v)] := by
  unfold callbackEntry at h
  split at h
  next => exact .inl (pure_eq_ok.mp h).symm
  next =>
    obtain ⟨published, _, h⟩ := bind_eq_ok.mp h
    exact .inr ⟨_, (pure_eq_ok.mp h).symm⟩

theorem get?_listEntry (name other : String) (items : List Value) :
    Record.get? (listEntry name items) other =
      if other = name ∧ items ≠ [] then some (.list items) else none := by
  cases items with
  | nil => simp [listEntry]
  | cons item rest => simp [listEntry, Record.get?_cons]

/-- What stands under the names of parameters and callbacks in an operation. -/
theorem member_operation {e : Endpoint} {operation : Value}
    (h : operationObject e = .ok operation) :
    parametersOf operation = (allParameters e.path e.parameters).map parameterObject ∧
      ∃ callbacks, callbackEntry e.callbacks = .ok callbacks ∧
        operation.member "callbacks" = (Record.get? callbacks "callbacks").getD .absent := by
  obtain ⟨responses, _, h⟩ := bind_eq_ok.mp h
  obtain ⟨request, hrequest, h⟩ := bind_eq_ok.mp h
  obtain ⟨callbacks, hcallbacks, h⟩ := bind_eq_ok.mp h
  obtain rfl := pure_eq_ok.mp h
  have hrequest (name : String) (hname : name ≠ "requestBody") : request.get? name = none := by
    rcases requestEntry_cases hrequest with rfl | ⟨v, rfl⟩ <;> simp [Record.get?_cons, hname]
  have hnone : callbacks.get? "parameters" = none := by
    rcases callbackEntry_cases hcallbacks with rfl | ⟨v, rfl⟩ <;> simp [Record.get?_cons]
  refine ⟨?_, callbacks, hcallbacks, ?_⟩
  · rw [parametersOf, object, Value.member]
    simp only [Record.get?_append, get?_listEntry, hnone, hrequest "parameters" (by decide)]
    cases (allParameters e.path e.parameters).map parameterObject <;> simp [Record.get?_cons]
  · rw [object, Value.member]
    simp [Record.get?_append, Record.get?_cons, get?_listEntry, hrequest "callbacks" (by decide)]

theorem member_parameterObject_required {p : Parameter}
    (h : (parameterObject p).member "in" = .text "path") :
    (parameterObject p).member "required" = .bool true := by
  have hin : p.isInPath = true := Value.isText_iff.mpr h
  have hrequired : (parameterObject p).member "required" =
      if p.isInPath then .bool true else (p.entry "required").orElse (.bool false) := rfl
  rw [hrequired, if_pos hin]

/-- The parameters of the operation of an endpoint. The operation can be made whatever its path and
its parameters are. It lists the declared parameters, and then a required string for every name in
braces that no declared path parameter has. A path parameter is required whatever was declared, and
each name in braces has exactly one, unless declared ones share it. -/
theorem operation_parameters (e : Endpoint) :
    (e.IsPublishable → ∃ operation, operationObject e = .ok operation) ∧
      ∃ names, (∀ others, Finds e.path.toList others ↔ others = names) ∧
        ∀ operation, operationObject e = .ok operation →
          parametersOf operation = e.parameters.map parameterObject ++
            (undeclared e.parameters names).map requiredInPath ∧
          (∀ p ∈ parametersOf operation, p.member "in" = .text "path" →
            p.member "required" = .bool true) ∧
          (((e.parameters.filter Parameter.isInPath).map (·.entry "name")).Nodup →
            ∀ name ∈ names, (parametersOf operation).countP (isPathParameter name) = 1) := by
  refine ⟨exists_operationObject, placeholders e.path, fun _ => finds_iff, ?_⟩
  intro operation h
  have hall : allParameters e.path e.parameters =
      e.parameters ++ (undeclared e.parameters (placeholders e.path)).map .inPath :=
    foldl_addPathParameter e.parameters (placeholders e.path)
  have hlisted := (member_operation h).1
  refine ⟨?_, ?_, ?_⟩
  · rw [hlisted, hall, List.map_append, List.map_map]
    rfl
  · rw [hlisted]
    intro p hp
    obtain ⟨parameter, -, rfl⟩ := List.mem_map.mp hp
    exact member_parameterObject_required
  · intro hdistinct name hname
    rw [hlisted, List.countP_map, hall]
    exact countP_isPathParameter hdistinct hname

/-- The file of a document, which its path names twice; a query parameter has the same name. -/
def documentFile : Endpoint where
  operationId := "Documents.file"
  action := "file"
  method := "get"
  path := "/documents/\x7bid\x7d/\x7b\x7d/\x7bfile\x7d/\x7bid\x7d/\x7b"
  parameters :=
    [⟨[("name", .text "id"), ("in", .text "query"), ("type", .text "string")]⟩,
      ⟨[("name", .text "file"), ("in", .text "path"), ("type", .text "integer"),
        ("required", .bool false)]⟩]

theorem documentFile_parameters :
    ∃ operation, operationObject documentFile = .ok operation ∧
      Finds documentFile.path.toList ["id", "file", "id"] ∧
      parametersOf operation =
        documentFile.parameters.map parameterObject ++ [requiredInPath "id"] ∧
      (∀ p ∈ parametersOf operation, p.member "in" = .text "path" →
        p.member "required" = .bool true) ∧
      (parametersOf operation).countP (isPathParameter "id") = 1 ∧
      (parametersOf operation).countP (isPathParameter "file") = 1 := by
  have hpublishable : documentFile.IsPublishable :=
    ⟨by decide, by simp [documentFile], by simp [documentFile], by simp [documentFile]⟩
  have hdistinct :
      ((documentFile.parameters.filter Parameter.isInPath).map (·.entry "name")).Nodup :=
    List.nodup_singleton _
  obtain ⟨hmade, names, hnames, hparameters⟩ := operation_parameters documentFile
  obtain ⟨operation, hoperation⟩ := hmade hpublishable
  obtain ⟨hlisted, hrequired, hone⟩ := hparameters operation hoperation
  have hfinds : Finds documentFile.path.toList ["id", "file", "id"] := finds_iff.mpr (by cbv)
  obtain rfl := (hnames _).mp hfinds
  exact ⟨operation, hoperation, hfinds, hlisted, hrequired, hone hdistinct "id" (by simp),
    hone hdistinct "file" (by simp)⟩

end Publication

end FieldSchema
