import Mathlib
import FieldSchema.Proofs.Positions

/-!
# Declared order

A descriptor lists the rules of a block in the order in which its fields are declared. An object
enumerates its properties in the order in which they are set, save for names that spell an array
index: they come first, in ascending order. So the properties of a block stand in declared order
exactly when its declarations put such names first and in ascending order.
-/

namespace FieldSchema

/-- A list of declarations stands at a way: at the root, or as the inline block of a declaration. -/
def Declaration.HasBlock (declared : List Declaration) (way : List String)
    (block : List Declaration) : Prop :=
  (way = [] ∧ block = declared) ∨ ∃ head, Declaration.StandsAt declared way (.block head block)

/-- The properties and the rules that a schema has at a way, in its documentation and in its
descriptor. -/
structure Schema.HasFieldsAt (s : Schema) (way : List String) (properties : Record Node)
    (rules : Descriptor) : Prop where
  node : (s.documentation.field? way).bind Node.innerProperties? = some properties
  rule : (s.rule.field? way).bind Rule.inner? = some rules

/-! ## Names that spell an array index -/

theorem digitValue?_eq_some {c : Char} {d : Nat} (h : digitValue? c = some d) :
    d < 10 ∧ c = d.digitChar := by
  unfold digitValue? at h
  split at h
  next hdigit =>
    obtain ⟨hlower, hupper⟩ := hdigit
    have hlower : 48 ≤ c.toNat := Char.le_def.mp hlower
    have hupper : c.toNat ≤ 57 := Char.le_def.mp hupper
    obtain rfl : c.toNat - 48 = d := Option.some.inj h
    refine ⟨by omega, ?_⟩
    have hc := (Char.ofNat_toNat c).symm
    generalize c.toNat = code at hlower hupper hc
    subst hc
    interval_cases code <;> rfl
  next => cases h

/-- Digits that continue a positive number are its further decimal digits. -/
theorem toDigits_of_digitsValue? {start n : Nat} {digits : List Char} (hstart : 0 < start)
    (h : digitsValue? start digits = some n) :
    Nat.toDigits 10 n = Nat.toDigits 10 start ++ digits := by
  induction digits generalizing start with
  | nil =>
      obtain rfl := Option.some.inj h
      simp
  | cons c rest ih =>
      rw [digitsValue?] at h
      split at h
      next d hd =>
        obtain ⟨hlt, rfl⟩ := digitValue?_eq_some hd
        have happend := Nat.toDigits_append_toDigits (b := 10) (by decide) hstart hlt
        rw [Nat.toDigits_of_lt_base hlt] at happend
        rw [ih (by omega) h, Nat.mul_comm, ← happend, List.append_assoc]
        rfl
      next => cases h

/-- A name that spells an array index is the decimal text of the index. -/
theorem eq_repr_of_arrayIndex? {name : String} {i : Nat} (h : arrayIndex? name = some i) :
    name = i.repr := by
  rw [Nat.repr_eq_ofList_toDigits, ← String.ofList_toList (s := name)]
  congr 1
  unfold arrayIndex? at h
  split at h
  next => cases h
  next hzero =>
    obtain rfl := Option.some.inj h
    exact hzero
  next => cases h
  next digits hempty hzero hleading =>
    split at h
    next n hn =>
      split at h
      next =>
        obtain rfl := Option.some.inj h
        cases hdigits : name.toList with
        | nil => exact absurd hdigits hempty
        | cons c rest =>
            rw [hdigits, digitsValue?] at hn
            split at hn
            next d hd =>
              obtain ⟨hlt, rfl⟩ := digitValue?_eq_some hd
              -- the first digit is not zero, for then no other branch would have been reached
              have hpos : 0 < d := by
                apply Nat.pos_of_ne_zero
                rintro rfl
                cases rest with
                | nil => exact hzero hdigits
                | cons _ _ => exact hleading _ hdigits
              rw [toDigits_of_digitsValue? (by omega) hn, Nat.zero_mul, Nat.zero_add,
                Nat.toDigits_of_lt_base hlt]
              rfl
            next => cases hn
      next => cases h
    next => cases h

namespace Record

variable {α : Type}

/-- An object may enumerate one name before another: a name that spells an array index comes after
smaller indices only. -/
def EnumeratedBefore (name later : String) : Prop :=
  ∀ j, arrayIndex? later = some j → ∃ i, arrayIndex? name = some i ∧ i < j

/-- Names stand as an object enumerates them that were set in a given order. -/
structure Enumerates (names given : List String) : Prop where
  perm : names.Perm given
  ordered : names.Pairwise EnumeratedBefore
  /-- Names that spell no array index keep their order. -/
  others : names.filter (fun name => (arrayIndex? name).isNone) =
    given.filter fun name => (arrayIndex? name).isNone

theorem EnumeratedBefore.trans {name later last : String} (h : EnumeratedBefore name later)
    (hlast : EnumeratedBefore later last) : EnumeratedBefore name last := by
  intro k hk
  obtain ⟨j, hj, hjk⟩ := hlast k hk
  obtain ⟨i, hi, hij⟩ := h j hj
  exact ⟨i, hi, hij.trans hjk⟩

theorem standsBefore_iff {i : Nat} {name : String} (hindex : arrayIndex? name = some i)
    (entry : String × α) : standsBefore i entry = true ↔ EnumeratedBefore entry.1 name := by
  unfold standsBefore EnumeratedBefore
  cases hentry : arrayIndex? entry.1 with
  | none => simp [hindex]
  | some j => simp [hindex]

/-- What a new index is not behind it is before, for no two names spell one index. -/
theorem enumeratedBefore_of_not {i : Nat} {name other : String} (hindex : arrayIndex? name = some i)
    (hne : other ≠ name) (h : ¬EnumeratedBefore other name) : EnumeratedBefore name other := by
  intro j hj
  refine ⟨i, hindex, ?_⟩
  by_contra hle
  rcases Nat.lt_or_eq_of_le (Nat.le_of_not_lt hle) with hlt | rfl
  · apply h
    intro k hk
    obtain rfl := Option.some.inj (hindex.symm.trans hk)
    exact ⟨j, hj, hlt⟩
  · exact hne ((eq_repr_of_arrayIndex? hj).trans (eq_repr_of_arrayIndex? hindex).symm)

theorem insertNew_cons {i : Nat} {name : String} (hindex : arrayIndex? name = some i)
    (entry : String × α) (r : Record α) (value : α) :
    insertNew (entry :: r) name value =
      if standsBefore i entry then entry :: r.insertNew name value
      else (name, value) :: entry :: r := by
  simp only [insertNew, hindex, List.takeWhile_cons, List.dropWhile_cons]
  split <;> rfl

/-- A new name is inserted where enumeration order wants it. -/
theorem pairwise_insertNew {r : Record α} (hr : r.names.Pairwise EnumeratedBefore) {name : String}
    (hfresh : name ∉ r.names) (value : α) :
    (r.insertNew name value).names.Pairwise EnumeratedBefore := by
  cases hindex : arrayIndex? name with
  | none =>
      have hall : ∀ other ∈ r.names, ∀ last ∈ [name], EnumeratedBefore other last := by
        intro other _ last hlast j hj
        obtain rfl := List.mem_singleton.mp hlast
        exact absurd (hindex.symm.trans hj) (by simp)
      have happend := List.pairwise_append.mpr ⟨hr, List.pairwise_singleton _ name, hall⟩
      simpa [insertNew, hindex, names] using happend
  | some i =>
      induction r with
      | nil => simp [insertNew, hindex, names]
      | cons entry r ih =>
          obtain ⟨hentry, hrest⟩ := List.pairwise_cons.mp hr
          obtain ⟨hne, hfresh⟩ := not_or.mp (mt List.mem_cons.mpr hfresh)
          rw [insertNew_cons hindex]
          split
          next hbefore =>
            refine List.pairwise_cons.mpr ⟨?_, ih hrest hfresh⟩
            intro later hlater
            have hperm := (insertNew_perm r name value).map Prod.fst
            rcases List.mem_cons.mp (hperm.mem_iff.mp hlater) with rfl | hlater
            · exact (standsBefore_iff hindex entry).mp hbefore
            · exact hentry later hlater
          next hafter =>
            rw [standsBefore_iff hindex] at hafter
            have hfirst := enumeratedBefore_of_not hindex (Ne.symm hne) hafter
            refine List.pairwise_cons.mpr ⟨?_, hr⟩
            intro later hlater
            rcases List.mem_cons.mp hlater with rfl | hlater
            · exact hfirst
            · exact hfirst.trans (hentry later hlater)

/-- A new name that every other may come before is inserted at the end. -/
theorem insertNew_eq_append {r : Record α} {name : String} (value : α)
    (h : ∀ other ∈ r.names, EnumeratedBefore other name) :
    r.insertNew name value = r ++ [(name, value)] := by
  cases hindex : arrayIndex? name with
  | none => simp [insertNew, hindex]
  | some i =>
      have hall : ∀ entry ∈ r, standsBefore i entry = true := by
        intro entry hentry
        exact (standsBefore_iff hindex entry).mpr (h entry.1 (List.mem_map_of_mem hentry))
      simp [insertNew, hindex, List.takeWhile_eq_self_iff.mpr hall,
        List.dropWhile_eq_nil_iff.mpr hall]

theorem set_of_fresh {r : Record α} {name : String} (hfresh : name ∉ r.names) (value : α) :
    r.set name value = r.insertNew name value := by
  rw [set, if_neg]
  rwa [has_iff_mem_names]

theorem Enumerates.insertNew {r : Record α} {given : List String} (h : Enumerates r.names given)
    {name : String} (hfresh : name ∉ r.names) (value : α) :
    Enumerates (r.insertNew name value).names (given ++ [name]) where
  perm := by
    have hcons := (insertNew_perm r name value).map Prod.fst
    exact hcons.trans ((h.perm.cons name).trans (List.perm_append_singleton name given).symm)
  ordered := pairwise_insertNew h.ordered hfresh value
  others := by
    rw [List.filter_append, ← h.others]
    cases hindex : arrayIndex? name with
    | none => simp [Record.insertNew, hindex, names]
    | some i =>
        simp only [Record.insertNew, hindex, names, List.map_append, List.map_cons,
          List.filter_append, List.filter_cons, List.filter_nil, Option.isNone_some]
        rw [if_neg (by simp), if_neg (by simp), List.append_nil, ← List.filter_append,
          ← List.map_append, List.takeWhile_append_dropWhile]

theorem ofList_concat (entries : List (String × α)) (entry : String × α) :
    ofList (entries ++ [entry]) = (ofList entries).set entry.1 entry.2 := by
  simp [ofList]

/-- A record made of entries of distinct names enumerates these names. -/
theorem enumerates_ofList {entries : List (String × α)} (hnodup : (names entries).Nodup) :
    Enumerates (ofList entries).names (names entries) := by
  induction entries using List.reverseRecOn with
  | nil => exact ⟨.nil, .nil, rfl⟩
  | append_singleton entries entry ih =>
      have hnames : names (entries ++ [entry]) = names entries ++ [entry.1] := by simp [names]
      rw [hnames] at hnodup ⊢
      have hfresh : entry.1 ∉ (ofList entries).names := by
        rw [mem_names_ofList]
        exact fun hmem => List.disjoint_of_nodup_append hnodup hmem List.mem_cons_self
      rw [ofList_concat, set_of_fresh hfresh]
      exact (ih hnodup.of_append_left).insertNew hfresh entry.2

/-- Entries that are given in enumeration order make a record as they stand. -/
theorem ofList_eq_self {entries : List (String × α)} (hnodup : (names entries).Nodup)
    (h : (names entries).Pairwise EnumeratedBefore) : ofList entries = entries := by
  induction entries using List.reverseRecOn with
  | nil => rfl
  | append_singleton entries entry ih =>
      have hnames : names (entries ++ [entry]) = names entries ++ [entry.1] := by simp [names]
      rw [hnames] at hnodup h
      obtain ⟨hentries, -, hbefore⟩ := List.pairwise_append.mp h
      have hfresh : entry.1 ∉ names entries := fun hmem =>
        List.disjoint_of_nodup_append hnodup hmem List.mem_cons_self
      rw [ofList_concat, ih hnodup.of_append_left hentries, set_of_fresh hfresh]
      exact insertNew_eq_append entry.2 fun other hother =>
        hbefore other hother entry.1 List.mem_cons_self

theorem names_ofList_eq_iff {entries : List (String × α)} (hnodup : (names entries).Nodup) :
    (ofList entries).names = names entries ↔ (names entries).Pairwise EnumeratedBefore := by
  constructor
  · intro heq
    exact heq ▸ (enumerates_ofList hnodup).ordered
  · intro h
    rw [ofList_eq_self hnodup h]

end Record

namespace Compilation

/-- The fields of a block stand under their names in declared order in the descriptor, and in
enumeration order among the properties. -/
theorem names_of_compiled {around : Surroundings} {parent : String} {block : List Declaration}
    {fields : List (String × CompiledField)} (hnodup : (block.map Declaration.name).Nodup)
    (h : compileAll around parent block = .ok fields) :
    Descriptor.names (rules fields) = block.map Declaration.name ∧
      Record.Enumerates (properties fields).names (block.map Declaration.name) ∧
      ((properties fields).names = block.map Declaration.name ↔
        (block.map Declaration.name).Pairwise Record.EnumeratedBefore) := by
  have hnames := map_fst_compileAll h
  rw [← hnames] at hnodup ⊢
  rw [← names_nodes] at hnodup
  refine ⟨?_, ?_, ?_⟩
  · simp only [Descriptor.names, rules, List.map_map]
    exact List.map_congr_left (rule_name_compileAll h)
  · rw [← names_nodes]
    exact Record.enumerates_ofList hnodup
  · rw [← names_nodes]
    exact Record.names_ofList_eq_iff hnodup

end Compilation

namespace Schema

/-- At the root of a compiled schema and at every inline block the rules stand in declared order.
The properties stand in enumeration order, which is the declared one exactly where the names that
spell an array index are declared first and ascending. -/
theorem compile_order {name : String} {raw : Value} {around : Surroundings} {s : Schema}
    {notices : List Notice} {declared : List Declaration}
    (hread : Declaration.readAll raw = .ok declared)
    (h : compile name raw around = .ok (s, notices)) {way : List String}
    {block : List Declaration} (hway : Declaration.HasBlock declared way block) :
    ∃ properties rules, s.HasFieldsAt way properties rules ∧
      rules.names = block.map Declaration.name ∧
      Record.Enumerates properties.names (block.map Declaration.name) ∧
      (properties.names = block.map Declaration.name ↔
        (block.map Declaration.name).Pairwise Record.EnumeratedBefore) := by
  obtain ⟨other, fields, hother, hfields, rfl, -⟩ := compile_eq_ok.mp h
  obtain rfl := Except.ok.inj (hread.symm.trans hother)
  have hwell := Declaration.readAll_isWellFormed hread
  rcases hway with ⟨rfl, rfl⟩ | ⟨head, hstands⟩
  · refine ⟨Compilation.properties fields, Compilation.rules fields, ⟨rfl, rfl⟩, ?_⟩
    exact Compilation.names_of_compiled hwell.nodup_names hfields
  · obtain ⟨field, hfield, hnode, hrule⟩ :=
      Compilation.compileAll_standsAt hstands hwell hfields
    obtain ⟨ctx, stated, inner, _, _, hinner, rfl⟩ := Compilation.compileBlock_eq_ok.mp hfield
    refine ⟨Compilation.properties inner, Compilation.rules inner, ⟨?_, ?_⟩, ?_⟩
    · exact Option.bind_eq_some_iff.mpr
        ⟨_, hnode _ rfl, Compilation.innerProperties?_assembleBlock ..⟩
    · exact Option.bind_eq_some_iff.mpr ⟨_, hrule _ rfl, Compilation.inner?_assembleBlock ..⟩
    · have hinnerWell := (hstands.isWellFormed hwell).2.2
      exact Compilation.names_of_compiled hinnerWell.nodup_names hinner

/-- A list of sizes, each with a label and with counts that are numbered out of order. -/
def numberedSizes : Value :=
  .list [.list [.text "required", .text "sizes", .list [.text "array", .text "object"],
    .object false [("fields", .list [
      .list [.text "required", .text "label", .text "string"],
      .list [.text "optional", .text "10", .text "integer"],
      .list [.text "optional", .text "2", .text "integer"]])]]]

def sizeBlock : List Declaration :=
  [.field ⟨.required, "label", .scalar .string, []⟩, .field ⟨.optional, "10", .scalar .integer, []⟩,
    .field ⟨.optional, "2", .scalar .integer, []⟩]

def sizesDeclared : List Declaration :=
  [.block ⟨.required, "sizes", .array .object, []⟩ sizeBlock]

theorem sizesDeclared_hasBlock : Declaration.HasBlock sizesDeclared ["sizes"] sizeBlock :=
  .inr ⟨_, .here List.mem_cons_self⟩

theorem numberedSizes_order :
    ∃ s properties rules, compile "Shirt" numberedSizes alone = .ok (s, []) ∧
      s.HasFieldsAt ["sizes"] properties rules ∧
      rules.names = ["label", "10", "2"] ∧
      Record.Enumerates properties.names ["label", "10", "2"] := by
  obtain ⟨s, hs⟩ : ∃ s, compile "Shirt" numberedSizes alone = .ok (s, []) := ⟨_, rfl⟩
  have hread : Declaration.readAll numberedSizes = .ok sizesDeclared := by rfl
  obtain ⟨properties, rules, hfields, hrules, hproperties, _⟩ :=
    compile_order hread hs sizesDeclared_hasBlock
  exact ⟨s, properties, rules, hs, hfields, hrules, hproperties⟩

/-- The properties of a size do not stand as they are declared. -/
theorem numberedSizes_reordered :
    ∃ s properties rules, Declaration.readAll numberedSizes = .ok sizesDeclared ∧
      compile "Shirt" numberedSizes alone = .ok (s, []) ∧
      Declaration.HasBlock sizesDeclared ["sizes"] sizeBlock ∧
      s.HasFieldsAt ["sizes"] properties rules ∧
      sizeBlock.map Declaration.name = ["label", "10", "2"] ∧
      rules.names = ["label", "10", "2"] ∧
      properties.names = ["2", "10", "label"] := by
  obtain ⟨s, hs, hnode, hrule⟩ : ∃ s, compile "Shirt" numberedSizes alone = .ok (s, []) ∧
      ((s.documentation.field? ["sizes"]).bind Node.innerProperties?).map Record.names =
        some ["2", "10", "label"] ∧
      ((s.rule.field? ["sizes"]).bind Rule.inner?).map Descriptor.names =
        some ["label", "10", "2"] := ⟨_, rfl, by rfl, by rfl⟩
  obtain ⟨properties, hproperties, hnames⟩ := Option.map_eq_some_iff.mp hnode
  obtain ⟨rules, hrules, hruleNames⟩ := Option.map_eq_some_iff.mp hrule
  exact ⟨s, properties, rules, rfl, hs, sizesDeclared_hasBlock, ⟨hproperties, hrules⟩, rfl,
    hruleNames, hnames⟩

end Schema

end FieldSchema
