import FieldSchema.Proofs.Snapshots

/-!
# Positions of declarations

The position of a declaration lists the names of the fields around it, from the outside in, and its
own. Declarations that have been read hold one declaration at a position. A schema that is compiled
from them has the node and the rule of each declaration at its position.
-/

namespace FieldSchema

open Outcome

/-- A declaration stands at a position of a block or of the blocks inside it. -/
inductive Declaration.StandsAt : List Declaration → List String → Declaration → Prop
  | here {block : List Declaration} {d : Declaration} (hd : d ∈ block) : StandsAt block [d.name] d
  | inside {block inner : List Declaration} {head : FieldHead} {way : List String}
      {d : Declaration} (hblock : .block head inner ∈ block) (h : StandsAt inner way d) :
      StandsAt block (head.name :: way) d

/-- The dotted path of a position below a parent. -/
def pathOf (parent : String) (way : List String) : String :=
  way.foldl joinPath parent

namespace Declaration

theorem IsWellFormed.named {d : Declaration} (h : d.IsWellFormed) :
    Text.isBlankText d.name = false := by
  cases d with
  | field head => exact h.1.named
  | block head inner => exact h.1.named
  | embed kind name reference => exact h.1

namespace StandsAt

variable {block : List Declaration} {way : List String} {d : Declaration}

theorem isWellFormed (h : StandsAt block way d) (hblock : BlockIsWellFormed block) :
    d.IsWellFormed := by
  induction h with
  | here hd => exact hblock.of_mem hd
  | inside hmem _ ih => exact ih (hblock.of_mem hmem).2.2

theorem named (h : StandsAt block way d) (hblock : BlockIsWellFormed block) :
    ∀ name ∈ way, Text.isBlankText name = false := by
  induction h with
  | here hd =>
      intro name hname
      obtain rfl := List.mem_singleton.mp hname
      exact (hblock.of_mem hd).named
  | inside hmem _ ih =>
      intro name hname
      rcases List.mem_cons.mp hname with rfl | hname
      · exact (hblock.of_mem hmem).named
      · exact ih (hblock.of_mem hmem).2.2 name hname

theorem cons (h : StandsAt block way d) (first : Declaration) :
    StandsAt (first :: block) way d := by
  cases h with
  | here hd => exact .here (List.mem_cons_of_mem _ hd)
  | inside hmem hinner => exact .inside (List.mem_cons_of_mem _ hmem) hinner

theorem ne_nil (h : StandsAt block way d) : way ≠ [] := by
  cases h with
  | here => simp
  | inside => simp

/-- Every name of a position is that of a declaration. -/
theorem exists_named (h : StandsAt block way d) {name : String} (hname : name ∈ way) :
    ∃ outer e, StandsAt block outer e ∧ e.name = name := by
  induction h with
  | @here block d hd =>
      obtain rfl := List.mem_singleton.mp hname
      exact ⟨_, d, .here hd, rfl⟩
  | @inside block inner head way d hmem _ ih =>
      rcases List.mem_cons.mp hname with rfl | hname
      · exact ⟨_, _, .here hmem, rfl⟩
      · obtain ⟨outer, e, he, heq⟩ := ih hname
        exact ⟨_, e, .inside hmem he, heq⟩

/-- The last name of a position is the declaration's own. -/
theorem dropLast_append (h : StandsAt block way d) : way.dropLast ++ [d.name] = way := by
  induction h with
  | here => rfl
  | inside _ hinner ih => rw [List.dropLast_cons_of_ne_nil hinner.ne_nil, List.cons_append, ih]

theorem joinPath_dropLast (h : StandsAt block way d) (parent : String) :
    joinPath (pathOf parent way.dropLast) d.name = pathOf parent way := by
  conv_rhs => rw [← h.dropLast_append]
  simp [pathOf]

/-- No two declarations stand at one position. -/
theorem unique (h : StandsAt block way d) (hblock : BlockIsWellFormed block) {other : Declaration}
    (hother : StandsAt block way other) : other = d := by
  induction h with
  | @here block d hd =>
      generalize hway : [d.name] = place at hother
      cases hother with
      | here hmem =>
          have hname : other.name = d.name := (List.cons.inj hway).1.symm
          exact List.inj_on_of_nodup_map hblock.nodup_names hmem hd hname
      | inside _ hinner => exact absurd (List.cons.inj hway).2.symm hinner.ne_nil
  | @inside block inner head way d hmem hd ih =>
      generalize hplace : head.name :: way = place at hother
      cases hother with
      | here => exact absurd (List.cons.inj hplace).2 hd.ne_nil
      | @inside _ otherInner otherHead otherWay _ hotherMem hinner =>
          obtain ⟨hname, rfl⟩ := List.cons.inj hplace
          have hsame : Declaration.block otherHead otherInner = .block head inner :=
            List.inj_on_of_nodup_map hblock.nodup_names hotherMem hmem hname.symm
          obtain ⟨-, rfl⟩ := Declaration.block.inj hsame
          exact ih (hblock.of_mem hmem).2.2 hinner

end StandsAt

end Declaration

namespace Compilation

theorem rule_name_compileOne {around : Surroundings} {parent : String} {d : Declaration}
    {field : CompiledField} (h : compileOne around parent d = .ok field) :
    field.rule.name = d.name := by
  cases d with
  | field head => exact (compileField_agrees h).2
  | block head inner =>
      obtain ⟨ctx, stated, fields, hctx, _, _, rfl⟩ := compileBlock_eq_ok.mp h
      rw [Declaration.name, ← fieldContext_name hctx]
      cases head.type with
      | scalar type => rfl
      | array element => rfl
  | embed kind name reference =>
      rw [compileOne] at h
      obtain ⟨t, _, rfl⟩ := compileEmbed_eq_ok h
      cases kind with
      | one => rfl
      | many => rfl

theorem rule_name_compileAll {around : Surroundings} {parent : String} {block : List Declaration}
    {fields : List (String × CompiledField)} (h : compileAll around parent block = .ok fields) :
    ∀ field ∈ fields, field.2.rule.name = field.1 := by
  induction block generalizing fields with
  | nil =>
      obtain rfl := Except.ok.inj h
      simp
  | cons d rest ih =>
      obtain ⟨first, others, hfirst, hothers, rfl⟩ := compileAll_cons_eq_ok.mp h
      intro field hfield
      rcases List.mem_cons.mp hfield with rfl | hfield
      · exact rule_name_compileOne hfirst
      · exact ih hothers field hfield

/-- A declaration compiles below the fields around it, and what holds the compiled fields of a
block leads to it by its position. -/
theorem compileAll_standsAt {around : Surroundings} {block : List Declaration} {way : List String}
    {d : Declaration} (hd : Declaration.StandsAt block way d)
    (hblock : Declaration.BlockIsWellFormed block) {parent : String}
    {fields : List (String × CompiledField)} (h : compileAll around parent block = .ok fields) :
    ∃ field, compileOne around (pathOf parent way.dropLast) d = .ok field ∧
      (∀ n : Node, n.innerProperties? = some (properties fields) →
        n.field? way = some field.node) ∧
      ∀ rule : Rule, rule.inner? = some (rules fields) → rule.field? way = some field.rule := by
  -- on the position: each name goes on with the fields of one block, below another path
  induction hd generalizing parent fields with
  | here hmem =>
      have hnodup : (fields.map Prod.fst).Nodup := map_fst_compileAll h ▸ hblock.nodup_names
      obtain ⟨field, hfield, hget⟩ := get?_compileAll h hblock.nodup_names hmem
      obtain ⟨hnode, hrule⟩ := field?_of_compiled hnodup (rule_name_compileAll h) hget []
      exact ⟨field, hfield, hnode, hrule⟩
  | @inside block inner head way d hmem hd ih =>
      have hnodup : (fields.map Prod.fst).Nodup := map_fst_compileAll h ▸ hblock.nodup_names
      obtain ⟨outer, houter, hget⟩ := get?_compileAll h hblock.nodup_names hmem
      obtain ⟨hnext, hnextRule⟩ := field?_of_compiled hnodup (rule_name_compileAll h) hget way
      obtain ⟨ctx, stated, innerFields, hctx, _, hinner, rfl⟩ := compileBlock_eq_ok.mp houter
      rw [fieldContext_path hctx] at hinner
      obtain ⟨field, hfield, hnode, hrule⟩ := ih (hblock.of_mem hmem).2.2 hinner
      rw [List.dropLast_cons_of_ne_nil hd.ne_nil]
      refine ⟨field, hfield, ?_, ?_⟩
      · intro n hn
        exact (hnext n hn).trans (hnode _ (innerProperties?_assembleBlock ..))
      · intro rule hinnerRules
        exact (hnextRule rule hinnerRules).trans (hrule _ (inner?_assembleBlock ..))

end Compilation

end FieldSchema
