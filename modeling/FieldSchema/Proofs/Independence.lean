import FieldSchema.Proofs.Containment
import FieldSchema.Proofs.FailedCalls

/-!
# Independent compilations

A compilation reads the schemas that its declarations embed and no others, and it changes the
answers for its own name only. Two compilations of different names can therefore change places, as
long as neither embeds the name of the other: each has the same outcome in either order, also when
one of them fails, and only the order in which the registry lists the names may differ.
-/

namespace FieldSchema

/-- Raw declarations embed a schema of a name, inside their blocks too. Declarations that cannot be
read embed nothing. -/
def Value.Embeds (raw : Value) (name : String) : Prop :=
  ∃ declared, Declaration.readAll raw = .ok declared ∧
    name ∈ Declaration.blockReferences declared

theorem Value.embeds_iff {raw : Value} {declared : List Declaration}
    (hread : Declaration.readAll raw = .ok declared) (name : String) :
    raw.Embeds name ↔ name ∈ Declaration.blockReferences declared := by
  constructor
  · rintro ⟨other, hother, hmem⟩
    obtain rfl := Except.ok.inj (hread.symm.trans hother)
    exact hmem
  · intro hmem
    exact ⟨declared, hread, hmem⟩

/-! ## What a compilation reads -/

/-- Surroundings that differ at most in schemas that are none of some references. -/
structure Surroundings.SameFor (references : List String) (around other : Surroundings) :
    Prop where
  lookup : ∀ reference ∈ references, other.lookup reference = around.lookup reference
  typeDefaults : other.typeDefaults = around.typeDefaults
  overrides : other.overrides = around.overrides

theorem Surroundings.SameFor.mono {references fewer : List String} {around other : Surroundings}
    (h : SameFor references around other) (hfewer : ∀ reference ∈ fewer, reference ∈ references) :
    SameFor fewer around other where
  lookup reference hreference := h.lookup reference (hfewer reference hreference)
  typeDefaults := h.typeDefaults
  overrides := h.overrides

namespace Compilation

variable {around other : Surroundings}

theorem fieldContext_congr {references : List String} (h : around.SameFor references other)
    (parent : String) (head : FieldHead) :
    fieldContext other parent head = fieldContext around parent head := by
  simp only [fieldContext, h.typeDefaults, h.overrides]

mutual

theorem compileOne_congr (parent : String) (d : Declaration)
    (h : around.SameFor d.references other) :
    compileOne other parent d = compileOne around parent d := by
  cases d with
  | field head =>
      rw [compileOne, compileOne, compileField, compileField, fieldContext_congr h]
  | block head inner =>
      have hinner : ∀ path, compileAll other path inner = compileAll around path inner := by
        intro path
        exact compileAll_congr path inner h
      simp only [compileOne, fieldContext_congr h, hinner]
  | embed kind name reference =>
      have hreference : other.lookup reference = around.lookup reference := by
        apply h.lookup
        exact List.mem_singleton.mpr rfl
      rw [compileOne, compileOne, compileEmbed, compileEmbed, hreference]
termination_by sizeOf d

/-- The compilation of a block depends on the schemas that the block embeds and on no others. -/
theorem compileAll_congr (parent : String) (block : List Declaration)
    (h : around.SameFor (Declaration.blockReferences block) other) :
    compileAll other parent block = compileAll around parent block := by
  cases block with
  | nil => rfl
  | cons d rest =>
      rw [Declaration.blockReferences] at h
      have hfirst : compileOne other parent d = compileOne around parent d := by
        apply compileOne_congr
        exact h.mono fun _ => List.mem_append_left _
      have hrest : compileAll other parent rest = compileAll around parent rest := by
        apply compileAll_congr
        exact h.mono fun _ => List.mem_append_right _
      rw [compileAll, compileAll, hfirst, hrest]
termination_by sizeOf block

end

end Compilation

theorem Schema.compile_congr {raw : Value} {around other : Surroundings} (name : String)
    (h : ∀ declared, Declaration.readAll raw = .ok declared →
      around.SameFor (Declaration.blockReferences declared) other) :
    Schema.compile name raw other = Schema.compile name raw around := by
  unfold Schema.compile
  cases hread : Declaration.readAll raw with
  | error failure => rfl
  | ok declared =>
      have hsame := h declared hread
      have hfields := Compilation.compileAll_congr "" declared hsame
      simp only [bind, Except.bind, hfields, hsame.overrides]

namespace Registry

theorem compile_outcome (r : Registry) (name : String) (raw : Value) (overrides : Record Value) :
    (r.compile name raw overrides).outcome =
      if r.frozen = true then .error (.defect (.registryFrozen name))
      else (Schema.compile name raw (r.surroundings name overrides)).map Prod.fst := by
  rcases r.compile_cases name raw overrides with
    ⟨hfrozen, _, houtcome⟩ | ⟨_, hopen, hcompile, houtcome, _⟩ | ⟨_, _, hopen, hcompile, houtcome, _⟩
  · simp [houtcome, hfrozen]
  · simp [houtcome, hopen, hcompile, Except.map]
  · simp [houtcome, hopen, hcompile, Except.map]

/-- Registries that hold the same under every name that the declarations embed compile them with
the same outcome. -/
theorem compile_outcome_congr {r other : Registry} {raw : Value} (name : String)
    (overrides : Record Value) (hfrozen : other.frozen = r.frozen)
    (hdefaults : other.typeDefaults = r.typeDefaults)
    (hheld : ∀ reference, raw.Embeds reference → other.get? reference = r.get? reference) :
    (other.compile name raw overrides).outcome = (r.compile name raw overrides).outcome := by
  have hcompile : Schema.compile name raw (other.surroundings name overrides) =
      Schema.compile name raw (r.surroundings name overrides) := by
    apply Schema.compile_congr
    intro declared hread
    refine ⟨?_, hdefaults, rfl⟩
    intro reference hreference
    have hsame := hheld reference ⟨declared, hread, hreference⟩
    simp only [surroundings, embeddable, get?_mark, hsame]
  rw [compile_outcome, compile_outcome, hfrozen, hcompile]

/-! ## What a compilation changes -/

section Compile

variable (r : Registry) (name : String) (raw : Value) (overrides : Record Value)

theorem get?_compile (other : String) :
    (r.compile name raw overrides).state.get? other =
      if other = name then (r.compile name raw overrides).outcome.toOption.or (r.get? name)
      else r.get? other := by
  cases houtcome : (r.compile name raw overrides).outcome with
  | error failure =>
      rw [(compile_error_sameAnswers houtcome).entries]
      split
      next heq => rw [heq]; rfl
      next => rfl
  | ok s =>
      rw [(compile_ok_state houtcome).1, get?_hold, get?_mark]
      rfl

theorem stateOf_compile (other : String) :
    (r.compile name raw overrides).state.stateOf other =
      if other = name then
        ((r.compile name raw overrides).outcome.toOption.map fun _ => .compiled).or
          (r.stateOf name)
      else r.stateOf other := by
  cases houtcome : (r.compile name raw overrides).outcome with
  | error failure =>
      rw [(compile_error_sameAnswers houtcome).states]
      split
      next heq => rw [heq]; rfl
      next => rfl
  | ok s =>
      rw [(compile_ok_state houtcome).1, stateOf_hold, stateOf_mark]
      split
      next => rfl
      next hne => rfl

theorem frozen_compile : (r.compile name raw overrides).state.frozen = r.frozen := by
  cases houtcome : (r.compile name raw overrides).outcome with
  | error failure => exact (compile_error_sameAnswers houtcome).frozen
  | ok s =>
      rw [(compile_ok_state houtcome).1]
      rfl

end Compile

/-! ## Two compilations -/

/-- Two registries answer alike, but may list their names in another order. -/
structure SameUpToOrder (r other : Registry) : Prop where
  names : other.names.Perm r.names
  entries : ∀ name, other.get? name = r.get? name
  states : ∀ name, other.stateOf name = r.stateOf name
  frozen : other.frozen = r.frozen

/-- Of distinct names the same are listed when the same are held. -/
theorem names_perm_of_entries {r other : Registry} (hr : r.names.Nodup) (hother : other.names.Nodup)
    (hentries : ∀ name, other.get? name = r.get? name) : other.names.Perm r.names := by
  rw [List.perm_ext_iff_of_nodup hother hr]
  intro name
  have hheld := NameTable.isSome_get?_iff r.schemas name
  have hheld' := NameTable.isSome_get?_iff other.schemas name
  have hentry : other.schemas.get? name = r.schemas.get? name := hentries name
  exact hheld'.symm.trans (hentry ▸ hheld)

variable {r : Registry} {n m : String} {first second : Value}

/-- A compilation does not notice that another name was compiled before it, unless it embeds that
name. -/
theorem compile_after_outcome (hfirst : ¬first.Embeds m) (earlier overrides : Record Value) :
    ((r.compile m second earlier).state.compile n first overrides).outcome =
      (r.compile n first overrides).outcome := by
  apply compile_outcome_congr
  · exact r.frozen_compile m second earlier
  · exact r.typeDefaults_compile m second earlier
  · intro reference hreference
    have hne : reference ≠ m := by
      rintro rfl
      exact hfirst hreference
    rw [get?_compile, if_neg hne]

/-- Compilations of different names, neither of which embeds the other, can change places. -/
theorem compile_swap (hnodup : r.names.Nodup) (hne : n ≠ m) (hfirst : ¬first.Embeds m)
    (hsecond : ¬second.Embeds n) (overrides others : Record Value) :
    SameUpToOrder ((r.compile n first overrides).state.compile m second others).state
      ((r.compile m second others).state.compile n first overrides).state := by
  have hapart : ∀ {name : String}, name = n → ¬name = m := by
    rintro _ rfl
    exact hne
  have hentries : ∀ name,
      ((r.compile m second others).state.compile n first overrides).state.get? name =
        ((r.compile n first overrides).state.compile m second others).state.get? name := by
    intro name
    simp only [get?_compile, compile_after_outcome hfirst, compile_after_outcome hsecond,
      if_neg hne, if_neg hne.symm]
    exact ite_ite_comm _ _ _ _ hapart
  have hstates : ∀ name,
      ((r.compile m second others).state.compile n first overrides).state.stateOf name =
        ((r.compile n first overrides).state.compile m second others).state.stateOf name := by
    intro name
    simp only [stateOf_compile, compile_after_outcome hfirst, compile_after_outcome hsecond,
      if_neg hne, if_neg hne.symm]
    exact ite_ite_comm _ _ _ _ hapart
  refine ⟨?_, hentries, hstates, ?_⟩
  · apply names_perm_of_entries _ _ hentries
    · exact names_nodup_compile (names_nodup_compile hnodup _ _ _) _ _ _
    · exact names_nodup_compile (names_nodup_compile hnodup _ _ _) _ _ _
  · simp only [frozen_compile]

end Registry

namespace Session

/-- After any run, two compilations of different names that do not embed each other's name commute:
in either order each has the outcome that it has alone, and the registries answer alike but for the
order in which they list the names. -/
theorem run_compile_comm (defaults : TypeDefaults) (calls : List Call) {n m : String} (hne : n ≠ m)
    {first second : Value} (overrides others : Record Value) (hfirst : ¬first.Embeds m)
    (hsecond : ¬second.Embeds n) :
    ((((start defaults).run calls).registry.compile m second others).state.compile n first
        overrides).outcome =
      (((start defaults).run calls).registry.compile n first overrides).outcome ∧
    ((((start defaults).run calls).registry.compile n first overrides).state.compile m second
        others).outcome =
      (((start defaults).run calls).registry.compile m second others).outcome ∧
    Registry.SameUpToOrder
      ((((start defaults).run calls).registry.compile n first overrides).state.compile m second
        others).state
      ((((start defaults).run calls).registry.compile m second others).state.compile n first
        overrides).state := by
  refine ⟨?_, ?_, ?_⟩
  · exact Registry.compile_after_outcome hfirst others overrides
  · exact Registry.compile_after_outcome hsecond overrides others
  · exact Registry.compile_swap (run_names_nodup defaults calls) hne hfirst hsecond overrides others

/-- Declarations of an office, which has an address inside its site. -/
def office : Value :=
  .list [.list [.text "required", .text "site", .text "object",
    .object false [("fields",
      .list [.list [.text "embeds_one", .text "home", .text "Address"]])]]]

/-- After the address book, compiling an office succeeds and compiling users anew fails, in either
order. -/
theorem office_compile_comm :
    ¬office.Embeds "User" ∧ ¬ownedAddress.Embeds "Office" ∧
    (∃ s, ((addressed.registry.compile "User" ownedAddress []).state.compile "Office" office
        []).outcome = .ok s ∧
      (addressed.registry.compile "Office" office []).outcome = .ok s) ∧
    ((addressed.registry.compile "Office" office []).state.compile "User" ownedAddress
      []).outcome = .error (.defect (.unknownReference "Nobody" (some "deed.owner"))) ∧
    Registry.SameUpToOrder
      ((addressed.registry.compile "Office" office []).state.compile "User" ownedAddress []).state
      ((addressed.registry.compile "User" ownedAddress []).state.compile "Office" office
        []).state := by
  have hoffice : ¬office.Embeds "User" := by
    rw [Value.embeds_iff rfl]
    decide
  have huser : ¬ownedAddress.Embeds "Office" := by
    rw [Value.embeds_iff rfl]
    decide
  obtain ⟨s, hs⟩ : ∃ s, (addressed.registry.compile "Office" office []).outcome = .ok s := ⟨_, rfl⟩
  have hfails : (addressed.registry.compile "User" ownedAddress []).outcome =
      .error (.defect (.unknownReference "Nobody" (some "deed.owner"))) := by rfl
  obtain ⟨hfirst, hsecond, hsame⟩ :=
    run_compile_comm .builtIn addressBook (by decide : "Office" ≠ "User") [] [] hoffice huser
  exact ⟨hoffice, huser, ⟨s, hfirst.trans hs, hs⟩, hsecond.trans hfails, hsame⟩

end Session

end FieldSchema
