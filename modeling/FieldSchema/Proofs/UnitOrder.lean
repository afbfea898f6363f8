import FieldSchema.Text.Units
import Mathlib.Data.List.Lex
import Mathlib.Data.List.Sort

/-!
# Texts in the order of their units

A text can be read back from its sixteen-bit units, so the units order texts without ties. Names that
are sorted by their units stand in ascending order, and this order is the same however the names
were listed before.
-/

namespace FieldSchema.Text

/-- No character's code is half of a surrogate pair. -/
theorem toNat_not_surrogate (c : Char) : c.toNat < 0xD800 ∨ 0xDFFF < c.toNat ∧ c.toNat < 0x110000 :=
  c.valid

/-- The units of the first character can be told from what follows them. -/
theorem charUnits_append_inj {c d : Char} {rest other : List Nat}
    (h : charUnits c ++ rest = charUnits d ++ other) : c = d ∧ rest = other := by
  have hc := toNat_not_surrogate c
  have hd := toNat_not_surrogate d
  have hcode : c.toNat = d.toNat → c = d := fun heq => Char.ext (UInt32.toNat_inj.mp heq)
  dsimp only [charUnits] at h
  split at h <;> split at h
  next =>
    obtain ⟨hfirst, hrest⟩ := List.cons.inj h
    exact ⟨hcode hfirst, hrest⟩
  next =>
    -- one unit is a code of its own, the other begins a pair
    obtain ⟨hfirst, -⟩ := List.cons.inj h
    omega
  next =>
    obtain ⟨hfirst, -⟩ := List.cons.inj h
    omega
  next =>
    obtain ⟨hhigh, htail⟩ := List.cons.inj h
    obtain ⟨hlow, hrest⟩ := List.cons.inj htail
    refine ⟨hcode ?_, hrest⟩
    omega

theorem charUnits_ne_nil (c : Char) : charUnits c ≠ [] := by
  dsimp only [charUnits]
  split <;> simp

/-- The units of a text determine the text. -/
theorem units_injective : Function.Injective units := by
  have hchars : ∀ cs ds : List Char, cs.flatMap charUnits = ds.flatMap charUnits → cs = ds := by
    intro cs
    induction cs with
    | nil =>
        intro ds h
        cases ds with
        | nil => rfl
        | cons d ds => simp [charUnits_ne_nil] at h
    | cons c cs ih =>
        intro ds h
        cases ds with
        | nil => simp [charUnits_ne_nil] at h
        | cons d ds =>
            rw [List.flatMap_cons, List.flatMap_cons] at h
            obtain ⟨rfl, hrest⟩ := charUnits_append_inj h
            rw [ih ds hrest]
  intro s t h
  exact String.toList_inj.mp (hchars _ _ h)

theorem unitLE_iff (a b : String) : unitLE a b = true ↔ units a ≤ units b := by
  simp [unitLE]

/-- Sorted names ascend in their units. -/
theorem pairwise_sortByUnits (names : List String) :
    (sortByUnits names).Pairwise fun a b => units a ≤ units b := by
  have hsorted : (sortByUnits names).Pairwise fun a b => unitLE a b = true := by
    apply List.pairwise_mergeSort
    · intro a b c hab hbc
      rw [unitLE_iff] at hab hbc ⊢
      exact le_trans hab hbc
    · intro a b
      rw [Bool.or_eq_true, unitLE_iff, unitLE_iff]
      exact le_total _ _
  exact hsorted.imp (unitLE_iff _ _).mp

theorem sortByUnits_perm (names : List String) : (sortByUnits names).Perm names :=
  List.mergeSort_perm names unitLE

/-- Distinct names are strictly ascending once they are sorted. -/
theorem pairwise_lt_sortByUnits {names : List String} (h : names.Nodup) :
    (sortByUnits names).Pairwise fun a b => units a < units b := by
  have hdistinct : (sortByUnits names).Nodup := (sortByUnits_perm names).nodup_iff.mpr h
  apply ((pairwise_sortByUnits names).and hdistinct).imp
  rintro a b ⟨hle, hne⟩
  exact lt_of_le_of_ne hle fun heq => hne (units_injective heq)

/-- However names are listed, sorting them gives one list. -/
theorem sortByUnits_eq_of_perm {names others : List String} (h : names.Perm others) :
    sortByUnits names = sortByUnits others := by
  have hperm : (sortByUnits names).Perm (sortByUnits others) :=
    (sortByUnits_perm names).trans (h.trans (sortByUnits_perm others).symm)
  apply hperm.eq_of_pairwise
  · intro a b _ _ hab hba
    exact units_injective (le_antisymm hab hba)
  · exact pairwise_sortByUnits names
  · exact pairwise_sortByUnits others

end FieldSchema.Text
