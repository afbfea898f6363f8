import FieldSchema.Proofs.LineEnds

/-!
# Labels

A setting is searched by its label: the first place where the label stands, and where anything
follows it on its line, gives the rest of that line. A label is compared character by character, so
that a character which is no letter has to be there itself.
-/

namespace FieldSchema

namespace Text

/-- A line is what stands before the first line end. -/
theorem takeWhile_line {line after : List Char} (hline : ∀ c ∈ line, isLineEnd c = false)
    (hafter : ∀ c ∈ after.head?, isLineEnd c = true) :
    (line ++ after).takeWhile (fun c => !isLineEnd c) = line := by
  have hall : ∀ c ∈ line, (!isLineEnd c) = true := by
    intro c hc
    rw [hline c hc]
    rfl
  rw [List.takeWhile_append_of_pos hall]
  cases after with
  | nil => exact List.append_nil line
  | cons c after => simp [hafter c rfl]

theorem onLine_of_all {cs : List Char} (h : cs.all (fun c => !isLineEnd c) = true) :
    ∀ c ∈ cs, isLineEnd c = false := by
  simpa using h

theorem isAlpha_of_isLineEnd {c : Char} (h : isLineEnd c = true) : c.isAlpha = false := by
  simp only [isLineEnd, isLineEndCode, Char.toNat, Bool.or_eq_true, beq_iff_eq] at h
  simp only [Char.isAlpha, Char.isUpper, Char.isLower, Bool.or_eq_false_iff, Bool.and_eq_false_iff,
    decide_eq_false_iff_not, ge_iff_le, UInt32.le_iff_toNat_le]
  have hfirst : ('A').val.toNat = 65 := rfl
  have hlast : ('Z').val.toNat = 90 := rfl
  have hfirstLower : ('a').val.toNat = 97 := rfl
  have hlastLower : ('z').val.toNat = 122 := rfl
  omega

end Text

namespace Settings

/-! ## Settings by their labels -/

/-- The settings that a text can give. -/
inductive Key
  | dateExample
  | datetimeExample
  | apiVersion
  | openApiVersion
deriving Repr, DecidableEq

/-- The label under which a setting stands. -/
def Key.label : Key → String
  | .dateExample => "Date example"
  | .datetimeExample => "Datetime example"
  | .apiVersion => "API version"
  | .openApiVersion => "OpenAPI version"

/-- The value of a setting. -/
def get (s : Settings) : Key → String
  | .dateExample => s.dateExample
  | .datetimeExample => s.datetimeExample
  | .apiVersion => s.apiVersion
  | .openApiVersion => s.openApiVersion

/-- The settings by default. -/
def standard : Settings := {}

theorem eq_iff_get_eq {s t : Settings} : s = t ↔ ∀ key, s.get key = t.get key := by
  refine ⟨fun h key => by rw [h], fun h => ?_⟩
  obtain ⟨date, datetime, api, format⟩ := s
  obtain ⟨date', datetime', api', format'⟩ := t
  rw [mk.injEq]
  exact ⟨h .dateExample, h .datetimeExample, h .apiVersion, h .openApiVersion⟩

theorem get_ofText (content : String) (key : Key) :
    (ofText content).get key = (value? content key.label).getD (standard.get key) := by
  cases key <;> rfl

/-! ## Occurrences -/

/-- A text begins with a label, where ASCII letters are compared without case, and the line goes on
behind it up to a line end or the end of the text. -/
def BeginsWith (label line text : List Char) : Prop :=
  ∃ spelled after, text = spelled ++ line ++ after ∧
    spelled.map Char.toLower = label.map Char.toLower ∧
    (∀ c ∈ line, Text.isLineEnd c = false) ∧ ∀ c ∈ after.head?, Text.isLineEnd c = true

/-- The line behind the first occurrence of a label that anything follows on its line. -/
def FirstLine (label line text : List Char) : Prop :=
  line ≠ [] ∧ ∃ before rest, text = before ++ rest ∧ BeginsWith label line rest ∧
    ∀ front back, text = front ++ back → front.length < before.length →
      ∀ other, BeginsWith label other back → other = []

theorem afterLabel?_eq_some_iff {label cs after : List Char} :
    afterLabel? label cs = some after ↔
      ∃ spelled, cs = spelled ++ after ∧ spelled.map Char.toLower = label.map Char.toLower := by
  induction label generalizing cs with
  | nil => simp [afterLabel?, eq_comm]
  | cons l label ih =>
      cases cs with
      | nil => simp [afterLabel?]
      | cons c cs =>
          rw [afterLabel?]
          split
          next hsame =>
            rw [ih]
            constructor
            · rintro ⟨spelled, rfl, hspelled⟩
              exact ⟨c :: spelled, rfl, by rw [List.map_cons, List.map_cons, hspelled, hsame]⟩
            · rintro ⟨spelled, hcs, hspelled⟩
              cases spelled with
              | nil => simp at hspelled
              | cons d spelled =>
                  obtain ⟨-, rfl⟩ := List.cons.inj hcs
                  exact ⟨spelled, rfl, (List.cons.inj hspelled).2⟩
          next hother =>
            simp only [reduceCtorEq, false_iff, not_exists, not_and]
            intro spelled hcs hspelled
            cases spelled with
            | nil => simp at hspelled
            | cons d spelled =>
                obtain ⟨rfl, -⟩ := List.cons.inj hcs
                exact hother (List.cons.inj hspelled).1.symm

theorem afterLabel?_append (label rest : List Char) :
    afterLabel? label (label ++ rest) = some rest :=
  afterLabel?_eq_some_iff.mpr ⟨label, rfl, rfl⟩

/-- A line end is in no label of one line. -/
theorem afterLabel?_isLineEnd {l c : Char} (hl : Text.isLineEnd l = false)
    (hc : Text.isLineEnd c = true) (label cs : List Char) :
    afterLabel? (l :: label) (c :: cs) = none := by
  have hne : l ≠ c := by
    rintro rfl
    rw [hl] at hc
    cases hc
  exact if_neg (toLower_ne (Text.isAlpha_of_isLineEnd hc) hne)

/-- A label that begins with a character other than a letter does not begin at any other. -/
theorem afterLabel?_cons_of_ne {l c : Char} (hl : l.isAlpha = false) (h : c ≠ l)
    (label cs : List Char) : afterLabel? (l :: label) (c :: cs) = none :=
  if_neg (toLower_ne hl h).symm

theorem lineAfter?_cons_of_none {label cs : List Char} {c : Char}
    (h : afterLabel? label (c :: cs) = none) :
    lineAfter? label (c :: cs) = lineAfter? label cs := by
  rw [lineAfter?, h]

theorem beginsWith_iff {label line text : List Char} :
    BeginsWith label line text ↔
      ∃ after, afterLabel? label text = some after ∧
        line = after.takeWhile fun c => !Text.isLineEnd c := by
  constructor
  · rintro ⟨spelled, after, rfl, hspelled, hline, hafter⟩
    refine ⟨line ++ after, afterLabel?_eq_some_iff.mpr ⟨spelled, ?_, hspelled⟩, ?_⟩
    · rw [List.append_assoc]
    · exact (Text.takeWhile_line hline hafter).symm
  · rintro ⟨after, hafter, rfl⟩
    obtain ⟨spelled, rfl, hspelled⟩ := afterLabel?_eq_some_iff.mp hafter
    refine ⟨spelled, after.dropWhile fun c => !Text.isLineEnd c, ?_, hspelled, ?_, ?_⟩
    · rw [List.append_assoc, List.takeWhile_append_dropWhile]
    · exact Text.onLine_of_all List.all_takeWhile
    · intro c hc
      have hnot := List.head?_dropWhile_not (fun c => !Text.isLineEnd c) after
      rw [Option.mem_def.mp hc] at hnot
      simpa using hnot

/-- A text holds the label at its front, or else in the rest of it. -/
theorem firstLine_cons_iff {label line : List Char} {c : Char} {cs : List Char} :
    FirstLine label line (c :: cs) ↔
      (line ≠ [] ∧ BeginsWith label line (c :: cs)) ∨
        ((∀ other, BeginsWith label other (c :: cs) → other = []) ∧ FirstLine label line cs) := by
  constructor
  · rintro ⟨hline, before, rest, htext, hrest, hfirst⟩
    cases before with
    | nil =>
        obtain rfl : c :: cs = rest := htext
        exact .inl ⟨hline, hrest⟩
    | cons d before =>
        obtain ⟨rfl, rfl⟩ := List.cons.inj htext
        refine .inr ⟨hfirst [] _ rfl (Nat.zero_lt_succ _), hline, before, rest, rfl, hrest, ?_⟩
        intro front back hback hlength
        exact hfirst (c :: front) back (congrArg (c :: ·) hback) (Nat.succ_lt_succ hlength)
  · rintro (⟨hline, hfront⟩ | ⟨hnone, hline, before, rest, rfl, hrest, hfirst⟩)
    · exact ⟨hline, [], c :: cs, rfl, hfront,
        fun _ _ _ hlength => absurd hlength (Nat.not_lt_zero _)⟩
    · refine ⟨hline, c :: before, rest, rfl, hrest, ?_⟩
      intro front back hback hlength
      cases front with
      | nil =>
          obtain rfl : c :: (before ++ rest) = back := hback
          exact hnone
      | cons d front =>
          obtain ⟨-, hback⟩ := List.cons.inj hback
          exact hfirst front back hback (Nat.lt_of_succ_lt_succ hlength)

/-- The search gives the line behind the first occurrence. -/
theorem lineAfter?_eq_some_iff {label line cs : List Char} :
    lineAfter? label cs = some line ↔ FirstLine label line cs := by
  induction cs with
  | nil =>
      simp only [lineAfter?, reduceCtorEq, false_iff]
      rintro ⟨hline, before, rest, htext, ⟨spelled, after, rfl, -⟩, -⟩
      obtain ⟨-, hnil⟩ := List.append_eq_nil_iff.mp htext.symm
      exact hline (List.append_eq_nil_iff.mp (List.append_eq_nil_iff.mp hnil).1).2
  | cons c cs ih =>
      have hbegins : ∀ other, BeginsWith label other (c :: cs) ↔
          ∃ after, afterLabel? label (c :: cs) = some after ∧
            other = after.takeWhile fun d => !Text.isLineEnd d := fun _ => beginsWith_iff
      rw [lineAfter?, firstLine_cons_iff]
      simp only [hbegins]
      cases afterLabel? label (c :: cs) with
      | none => simp [ih]
      | some after =>
          simp only [Option.some.injEq, exists_eq_left']
          cases hrest : after.takeWhile fun d => !Text.isLineEnd d with
          | nil => simp [ih]
          | cons d ds =>
              simp only [forall_eq, reduceCtorEq, false_and, or_false, Option.some.injEq]
              constructor
              · rintro rfl
                exact ⟨List.cons_ne_nil d ds, rfl⟩
              · rintro ⟨-, rfl⟩
                rfl

end Settings

end FieldSchema
