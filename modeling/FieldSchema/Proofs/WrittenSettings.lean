import FieldSchema.Proofs.Labels
import FieldSchema.Text.Trimming

/-!
# Written settings

Settings that are written down line by line, each behind its label, are read back: the first line
with a label gives the value of its setting, and a setting without a line is the default one. Other
lines may stand between them as long as they hold no two asterisks in a row.
-/

namespace FieldSchema.Settings

/-! ## Lines -/

/-- The characters that set a label apart. -/
def mark : List Char := ['*', '*']

/-- A line of a text with settings. -/
inductive SettingsLine
  /-- A label with its value, which may stand between backquotes. -/
  | setting (key : Key) (value : String) (quoted : Bool)
  | other (text : String)
deriving Repr, DecidableEq

/-- A value as it is shown. -/
def shown (value : String) (quoted : Bool) : List Char :=
  if quoted then backquote :: value.toList ++ [backquote] else value.toList

namespace SettingsLine

/-- The characters of a line. -/
def chars : SettingsLine → List Char
  | .setting key value quoted => bold key.label ++ ' ' :: shown value quoted
  | .other text => text.toList

/-- The value that a line gives to a setting. -/
def value? (key : Key) : SettingsLine → Option String
  | .setting own value _ => if own = key then some value else none
  | .other _ => none

end SettingsLine

/-- The lines joined to a text. -/
def written (lines : List SettingsLine) : String :=
  String.ofList (['\n'].intercalate (lines.map SettingsLine.chars))

/-- The value that the first line of a setting gives. -/
def given? (lines : List SettingsLine) (key : Key) : Option String :=
  lines.findSome? (SettingsLine.value? key)

/-- A value that can be written down: it is not empty, has no blanks at its ends, stands on one
line, and neither holds the marks of a label nor stands between backquotes itself. -/
structure IsWritable (value : String) : Prop where
  nonempty : value ≠ ""
  trimmed : Text.trim value = value
  onLine : ∀ c ∈ value.toList, Text.isLineEnd c = false
  unmarked : ¬mark <:+: value.toList
  unquoted : ¬(value.toList.head? = some backquote ∧ value.toList.getLast? = some backquote)

/-- A line that is read as it is meant. -/
def SettingsLine.IsPlain : SettingsLine → Prop
  | .setting _ value _ => IsWritable value
  | .other text => ¬mark <:+: text.toList

/-! ## Marks -/

theorem unmarked_cons {c : Char} {cs : List Char} (h : ¬mark <:+: cs)
    (hfirst : ¬(c = '*' ∧ cs.head? = some '*')) : ¬mark <:+: c :: cs := by
  rw [List.infix_cons_iff, not_or]
  refine ⟨?_, h⟩
  rintro ⟨rest, heq⟩
  obtain ⟨rfl, rfl⟩ := List.cons.inj heq
  exact hfirst ⟨rfl, rfl⟩

theorem unmarked_concat {c : Char} {cs : List Char} (h : ¬mark <:+: cs) (hc : c ≠ '*') :
    ¬mark <:+: cs ++ [c] := by
  induction cs with
  | nil => exact unmarked_cons (by decide) (fun hboth => hc hboth.1)
  | cons d cs ih =>
      have hrest : ¬mark <:+: cs := fun hinfix => h (List.infix_cons hinfix)
      refine unmarked_cons (ih hrest) ?_
      rintro ⟨rfl, hhead⟩
      cases cs with
      | nil => exact hc (Option.some.inj hhead)
      | cons e cs =>
          obtain rfl := Option.some.inj hhead
          exact h ⟨[], cs, rfl⟩

theorem shown_unmarked {value : String} (h : IsWritable value) (quoted : Bool) :
    ¬mark <:+: shown value quoted := by
  cases quoted with
  | false => exact h.unmarked
  | true =>
      refine unmarked_cons (unmarked_concat h.unmarked (by decide)) ?_
      exact fun hboth => absurd hboth.1 (by decide)

theorem afterLabel?_mark {label cs : List Char} (h : ¬mark <+: cs) :
    afterLabel? (mark ++ label) cs = none := by
  match cs with
  | [] => rfl
  | c :: cs =>
      by_cases hc : c = '*'
      · subst hc
        match cs with
        | [] => rfl
        | d :: cs =>
            have hd : d ≠ '*' := by
              rintro rfl
              exact h ⟨cs, rfl⟩
            exact afterLabel?_cons_of_ne rfl hd label cs
      · exact afterLabel?_cons_of_ne rfl hc ('*' :: label) cs

/-- No label begins where no two asterisks are. -/
theorem lineAfter?_skip {label text rest : List Char} (h : ¬mark <:+: text ++ rest.take 1) :
    lineAfter? (mark ++ label) (text ++ rest) = lineAfter? (mark ++ label) rest := by
  induction text with
  | nil => rfl
  | cons c text ih =>
      have hmark : ¬mark <+: c :: (text ++ rest) := by
        rintro ⟨after, heq⟩
        obtain ⟨rfl, hrest⟩ := List.cons.inj heq
        apply h
        match text, rest with
        | [], [] => cases hrest
        | [], d :: rest =>
            obtain ⟨rfl, -⟩ := List.cons.inj hrest
            exact List.infix_rfl
        | d :: text, rest =>
            obtain ⟨rfl, -⟩ := List.cons.inj hrest
            exact ⟨[], text ++ rest.take 1, rfl⟩
      rw [List.cons_append, lineAfter?_cons_of_none (afterLabel?_mark hmark)]
      exact ih fun hinfix => h (List.infix_cons hinfix)

/-! ## One line -/

/-- What stands between the marks of a label. -/
def title (key : Key) : List Char :=
  key.label.toList ++ [':']

theorem bold_eq (key : Key) : bold key.label = mark ++ (title key ++ mark) := by
  cases key <;> rfl

/-- The label of a setting gives the rest of its line. -/
theorem lineAfter?_own {key : Key} {line tail : List Char} (hne : line ≠ [])
    (hline : ∀ c ∈ line, Text.isLineEnd c = false) (htail : ∀ c ∈ tail.head?, c = '\n') :
    lineAfter? (bold key.label) (bold key.label ++ (line ++ tail)) = some line := by
  have hends : ∀ c ∈ tail.head?, Text.isLineEnd c = true := by
    intro c hc
    rw [htail c hc]
    rfl
  rw [lineAfter?_eq_some_iff]
  refine ⟨hne, [], _, rfl, beginsWith_iff.mpr ⟨line ++ tail, afterLabel?_append _ _, ?_⟩, ?_⟩
  · exact (Text.takeWhile_line hline hends).symm
  · exact fun _ _ _ hlength => absurd hlength (Nat.not_lt_zero _)

/-- No label is taken for another one, nor does one begin at the end of another. -/
theorem lineAfter?_otherLabel {key other : Key} (h : other ≠ key) (rest : List Char) :
    lineAfter? (bold key.label) (bold other.label ++ ' ' :: rest) =
      lineAfter? (bold key.label) (['*', ' '] ++ rest) := by
  have hfront : afterLabel? (bold key.label) (bold other.label ++ ' ' :: rest) = none := by
    cases key <;> cases other <;> first | rfl | exact absurd rfl h
  have hclosing : afterLabel? (bold key.label) ('*' :: '*' :: ' ' :: rest) = none := by
    cases key <;> rfl
  have hinner : ¬mark <:+: '*' :: title other ++ ['*'] := by
    cases other <;> decide
  have hshape : bold other.label ++ ' ' :: rest =
      '*' :: (('*' :: title other) ++ '*' :: '*' :: ' ' :: rest) := by
    rw [bold_eq]
    simp [mark]
  rw [hshape] at hfront ⊢
  calc lineAfter? (bold key.label) ('*' :: (('*' :: title other) ++ '*' :: '*' :: ' ' :: rest))
      = lineAfter? (bold key.label) (('*' :: title other) ++ '*' :: '*' :: ' ' :: rest) :=
        lineAfter?_cons_of_none hfront
    _ = lineAfter? (bold key.label) ('*' :: '*' :: ' ' :: rest) := by
        rw [bold_eq key]
        exact lineAfter?_skip hinner
    _ = lineAfter? (bold key.label) (['*', ' '] ++ rest) :=
        lineAfter?_cons_of_none hclosing

theorem unmarked_append {text tail : List Char} (h : ¬mark <:+: text)
    (htail : ∀ c ∈ tail.head?, c = '\n') : ¬mark <:+: text ++ tail.take 1 := by
  cases tail with
  | nil => rwa [List.take_nil, List.append_nil]
  | cons c tail =>
      obtain rfl := htail c rfl
      exact unmarked_concat h (by decide)

/-- A line that gives a setting no value has nothing to do with it. -/
theorem lineAfter?_chars {key : Key} {line : SettingsLine} {tail : List Char} (h : line.IsPlain)
    (hnone : line.value? key = none) (htail : ∀ c ∈ tail.head?, c = '\n') :
    lineAfter? (bold key.label) (line.chars ++ tail) = lineAfter? (bold key.label) tail := by
  cases line with
  | setting own value quoted =>
      have hother : own ≠ key := by
        rintro rfl
        simp [SettingsLine.value?] at hnone
      have hunmarked : ¬mark <:+: '*' :: ' ' :: shown value quoted :=
        unmarked_cons
          (unmarked_cons (shown_unmarked h quoted) fun hboth => absurd hboth.1 (by decide))
          fun hboth => absurd (Option.some.inj hboth.2) (by decide)
      rw [SettingsLine.chars, List.append_assoc, List.cons_append, lineAfter?_otherLabel hother,
        bold_eq key]
      exact lineAfter?_skip (unmarked_append hunmarked htail)
  | other text =>
      rw [SettingsLine.chars, bold_eq key]
      exact lineAfter?_skip (unmarked_append h htail)

/-- A value is read back from the form in which it is shown. -/
theorem unquoted_shown {value : String} (h : IsWritable value) (quoted : Bool) :
    unquoted (Text.trimChars (' ' :: shown value quoted)) = value.toList := by
  have htrim : Text.trimChars value.toList = value.toList := by
    have hvalue := congrArg String.toList h.trimmed
    rwa [Text.trim, String.toList_ofList] at hvalue
  rw [Text.trimChars_cons_of_isBlank rfl]
  cases quoted with
  | false =>
      rw [shown, if_neg Bool.false_ne_true, htrim]
      have hbetween := h.unquoted
      unfold unquoted
      split
      next first second rest hcs =>
        rw [hcs, List.head?_cons, List.getLast?_cons_cons, Option.some.injEq] at hbetween
        exact if_neg hbetween
      next => rfl
  | true =>
      rw [shown, if_pos rfl, Text.trimChars_between rfl rfl]
      cases hcs : value.toList with
      | nil => exact absurd (String.toList_eq_nil_iff.mp hcs) h.nonempty
      | cons first rest =>
          have hlast : (first :: rest ++ [backquote]).getLast? = some backquote :=
            List.getLast?_concat
          rw [List.cons_append] at hlast
          rw [List.cons_append, List.cons_append, unquoted, if_pos ⟨rfl, hlast⟩]
          rw [← List.cons_append, List.dropLast_concat]

theorem shown_onLine {value : String} (h : IsWritable value) (quoted : Bool) :
    ∀ c ∈ ' ' :: shown value quoted, Text.isLineEnd c = false := by
  have hquote : Text.isLineEnd backquote = false := rfl
  refine List.forall_mem_cons.mpr ⟨rfl, ?_⟩
  cases quoted with
  | false => exact h.onLine
  | true =>
      refine List.forall_mem_cons.mpr ⟨hquote, List.forall_mem_append.mpr ⟨h.onLine, ?_⟩⟩
      exact List.forall_mem_singleton.mpr hquote

/-! ## Texts -/

/-- The first line stands in front of the text of the others. -/
theorem exists_toList_written_cons (line : SettingsLine) (lines : List SettingsLine) :
    ∃ tail, (written (line :: lines)).toList = line.chars ++ tail ∧ (∀ c ∈ tail.head?, c = '\n') ∧
      ∀ key : Key, lineAfter? (bold key.label) tail =
        lineAfter? (bold key.label) (written lines).toList := by
  cases lines with
  | nil => exact ⟨[], by simp [written], by simp, fun _ => rfl⟩
  | cons next lines =>
      refine ⟨'\n' :: (written (next :: lines)).toList, ?_, ?_, ?_⟩
      · simp [written, List.intercalate_cons_cons]
      · intro c hc
        exact (Option.some.inj hc).symm
      · intro key
        rw [bold_eq]
        exact lineAfter?_cons_of_none (afterLabel?_cons_of_ne rfl (by decide) _ _)

/-- The search for a label ends at the first line of its setting. -/
theorem lineAfter?_written {lines : List SettingsLine} (h : ∀ line ∈ lines, line.IsPlain)
    (key : Key) :
    (lineAfter? (bold key.label) (written lines).toList = none ∧ given? lines key = none) ∨
      ∃ value quoted, IsWritable value ∧ given? lines key = some value ∧
        lineAfter? (bold key.label) (written lines).toList =
          some (' ' :: shown value quoted) := by
  induction lines with
  | nil => exact .inl ⟨rfl, rfl⟩
  | cons line lines ih =>
      rw [List.forall_mem_cons] at h
      obtain ⟨tail, htext, htail, hsearch⟩ := exists_toList_written_cons line lines
      rw [htext, given?, List.findSome?_cons]
      cases hvalue : line.value? key with
      | none =>
          rw [lineAfter?_chars h.1 hvalue htail, hsearch]
          exact ih h.2
      | some value =>
          right
          cases line with
          | other text => cases hvalue
          | setting own value quoted =>
              simp only [SettingsLine.value?, Option.ite_none_right_eq_some,
                Option.some.injEq] at hvalue
              obtain ⟨rfl, rfl⟩ := hvalue
              refine ⟨value, quoted, h.1, rfl, ?_⟩
              rw [SettingsLine.chars, List.append_assoc]
              exact lineAfter?_own (List.cons_ne_nil _ _) (shown_onLine h.1 quoted) htail

theorem value?_written {lines : List SettingsLine} (h : ∀ line ∈ lines, line.IsPlain) (key : Key) :
    value? (written lines) key.label = given? lines key := by
  rcases lineAfter?_written h key with ⟨hnone, hgiven⟩ | ⟨value, quoted, hvalue, hgiven, hline⟩
  · rw [value?, hnone, hgiven]
  · have hne : value.toList ≠ [] := mt String.toList_eq_nil_iff.mp hvalue.nonempty
    rw [value?, hline, hgiven]
    dsimp only
    rw [unquoted_shown hvalue]
    split
    next hnil => exact absurd hnil hne
    next => rw [String.ofList_toList]

/-- Settings that are written down are read back: each setting has the value of its first line, or
else the default one. -/
theorem get_ofText_written {lines : List SettingsLine} (h : ∀ line ∈ lines, line.IsPlain)
    (key : Key) :
    (ofText (written lines)).get key = (given? lines key).getD (standard.get key) := by
  rw [get_ofText, value?_written h]

/-- Two settings, one of them between backquotes, among other lines. -/
def sampleLines : List SettingsLine :=
  [.other "# Settings", .setting .openApiVersion "3.1.0" false, .other "* new: 2 * 3",
    .setting .dateExample "2020-01-31" true]

theorem get_ofText_sampleLines :
    (∀ line ∈ sampleLines, line.IsPlain) ∧
      (ofText (written sampleLines)).get .openApiVersion = "3.1.0" ∧
      (ofText (written sampleLines)).get .dateExample = "2020-01-31" ∧
      (ofText (written sampleLines)).get .apiVersion = "1.0.0" := by
  have hversion : IsWritable "3.1.0" :=
    ⟨by decide, by decide, Text.onLine_of_all (by cbv), by decide, by decide⟩
  have hdate : IsWritable "2020-01-31" :=
    ⟨by decide, by decide, Text.onLine_of_all (by cbv), by decide, by decide⟩
  have hlines : ∀ line ∈ sampleLines, line.IsPlain := by
    simp only [sampleLines, List.forall_mem_cons, List.not_mem_nil, false_implies, implies_true,
      and_true, SettingsLine.IsPlain]
    exact ⟨by decide, hversion, by decide, hdate⟩
  refine ⟨hlines, ?_, ?_, ?_⟩
  all_goals exact get_ofText_written hlines _

end FieldSchema.Settings
