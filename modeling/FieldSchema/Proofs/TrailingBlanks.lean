import FieldSchema.Proofs.Labels
import FieldSchema.Text.Trimming

/-!
# Trailing blanks

Spaces and tabs at the ends of lines change a setting in one way only: they may stand behind a label
that had nothing behind it. That label is then the first one that anything follows, its value is
empty, and the setting is the default one, whatever later lines say.
-/

namespace FieldSchema

namespace Text

/-- Spaces and tabs only. -/
def IsPadding (pad : List Char) : Prop :=
  ∀ c ∈ pad, c = ' ' ∨ c = '\t'

/-- A text goes over to another by spaces and tabs at the ends of its lines. -/
inductive PaddedTo : List Char → List Char → Prop
  | stops {pad : List Char} (hpad : IsPadding pad) : PaddedTo [] pad
  | keeps {c : Char} {cs padded : List Char} (hc : isLineEnd c = false) (h : PaddedTo cs padded) :
      PaddedTo (c :: cs) (c :: padded)
  | ends {c : Char} {cs padded pad : List Char} (hc : isLineEnd c = true) (hpad : IsPadding pad)
      (h : PaddedTo cs padded) : PaddedTo (c :: cs) (pad ++ c :: padded)

theorem IsPadding.isBlank {pad : List Char} (h : IsPadding pad) {c : Char} (hc : c ∈ pad) :
    isBlank c = true := by
  rcases h c hc with rfl | rfl <;> rfl

theorem IsPadding.isLineEnd {pad : List Char} (h : IsPadding pad) {c : Char} (hc : c ∈ pad) :
    Text.isLineEnd c = false := by
  rcases h c hc with rfl | rfl <;> rfl

/-- Characters of one line stay in front of what follows them. -/
theorem PaddedTo.append {line cs padded : List Char} (hline : ∀ c ∈ line, isLineEnd c = false)
    (h : PaddedTo cs padded) : PaddedTo (line ++ cs) (line ++ padded) := by
  induction line with
  | nil => exact h
  | cons c line ih =>
      rw [List.forall_mem_cons] at hline
      exact .keeps hline.1 (ih hline.2)

/-- The first line gets padding at its end. -/
theorem PaddedTo.takeWhile {cs padded : List Char} (h : PaddedTo cs padded) :
    ∃ pad, IsPadding pad ∧
      padded.takeWhile (fun c => !isLineEnd c) = cs.takeWhile (fun c => !isLineEnd c) ++ pad := by
  induction h with
  | stops hpad =>
      refine ⟨_, hpad, ?_⟩
      have hline := takeWhile_line (fun _ => hpad.isLineEnd)
        (fun _ (hd : _ ∈ [].head?) => nomatch hd)
      rwa [List.append_nil] at hline
  | @keeps c cs padded hc _ ih =>
      obtain ⟨pad, hpad, heq⟩ := ih
      refine ⟨pad, hpad, ?_⟩
      simp [hc, heq]
  | @ends c cs padded pad hc hpad _ _ =>
      have hend : ∀ {rest : List Char}, ∀ d ∈ (c :: rest).head?, isLineEnd d = true := by
        intro rest d hd
        obtain rfl := Option.some.inj hd
        exact hc
      refine ⟨pad, hpad, ?_⟩
      rw [takeWhile_line (fun d => hpad.isLineEnd) hend]
      simp [hc]

end Text

namespace Settings

/-! ## Labels in padded texts -/

/-- A label that begins and ends with an asterisk, on one line. -/
structure IsMarked (label : List Char) : Prop where
  head : label.head? = some '*'
  last : label.getLast? = some '*'
  onLine : ∀ c ∈ label, Text.isLineEnd c = false

theorem isMarked_bold (key : Key) : IsMarked (bold key.label) := by
  have honLine : (bold key.label).all (fun c => !Text.isLineEnd c) = true := by cases key <;> rfl
  exact ⟨by cases key <;> rfl, by cases key <;> rfl, Text.onLine_of_all honLine⟩

/-- A label that ends with an asterisk does not end in padding, nor does it go on behind it. -/
theorem afterLabel?_padding {label pad rest : List Char} (hlast : label.getLast? = some '*')
    (honLine : ∀ c ∈ label, Text.isLineEnd c = false) (hpad : Text.IsPadding pad)
    (hrest : ∀ c ∈ rest.head?, Text.isLineEnd c = true) :
    afterLabel? label (pad ++ rest) = none := by
  induction pad generalizing label with
  | nil =>
      cases label with
      | nil => cases hlast
      | cons l label =>
          cases rest with
          | nil => rfl
          | cons c rest =>
              exact afterLabel?_isLineEnd (honLine l List.mem_cons_self) (hrest c rfl) label rest
  | cons d pad ih =>
      rw [Text.IsPadding, List.forall_mem_cons] at hpad
      cases label with
      | nil => cases hlast
      | cons l label =>
          rw [List.forall_mem_cons] at honLine
          rw [List.cons_append, afterLabel?]
          split
          next hsame =>
            cases label with
            | nil =>
                obtain rfl : l = '*' := Option.some.inj hlast
                rcases hpad.1 with rfl | rfl <;> exact absurd hsame (by decide)
            | cons m label => exact ih hlast honLine.2 hpad.2
          next => rfl

/-- A label stands at the front of the padded text exactly when it stands at the front of the
text. -/
theorem afterLabel?_paddedTo {label cs padded : List Char} (hlast : ∀ c ∈ label.getLast?, c = '*')
    (honLine : ∀ c ∈ label, Text.isLineEnd c = false) (h : Text.PaddedTo cs padded) :
    (afterLabel? label cs = none ∧ afterLabel? label padded = none) ∨
      ∃ after afterPadded, afterLabel? label cs = some after ∧
        afterLabel? label padded = some afterPadded ∧ Text.PaddedTo after afterPadded := by
  induction label generalizing cs padded with
  | nil => exact .inr ⟨cs, padded, rfl, rfl, h⟩
  | cons l label ih =>
      have hmark : (l :: label).getLast? = some '*' := by
        have hsome := List.getLast?_eq_some_getLast (List.cons_ne_nil l label)
        rw [hsome, hlast _ hsome]
      cases h with
      | stops hpad =>
          have hnone := afterLabel?_padding hmark honLine hpad
            (fun _ (hd : _ ∈ [].head?) => nomatch hd)
          rw [List.append_nil] at hnone
          exact .inl ⟨rfl, hnone⟩
      | @keeps c cs padded hc h =>
          have htail : ∀ d ∈ label.getLast?, d = '*' := by
            intro d hd
            apply hlast
            rw [Option.mem_def, List.getLast?_cons, Option.mem_def.mp hd, Option.getD_some]
          rw [afterLabel?, afterLabel?]
          split
          next => exact ih htail (List.forall_mem_cons.mp honLine).2 h
          next => exact .inl ⟨rfl, rfl⟩
      | @ends c cs padded pad hc hpad h =>
          refine .inl ⟨afterLabel?_isLineEnd (honLine l List.mem_cons_self) hc label cs,
            afterLabel?_padding hmark honLine hpad ?_⟩
          intro d hd
          obtain rfl := Option.some.inj hd
          exact hc

/-- No label begins in padding. -/
theorem lineAfter?_padding {label pad : List Char} (h : IsMarked label) (hpad : Text.IsPadding pad)
    (rest : List Char) : lineAfter? label (pad ++ rest) = lineAfter? label rest := by
  obtain ⟨label, rfl⟩ := List.head?_eq_some_iff.mp h.head
  induction pad with
  | nil => rfl
  | cons d pad ih =>
      rw [Text.IsPadding, List.forall_mem_cons] at hpad
      have hne : d ≠ '*' := by rcases hpad.1 with rfl | rfl <;> decide
      rw [List.cons_append, lineAfter?_cons_of_none (afterLabel?_cons_of_ne rfl hne _ _)]
      exact ih hpad.2

/-- In the padded text the search gives the same line with padding behind it, or nothing if there
was nothing, or else padding alone. -/
theorem lineAfter?_paddedTo {label cs padded : List Char} (hlabel : IsMarked label)
    (h : Text.PaddedTo cs padded) :
    (lineAfter? label cs = none ∧ lineAfter? label padded = none) ∨
      (∃ line pad, lineAfter? label cs = some line ∧ Text.IsPadding pad ∧
        lineAfter? label padded = some (line ++ pad)) ∨
      ∃ pad, Text.IsPadding pad ∧ lineAfter? label padded = some pad := by
  induction h with
  | @stops pad hpad =>
      have hnone := lineAfter?_padding hlabel hpad []
      rw [List.append_nil] at hnone
      exact .inl ⟨rfl, hnone⟩
  | @ends c cs padded pad hc hpad h ih =>
      obtain ⟨label, rfl⟩ := List.head?_eq_some_iff.mp hlabel.head
      have hskip : ∀ rest, lineAfter? ('*' :: label) (c :: rest) = lineAfter? ('*' :: label) rest :=
        fun rest => lineAfter?_cons_of_none
          (afterLabel?_isLineEnd (hlabel.onLine '*' List.mem_cons_self) hc label rest)
      rw [lineAfter?_padding hlabel hpad, hskip, hskip]
      exact ih
  | @keeps c cs padded hc h ih =>
      have hlast : ∀ d ∈ label.getLast?, d = '*' := by
        intro d hd
        exact (Option.some.inj (hlabel.last.symm.trans hd)).symm
      rw [lineAfter?, lineAfter?]
      rcases afterLabel?_paddedTo hlast hlabel.onLine (.keeps hc h) with
        ⟨hnone, hnonePadded⟩ | ⟨after, afterPadded, hafter, hafterPadded, hpadded⟩
      · rw [hnone, hnonePadded]
        exact ih
      · obtain ⟨pad, hpad, hline⟩ := hpadded.takeWhile
        rw [hafter, hafterPadded]
        dsimp only
        rw [hline]
        cases hfirst : after.takeWhile fun d => !Text.isLineEnd d with
        | cons d ds => exact .inr (.inl ⟨d :: ds, pad, rfl, hpad, rfl⟩)
        | nil =>
            cases pad with
            | nil => exact ih
            | cons d ds => exact .inr (.inr ⟨d :: ds, hpad, rfl⟩)

/-! ## Settings of padded texts -/

/-- The first line with a label that anything follows holds nothing but blanks behind it. -/
def IsBlankFirst (key : Key) (content : String) : Prop :=
  ∃ line, FirstLine (bold key.label) line content.toList ∧ ∀ c ∈ line, Text.isBlank c = true

theorem value?_eq_none_of_isBlankFirst {key : Key} {content : String}
    (h : IsBlankFirst key content) : value? content key.label = none := by
  obtain ⟨line, hline, hblank⟩ := h
  rw [value?, lineAfter?_eq_some_iff.mpr hline]
  dsimp only
  rw [Text.trimChars_eq_nil_iff.mpr hblank]
  rfl

/-- Padding keeps the value of a label, or else it is what follows the label first. -/
theorem value?_paddedTo {content padded : String} (h : Text.PaddedTo content.toList padded.toList)
    (key : Key) : value? padded key.label = value? content key.label ∨ IsBlankFirst key padded := by
  rcases lineAfter?_paddedTo (isMarked_bold key) h with
    ⟨hnone, hnonePadded⟩ | ⟨line, pad, hline, hpad, hlinePadded⟩ | ⟨pad, hpad, hlinePadded⟩
  · left
    rw [value?, value?, hnone, hnonePadded]
  · left
    rw [value?, value?, hline, hlinePadded]
    dsimp only
    rw [Text.trimChars_append_of_isBlank fun c => hpad.isBlank]
  · right
    exact ⟨pad, lineAfter?_eq_some_iff.mp hlinePadded, fun c => hpad.isBlank⟩

/-- Spaces and tabs at the ends of lines leave the settings as they are exactly when no setting that
is not a default one has, in the padded text, only blanks behind its first label that anything
follows. -/
theorem ofText_paddedTo_iff {content padded : String}
    (h : Text.PaddedTo content.toList padded.toList) :
    ofText padded = ofText content ↔
      ∀ key, (ofText content).get key = standard.get key ∨ ¬IsBlankFirst key padded := by
  rw [eq_iff_get_eq]
  refine forall_congr' fun key => ?_
  rw [get_ofText padded]
  by_cases hblank : IsBlankFirst key padded
  · rw [value?_eq_none_of_isBlankFirst hblank, Option.getD_none, eq_comm]
    simp [hblank]
  · have hsame := (value?_paddedTo h key).resolve_right hblank
    rw [hsame, ← get_ofText]
    simp [hblank]

/-- Padding behind a label without value, while the setting that has a value keeps it. -/
theorem ofText_padded_version :
    Text.PaddedTo "**Date example:**\n**API version:** 2.0.0\n".toList
        "**Date example:**\t\n**API version:** 2.0.0  \n ".toList ∧
      ofText "**Date example:**\t\n**API version:** 2.0.0  \n " =
        ofText "**Date example:**\n**API version:** 2.0.0\n" := by
  have hpadded : Text.PaddedTo "**Date example:**\n**API version:** 2.0.0\n".toList
      "**Date example:**\t\n**API version:** 2.0.0  \n ".toList := by
    change Text.PaddedTo
      ("**Date example:**".toList ++ '\n' :: ("**API version:** 2.0.0".toList ++ ['\n']))
      ("**Date example:**".toList ++ (['\t'] ++ '\n' :: ("**API version:** 2.0.0".toList ++
        ([' ', ' '] ++ '\n' :: [' ']))))
    refine .append (Text.onLine_of_all (by cbv)) (.ends rfl (by simp [Text.IsPadding]) ?_)
    refine .append (Text.onLine_of_all (by cbv)) (.ends rfl (by simp [Text.IsPadding]) ?_)
    exact .stops (by simp [Text.IsPadding])
  refine ⟨hpadded, (ofText_paddedTo_iff hpadded).mpr fun key => ?_⟩
  cases key
  case apiVersion =>
    right
    rintro ⟨line, hline, hblank⟩
    have hfound : lineAfter? (bold Key.apiVersion.label)
        "**Date example:**\t\n**API version:** 2.0.0  \n ".toList = some " 2.0.0  ".toList := by cbv
    obtain rfl := Option.some.inj (hfound.symm.trans (lineAfter?_eq_some_iff.mpr hline))
    exact absurd (hblank '2' (by decide)) (by decide)
  all_goals exact .inl (by cbv)

/-- A blank behind a label without value hides the value of a later line. -/
theorem blank_hides_version :
    Text.PaddedTo "**API version:**\n**API version:** 2.0.0\n".toList
        "**API version:** \n**API version:** 2.0.0\n".toList ∧
      (ofText "**API version:**\n**API version:** 2.0.0\n").apiVersion = "2.0.0" ∧
      (ofText "**API version:** \n**API version:** 2.0.0\n").apiVersion = "1.0.0" := by
  have hpadded : Text.PaddedTo
      ("**API version:**".toList ++ '\n' :: ("**API version:** 2.0.0".toList ++ ['\n']))
      ("**API version:**".toList ++ ([' '] ++ '\n' :: ("**API version:** 2.0.0".toList ++
        ([] ++ '\n' :: [])))) := by
    refine .append (Text.onLine_of_all (by cbv)) (.ends rfl (by simp [Text.IsPadding]) ?_)
    refine .append (Text.onLine_of_all (by cbv)) (.ends rfl (by simp [Text.IsPadding]) ?_)
    exact .stops (by simp [Text.IsPadding])
  refine ⟨hpadded, ?_, ?_⟩
  all_goals cbv

end Settings

end FieldSchema
