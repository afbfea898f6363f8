import Mathlib
import FieldSchema.Project
import FieldSchema.Text.Trimming

/-!
# Headings of a project's notes

A heading is a line of marks with a blank and a text behind them; its level is the number of its
marks. The notes of a text are meant to be the text of the first heading of the first level, and the
lines below it up to the next heading of any level. They are read so exactly when no mark with
blanks only stands before the title, and when the description ends in a heading of a lower level, or
nothing that looks like a heading follows it.
-/

namespace FieldSchema

namespace Text

/-- The pieces of a text hold characters of the text other than the separator. -/
theorem mem_of_mem_pieces {separator : Char} {cs piece : List Char}
    (h : piece ∈ pieces separator cs) {c : Char} (hc : c ∈ piece) : c ∈ cs ∧ c ≠ separator := by
  induction cs generalizing piece with
  | nil =>
      obtain rfl := List.mem_singleton.mp h
      cases hc
  | cons d rest ih =>
      rw [pieces] at h
      split at h
      next =>
        rcases List.mem_cons.mp h with rfl | h
        · cases hc
        · exact (ih h hc).imp_left (List.mem_cons_of_mem d)
      next hd =>
        cases hpieces : pieces separator rest with
        | nil => exact absurd hpieces (pieces_ne_nil separator rest)
        | cons first others =>
            simp only [hpieces] at h ih
            rcases List.mem_cons.mp h with rfl | h
            · rcases List.mem_cons.mp hc with rfl | hc
              · exact ⟨List.mem_cons_self, hd⟩
              · exact (ih List.mem_cons_self hc).imp_left (List.mem_cons_of_mem d)
            · exact (ih (List.mem_cons_of_mem _ h) hc).imp_left (List.mem_cons_of_mem d)

end Text

/-- Texts that are joined behind others make the whole longer, unless there are none. -/
theorem intercalate_append_eq_iff {texts others : List String} (h : ∀ text ∈ others, text ≠ "") :
    String.intercalate " " (texts ++ others) = String.intercalate " " texts ↔ others = [] := by
  refine ⟨fun heq => ?_, fun heq => by rw [heq, List.append_nil]⟩
  by_contra hothers
  have hlength := congrArg String.length heq
  by_cases htexts : texts = []
  · obtain ⟨text, more, rfl⟩ := List.exists_cons_of_ne_nil hothers
    have htext : text.length ≠ 0 := mt String.length_eq_zero_iff.mp (h text List.mem_cons_self)
    subst htexts
    cases more with
    | nil => simp_all
    | cons next more =>
        simp only [List.nil_append, String.intercalate_cons_cons, String.intercalate_nil,
          String.length_append, String.length_empty] at hlength
        omega
  · have hblank : " ".length = 1 := rfl
    rw [String.intercalate_append_of_ne_nil htexts hothers, String.length_append,
      String.length_append, hblank] at hlength
    omega

namespace ProjectNotes

/-! ## Headings -/

/-- The marks at the front of a line. -/
def marks (line : List Char) : List Char :=
  line.takeWhile (· == '#')

/-- What stands in a line behind its marks. -/
def behindMarks (line : List Char) : List Char :=
  line.dropWhile (· == '#')

/-- The level of a heading: the number of its marks. A heading has a blank behind them, and a text
that is not blank. -/
def headingLevel? (line : List Char) : Option Nat :=
  match marks line, behindMarks line with
  | _ :: others, blank :: text =>
      if Text.isBlank blank && text.any (!Text.isBlank ·) then some (others.length + 1) else none
  | _, _ => none

/-- A heading of any level. -/
def isHeading (line : List Char) : Bool :=
  (headingLevel? line).isSome

/-- A heading of the first level. -/
def isTitle (line : List Char) : Bool :=
  headingLevel? line == some 1

/-- A line that begins with two marks. -/
def isMarkedTwice (line : List Char) : Bool :=
  2 ≤ (marks line).length

/-- A mark with blanks behind it, two at least, and nothing else. -/
def isEmptyTitle : List Char → Bool
  | '#' :: blanks => 2 ≤ blanks.length && blanks.all Text.isBlank
  | _ => false

/-! ## What is meant -/

/-- The lines of a text. -/
def linesOf (content : String) : List (List Char) :=
  Text.pieces '\n' content.toList

/-- The lines before the title. -/
def beforeTitle (lines : List (List Char)) : List (List Char) :=
  lines.takeWhile fun line => !isTitle line

/-- The lines behind the title. -/
def behindTitle (lines : List (List Char)) : List (List Char) :=
  (lines.dropWhile fun line => !isTitle line).tail

/-- The texts of the lines that are not blank, without the blanks around them. -/
def kept (lines : List (List Char)) : List String :=
  ((lines.map Text.trimChars).filter (· ≠ [])).map String.ofList

/-- The notes that the lines of a text are meant to give: the title, and what stands between it and
the next heading. -/
def meant (lines : List (List Char)) : ProjectNotes :=
  match lines.find? isTitle with
  | none => {}
  | some title =>
      { name := String.ofList (Text.trimChars (behindMarks title))
        description :=
          String.intercalate " " (kept ((behindTitle lines).takeWhile fun line => !isHeading line)) }

/-! ## Titles -/

theorem isTitle_marked (c : Char) (text : List Char) :
    isTitle ('#' :: c :: text) = (Text.isBlank c && text.any (!Text.isBlank ·)) := by
  by_cases hc : c = '#'
  · subst hc
    have hmark : Text.isBlank '#' = false := by decide
    rw [hmark, Bool.false_and]
    simp only [isTitle, headingLevel?, marks, behindMarks, List.takeWhile_cons, List.dropWhile_cons,
      beq_self_eq_true, if_true]
    split
    next others _ _ _ hmarks _ =>
      obtain ⟨-, rfl⟩ := List.cons.inj hmarks
      split
      next => simp
      next => rfl
    next => rfl
  · have hmark : (c == '#') = false := beq_false_of_ne hc
    simp only [isTitle, headingLevel?, marks, behindMarks, List.takeWhile_cons, List.dropWhile_cons,
      beq_self_eq_true, if_true, hmark, Bool.false_eq_true, if_false]
    cases Text.isBlank c && text.any (!Text.isBlank ·) <;> rfl

theorem isTitle_iff {line : List Char} :
    isTitle line = true ↔ ∃ blank text, line = '#' :: blank :: text ∧
      Text.isBlank blank = true ∧ text.any (!Text.isBlank ·) = true := by
  constructor
  · intro h
    match line, h with
    | [], h => cases h
    | [c], h =>
        by_cases hc : c = '#' <;> simp [isTitle, headingLevel?, marks, behindMarks, hc] at h
    | c :: blank :: text, h =>
        by_cases hc : c = '#'
        · subst hc
          rw [isTitle_marked, Bool.and_eq_true] at h
          exact ⟨blank, text, rfl, h⟩
        · have hmark : (c == '#') = false := beq_false_of_ne hc
          simp [isTitle, headingLevel?, marks, hmark] at h
  · rintro ⟨blank, text, rfl, h⟩
    rw [isTitle_marked, Bool.and_eq_true]
    exact h

theorem isMarkedTwice_iff {line : List Char} :
    isMarkedTwice line = true ↔ ∃ text, line = '#' :: '#' :: text := by
  constructor
  · intro h
    match line, h with
    | [], h => cases h
    | [c], h => by_cases hc : c = '#' <;> simp [isMarkedTwice, marks, hc] at h
    | c :: d :: text, h =>
        by_cases hc : c = '#'
        · by_cases hd : d = '#'
          · exact ⟨text, by rw [hc, hd]⟩
          · simp [isMarkedTwice, marks, hc, hd] at h
        · simp [isMarkedTwice, marks, hc] at h
  · rintro ⟨text, rfl⟩
    simp [isMarkedTwice, marks]

theorem isEmptyTitle_iff {line : List Char} :
    isEmptyTitle line = true ↔
      ∃ blanks, line = '#' :: blanks ∧ 2 ≤ blanks.length ∧ ∀ c ∈ blanks, Text.isBlank c = true := by
  unfold isEmptyTitle
  split
  next blanks => simp
  next hne =>
    simp only [Bool.false_eq_true, false_iff]
    rintro ⟨blanks, rfl, -⟩
    exact hne blanks rfl

theorem behindMarks_of_isBlank {blank : Char} (h : Text.isBlank blank = true) (text : List Char) :
    behindMarks ('#' :: blank :: text) = blank :: text := by
  have hmark : ¬(blank == '#') = true := by
    rw [beq_iff_eq]
    rintro rfl
    cases h
  rw [behindMarks, List.dropWhile_cons_of_pos rfl]
  exact List.dropWhile_cons_of_neg hmark

/-- A title has a text. -/
theorem trimChars_behindMarks {line : List Char} (h : isTitle line = true) :
    Text.trimChars (behindMarks line) ≠ [] := by
  obtain ⟨blank, text, rfl, hblank, htext⟩ := isTitle_iff.mp h
  rw [behindMarks_of_isBlank hblank, Text.trimChars_cons_of_isBlank hblank, ne_eq,
    Text.trimChars_eq_nil_iff]
  intro hblanks
  obtain ⟨c, hc, hnot⟩ := List.any_eq_true.mp htext
  rw [hblanks c hc] at hnot
  cases hnot

theorem isEmptyTitle_marked (rest : List Char) :
    isEmptyTitle ('#' :: rest) = (2 ≤ rest.length && rest.all Text.isBlank) := rfl

/-- A mark with blanks only is recognised when there are two of them. -/
theorem heading?_blanks {blanks : List Char} (hblanks : ∀ c ∈ blanks, Text.isBlank c = true)
    (hends : ∀ c ∈ blanks, Text.isLineEnd c = false) :
    heading? ('#' :: blanks) = if 2 ≤ blanks.length then some "" else none := by
  have hdrop : blanks.dropWhile Text.isBlank = [] := List.dropWhile_eq_nil_iff.mpr hblanks
  have htake : blanks.takeWhile Text.isBlank = blanks := List.takeWhile_eq_self_iff.mpr hblanks
  simp only [heading?, hdrop, htake]
  rw [← List.length_reverse]
  match hreverse : blanks.reverse with
  | [] | [_] => rfl
  | last :: second :: others =>
      have hlast : last ∈ blanks := List.mem_reverse.mp (hreverse ▸ List.mem_cons_self)
      have hlength : 2 ≤ (last :: second :: others).length := by simp
      rw [if_pos hlength]
      exact if_neg (Bool.eq_false_iff.mp (hends last hlast))

/-- A mark with a text somewhere behind it is recognised when a blank comes first. -/
theorem heading?_text {c : Char} {text : List Char}
    (htext : (c :: text).any (!Text.isBlank ·) = true)
    (hends : ∀ d ∈ c :: text, Text.isLineEnd d = false) :
    heading? ('#' :: c :: text) =
      if Text.isBlank c then some (String.ofList (Text.trimChars (c :: text))) else none := by
  rw [← Text.trimChars_dropWhile]
  cases hdrop : (c :: text).dropWhile Text.isBlank with
  | nil =>
      obtain ⟨d, hd, hnot⟩ := List.any_eq_true.mp htext
      rw [List.dropWhile_eq_nil_iff.mp hdrop d hd] at hnot
      cases hnot
  | cons first others =>
      have hnoEnd : (first :: others).any Text.isLineEnd = false := by
        rw [← hdrop, List.any_eq_false]
        intro d hd
        rw [hends d ((List.dropWhile_sublist _).mem hd)]
        exact Bool.false_ne_true
      simp only [heading?, hdrop, hnoEnd, Bool.or_false, List.takeWhile_cons]
      cases Text.isBlank c <;> rfl

/-- The reader recognises a title, and besides it only a mark with blanks. -/
theorem heading?_eq {line : List Char} (h : ∀ c ∈ line, Text.isLineEnd c = false) :
    heading? line =
      if isTitle line then some (String.ofList (Text.trimChars (behindMarks line)))
      else if isEmptyTitle line then some "" else none := by
  by_cases hmark : ∃ rest, line = '#' :: rest
  · obtain ⟨rest, rfl⟩ := hmark
    have hends : ∀ c ∈ rest, Text.isLineEnd c = false := (List.forall_mem_cons.mp h).2
    by_cases hblanks : ∀ c ∈ rest, Text.isBlank c = true
    · have htitle : ¬isTitle ('#' :: rest) = true := by
        rw [isTitle_iff]
        rintro ⟨blank, text, hline, -, htext⟩
        obtain ⟨-, rfl⟩ := List.cons.inj hline
        obtain ⟨c, hc, hnot⟩ := List.any_eq_true.mp htext
        rw [hblanks c (List.mem_cons_of_mem _ hc)] at hnot
        cases hnot
      rw [heading?_blanks hblanks hends, if_neg htitle, isEmptyTitle_marked,
        List.all_eq_true.mpr hblanks, Bool.and_true]
      simp only [decide_eq_true_eq]
    · have hempty : ¬isEmptyTitle ('#' :: rest) = true := by
        rw [isEmptyTitle_marked, Bool.and_eq_true, List.all_eq_true]
        exact fun hboth => hblanks hboth.2
      cases rest with
      | nil => exact absurd (fun c hc => nomatch hc) hblanks
      | cons c text =>
          have hany : (c :: text).any (!Text.isBlank ·) = true := by
            by_contra hall
            apply hblanks
            simpa using hall
          rw [heading?_text hany hends, if_neg hempty, isTitle_marked]
          cases hc : Text.isBlank c with
          | false => rfl
          | true =>
              rw [List.any_cons, hc, Bool.not_true, Bool.false_or] at hany
              simp only [behindMarks_of_isBlank hc, Bool.true_and, hany, if_true]
  · rw [not_exists] at hmark
    have htitle : ¬isTitle line = true := by
      rw [isTitle_iff]
      rintro ⟨blank, text, hline, -⟩
      exact hmark _ hline
    have hempty : ¬isEmptyTitle line = true := by
      rw [isEmptyTitle_iff]
      rintro ⟨blanks, hline, -⟩
      exact hmark _ hline
    rw [if_neg htitle, if_neg hempty]
    exact heading?.eq_2 line hmark

/-! ## Descriptions -/

theorem kept_append (lines others : List (List Char)) :
    kept (lines ++ others) = kept lines ++ kept others := by
  simp [kept]

theorem kept_cons_of_blank {line : List Char} (h : Text.trimChars line = [])
    (lines : List (List Char)) : kept (line :: lines) = kept lines := by
  simp [kept, h]

theorem kept_cons {line : List Char} (h : Text.trimChars line ≠ []) (lines : List (List Char)) :
    kept (line :: lines) = String.ofList (Text.trimChars line) :: kept lines := by
  simp [kept, h]

theorem ne_empty_of_mem_kept {lines : List (List Char)} {text : String} (h : text ∈ kept lines) :
    text ≠ "" := by
  obtain ⟨chars, hchars, rfl⟩ := List.mem_map.mp h
  have hne : chars ≠ [] := of_decide_eq_true (List.mem_filter.mp hchars).2
  exact mt String.ofList_eq_empty_iff.mp hne

/-- The description that is read goes on up to a line that begins with two marks. -/
theorem describingLines_eq (lines : List (List Char)) :
    describingLines lines = kept (lines.takeWhile fun line => !isMarkedTwice line) := by
  induction lines using describingLines.induct with
  | case1 => rfl
  | case2 text rest =>
      have hmarked : isMarkedTwice ('#' :: '#' :: text) = true := isMarkedTwice_iff.mpr ⟨text, rfl⟩
      rw [describingLines, List.takeWhile_cons_of_neg (by simp [hmarked])]
      rfl
  | case3 line rest hline hblank ih =>
      have hmarked : isMarkedTwice line = false := by
        rw [Bool.eq_false_iff, ne_eq, isMarkedTwice_iff]
        rintro ⟨text, rfl⟩
        exact hline text rfl
      rw [describingLines.eq_3 _ _ hline, List.takeWhile_cons_of_pos (by simp [hmarked]),
        kept_cons_of_blank hblank, ← ih, hblank]
  | case4 line rest hline hkept ih =>
      have hmarked : isMarkedTwice line = false := by
        rw [Bool.eq_false_iff, ne_eq, isMarkedTwice_iff]
        rintro ⟨text, rfl⟩
        exact hline text rfl
      rw [describingLines.eq_3 _ _ hline, List.takeWhile_cons_of_pos (by simp [hmarked]),
        kept_cons hkept, ← ih]
      split
      next hblank => exact absurd hblank hkept
      next => rfl

/-- A line that is not blank makes the joined text longer. -/
theorem joined_kept_ne {line : List Char} (h : Text.trimChars line ≠ [])
    (lines others : List (List Char)) :
    String.intercalate " " (kept (lines ++ line :: others)) ≠
      String.intercalate " " (kept lines) := by
  rw [kept_append, ne_eq, intercalate_append_eq_iff fun text htext => ne_empty_of_mem_kept htext,
    kept_cons h]
  exact List.cons_ne_nil _ _

theorem trimChars_ne_nil_of_isHeading {line : List Char} (h : isHeading line = true) :
    Text.trimChars line ≠ [] := by
  have hmark : '#' ∈ line := by
    cases hmarks : marks line with
    | nil => simp [isHeading, headingLevel?, hmarks] at h
    | cons c others =>
        have hc : c ∈ marks line := hmarks ▸ List.mem_cons_self
        obtain rfl : c = '#' := by simpa using List.mem_takeWhile_imp (p := (· == '#')) hc
        exact (List.takeWhile_sublist _).mem hc
  rw [ne_eq, Text.trimChars_eq_nil_iff]
  intro hblanks
  cases hblanks '#' hmark

theorem trimChars_ne_nil_of_isMarkedTwice {line : List Char} (h : isMarkedTwice line = true) :
    Text.trimChars line ≠ [] := by
  obtain ⟨text, rfl⟩ := isMarkedTwice_iff.mp h
  rw [ne_eq, Text.trimChars_eq_nil_iff]
  intro hblanks
  cases hblanks '#' List.mem_cons_self

/-- Two descriptions of the same lines, each up to the first line of its own kind, are the same when
the first line of either kind is of both. -/
theorem joined_kept_eq_iff {p q : List Char → Bool}
    (hp : ∀ line, p line = true → Text.trimChars line ≠ [])
    (hq : ∀ line, q line = true → Text.trimChars line ≠ []) (front lines : List (List Char)) :
    String.intercalate " " (kept (front ++ lines.takeWhile fun line => !p line)) =
        String.intercalate " " (kept (front ++ lines.takeWhile fun line => !q line)) ↔
      ∀ line, lines.find? (fun line => p line || q line) = some line →
        p line = true ∧ q line = true := by
  induction lines generalizing front with
  | nil => simp
  | cons line lines ih =>
      rw [List.takeWhile_cons, List.takeWhile_cons, List.find?_cons]
      cases hline : p line <;> cases hother : q line
      case false.false =>
        have hnot : (!false) = true := rfl
        rw [if_pos hnot, if_pos hnot,
          List.append_cons front line (lines.takeWhile fun line => !p line),
          List.append_cons front line (lines.takeWhile fun line => !q line)]
        exact ih (front ++ [line])
      case true.true => simp [hline, hother]
      case false.true =>
        simpa [hline, hother] using joined_kept_ne (hq line hother) front _
      case true.false =>
        simpa [hline, hother] using (joined_kept_ne (hp line hline) front _).symm

/-! ## Notes -/

theorem meant_name_ne (lines : List (List Char)) : (meant lines).name ≠ "" := by
  unfold meant
  split
  next => decide
  next title htitle =>
    exact mt String.ofList_eq_empty_iff.mp (trimChars_behindMarks (List.find?_some htitle))

theorem meant_cons_title {line : List Char} (h : isTitle line = true) (lines : List (List Char)) :
    meant (line :: lines) =
      { name := String.ofList (Text.trimChars (behindMarks line))
        description :=
          String.intercalate " " (kept (lines.takeWhile fun line => !isHeading line)) } := by
  simp [meant, behindTitle, h]

theorem meant_cons_other {line : List Char} (h : isTitle line = false) (lines : List (List Char)) :
    meant (line :: lines) = meant lines := by
  simp [meant, behindTitle, h]

theorem ofLines_eq_meant_iff {lines : List (List Char)}
    (h : ∀ line ∈ lines, ∀ c ∈ line, Text.isLineEnd c = false) :
    ofLines lines = meant lines ↔
      (∀ line ∈ beforeTitle lines, isEmptyTitle line = false) ∧
        ∀ line, (behindTitle lines).find? (fun line => isHeading line || isMarkedTwice line) =
          some line → isHeading line = true ∧ isMarkedTwice line = true := by
  induction lines with
  | nil => simp [ofLines, meant, beforeTitle, behindTitle]
  | cons line lines ih =>
      rw [List.forall_mem_cons] at h
      rw [ofLines, heading?_eq h.1]
      cases htitle : isTitle line with
      | true =>
          have hdescription := joined_kept_eq_iff (fun _ => trimChars_ne_nil_of_isHeading)
            (fun _ => trimChars_ne_nil_of_isMarkedTwice) [] lines
          have hbefore : beforeTitle (line :: lines) = [] := by simp [beforeTitle, htitle]
          have hbehind : behindTitle (line :: lines) = lines := by simp [behindTitle, htitle]
          rw [meant_cons_title htitle, hbefore, hbehind, ← hdescription, describingLines_eq]
          simp only [if_true, ProjectNotes.mk.injEq, true_and, List.nil_append, List.not_mem_nil,
            false_implies, implies_true]
          exact eq_comm
      | false =>
          have hbefore : beforeTitle (line :: lines) = line :: beforeTitle lines := by
            simp [beforeTitle, htitle]
          have hbehind : behindTitle (line :: lines) = behindTitle lines := by
            simp [behindTitle, htitle]
          rw [meant_cons_other htitle, hbefore, hbehind, List.forall_mem_cons]
          cases hempty : isEmptyTitle line with
          | true =>
              have hname := meant_name_ne lines
              simp only [Bool.false_eq_true, if_false, if_true, Bool.true_eq_false, false_and,
                iff_false]
              intro heq
              exact hname (congrArg ProjectNotes.name heq).symm
          | false => simpa using ih h.2

/-- The notes of a text are read as they are meant exactly when no mark with blanks only stands
before the title, and when the first line behind the title that looks like a heading is a heading of
a lower level. -/
theorem ofText_eq_meant_iff {content : String}
    (h : ∀ c ∈ content.toList, Text.isLineEnd c = true → c = '\n') :
    ofText content = meant (linesOf content) ↔
      (∀ line ∈ beforeTitle (linesOf content), isEmptyTitle line = false) ∧
        ∀ line, (behindTitle (linesOf content)).find?
            (fun line => isHeading line || isMarkedTwice line) = some line →
          isHeading line = true ∧ isMarkedTwice line = true := by
  apply ofLines_eq_meant_iff
  intro line hline c hc
  obtain ⟨hmem, hne⟩ := Text.mem_of_mem_pieces hline hc
  exact Bool.eq_false_iff.mpr fun hend => hne (h c hmem hend)

/-- Notes with a line before the title, and a heading of the first level in a later section. -/
def shopNotes : String :=
  "Draft.\n# Shop\nSells things\nto people.\n\n## Notes\n# Prices\nInternal.\n"

theorem ofText_shopNotes :
    ofText shopNotes = meant (linesOf shopNotes) ∧
      meant (linesOf shopNotes) = ⟨"Shop", "Sells things to people."⟩ := by
  have hall : shopNotes.toList.all (fun c => !Text.isLineEnd c || c == '\n') = true := by cbv
  have hends : ∀ c ∈ shopNotes.toList, Text.isLineEnd c = true → c = '\n' := by
    intro c hc hend
    simpa [hend] using List.all_eq_true.mp hall c hc
  refine ⟨(ofText_eq_meant_iff hends).mpr ⟨by decide, ?_⟩, by cbv⟩
  intro line hline
  have hnotes : (behindTitle (linesOf shopNotes)).find?
      (fun line => isHeading line || isMarkedTwice line) = some "## Notes".toList := by decide
  obtain rfl := Option.some.inj (hnotes.symm.trans hline)
  decide

/-- A second title is taken into the description, and a mark with two blanks is taken for a
title. -/
theorem secondTitle_described :
    ofText "# Shop\nSells things.\n# Prices\nInternal.\n" =
        ⟨"Shop", "Sells things. # Prices Internal."⟩ ∧
      meant (linesOf "# Shop\nSells things.\n# Prices\nInternal.\n") =
        ⟨"Shop", "Sells things."⟩ ∧
      ofText "#  \n# Shop\nSells things.\n" = ⟨"", "# Shop Sells things."⟩ ∧
      meant (linesOf "#  \n# Shop\nSells things.\n") = ⟨"Shop", "Sells things."⟩ := by
  refine ⟨?_, ?_, ?_, ?_⟩
  all_goals cbv

end ProjectNotes

end FieldSchema
