import FieldSchema.Calendar.IsoForm
import FieldSchema.Proofs.CalendarDays

/-!
# Texts of instants

The ISO text of an instant is recognized where its year has four digits, and its date is read as the
day it was written for. Any other year begins with a sign, which no recognized date does.
-/

namespace FieldSchema

/-- Decimal digits spell a number. -/
theorem digitsValue?_of_isDigit {digits : List Char} (start : Nat)
    (h : ∀ c ∈ digits, c.isDigit = true) :
    digitsValue? start digits = some (Nat.ofDigitChars 10 digits start) := by
  induction digits generalizing start with
  | nil => rfl
  | cons c rest ih =>
      obtain ⟨hc, hrest⟩ := List.forall_mem_cons.mp h
      have hvalue : digitValue? c = some (c.toNat - '0'.toNat) := by
        rw [Char.isDigit, Bool.and_eq_true, decide_eq_true_eq, decide_eq_true_eq] at hc
        exact if_pos hc
      rw [digitsValue?, hvalue, Nat.ofDigitChars_cons, Nat.mul_comm]
      exact ih _ hrest

namespace Instant

section Padded

variable {width n : Nat}

theorem isDigit_of_mem_padded {c : Char} (h : c ∈ (padded width n).toList) : c.isDigit = true := by
  rw [padded, String.toList_ofList, List.mem_append] at h
  rcases h with hzero | hdigit
  · rw [List.eq_of_mem_replicate hzero]
    decide
  · exact Nat.isDigit_of_mem_toDigits (by decide) (by decide) hdigit

theorem length_padded (hwidth : 0 < width) (h : n < 10 ^ width) :
    (padded width n).toList.length = width := by
  have hdigits := (Nat.length_toDigits_le_iff (by decide : 1 < 10) hwidth).mpr h
  rw [padded, String.toList_ofList, List.length_append, List.length_replicate,
    Nat.sub_add_cancel hdigits]

/-- The number that was written is read, and what follows it is left. -/
theorem digits?_padded (hwidth : 0 < width) (h : n < 10 ^ width) (rest : List Char) :
    digits? width ((padded width n).toList ++ rest) = some (n, rest) := by
  have hlength := length_padded hwidth h
  have hvalue : digitsValue? 0 (padded width n).toList = some n := by
    rw [digitsValue?_of_isDigit 0 fun _ => isDigit_of_mem_padded, padded, String.toList_ofList,
      Nat.ofDigitChars_append, Nat.ofDigitChars_replicate_zero, Nat.mul_zero,
      Nat.ofDigitChars_ten_toDigits]
  rw [digits?, List.take_left' hlength, List.drop_left' hlength, if_pos hlength, hvalue]
  rfl

theorem digits?_of_not_digit {c : Char} (h : c.isDigit = false) (count : Nat) (rest : List Char) :
    digits? (count + 1) (c :: rest) = none := by
  have hvalue : digitValue? c = none := by
    rw [Char.isDigit, Bool.and_eq_false_iff, decide_eq_false_iff_not, decide_eq_false_iff_not,
      ← not_and_or] at h
    exact if_neg h
  rw [digits?, List.take_succ_cons, digitsValue?, hvalue]
  split <;> rfl

end Padded

/-! ## Days -/

/-- The year is written with four digits. -/
def HasPlainYear (d : CalendarDate) : Prop :=
  0 ≤ d.year ∧ d.year ≤ 9999

variable {d : CalendarDate}

theorem dateText_of_plainYear (h : HasPlainYear d) :
    dateText d = padded 4 d.year.toNat ++ "-" ++ padded 2 d.month ++ "-" ++ padded 2 d.day := by
  rw [dateText, yearText, if_pos (show 0 ≤ d.year ∧ d.year ≤ 9999 from h)]

theorem toList_dateText (h : HasPlainYear d) (rest : List Char) :
    (dateText d).toList ++ rest =
      (padded 4 d.year.toNat).toList ++ '-' :: ((padded 2 d.month).toList ++
        '-' :: ((padded 2 d.day).toList ++ rest)) := by
  simp [dateText_of_plainYear h]

theorem bounds_of_exists (h : d.exists? = true) : d.month < 10 ^ 2 ∧ d.day < 10 ^ 2 := by
  simp only [CalendarDate.exists?, Bool.and_eq_true, decide_eq_true_eq] at h
  obtain ⟨⟨⟨_, htwelve⟩, _⟩, hlast⟩ := h
  have hlength : CalendarDate.daysInMonth d.year d.month ≤ 31 := by
    unfold CalendarDate.daysInMonth
    split
    all_goals try split
    all_goals decide
  omega

theorem length_dateText (hyear : HasPlainYear d) (h : d.exists? = true) :
    (dateText d).toList.length = 10 := by
  obtain ⟨hmonth, hday⟩ := bounds_of_exists h
  have hplain : d.year.toNat < 10 ^ 4 := by
    unfold HasPlainYear at hyear
    omega
  have htext := congrArg List.length (toList_dateText hyear [])
  simpa only [List.append_nil, List.length_append, List.length_cons,
    length_padded (by decide) hplain, length_padded (by decide) hmonth,
    length_padded (by decide) hday] using htext

/-- A day with a plain year is read as it was written. -/
theorem date?_dateText (hyear : HasPlainYear d) (h : d.exists? = true) (rest : List Char) :
    IsoForm.date? ((dateText d).toList ++ rest) = some (d, rest) := by
  obtain ⟨hmonth, hday⟩ := bounds_of_exists h
  have hplain : d.year.toNat < 10 ^ 4 := by
    unfold HasPlainYear at hyear
    omega
  have hwritten : (⟨(d.year.toNat : Int), d.month, d.day⟩ : CalendarDate) = d := by
    rw [Int.toNat_of_nonneg hyear.1]
  rw [toList_dateText hyear, IsoForm.date?]
  simp only [digits?_padded (by decide) hplain, digits?_padded (by decide) hmonth,
    digits?_padded (by decide) hday, hwritten, h, if_true]

/-- Any other year begins with a sign. -/
theorem toList_dateText_of_signed (h : ¬HasPlainYear d) :
    ∃ sign rest, (dateText d).toList = sign :: rest ∧ sign.isDigit = false := by
  rw [dateText, yearText, if_neg (show ¬(0 ≤ d.year ∧ d.year ≤ 9999) from h)]
  split
  · exact ⟨'-', _, by simp; rfl, rfl⟩
  · exact ⟨'+', _, by simp; rfl, rfl⟩

theorem date?_of_not_digit {c : Char} (h : c.isDigit = false) (rest : List Char) :
    IsoForm.date? (c :: rest) = none := by
  rw [IsoForm.date?, digits?_of_not_digit h]

/-! ## Times of day -/

theorem timeOfDay_lt (ms : Int) : timeOfDay ms < 86400000 := by
  unfold timeOfDay msPerDay
  omega

/-- A time with a fraction of three digits, in universal time, is recognized. -/
theorem isClock_clockText {time fraction : Nat} (htime : time < 86400000)
    (hfraction : fraction < 10 ^ 3) :
    IsoForm.isClock ((clockText time).toList ++ '.' :: ((padded 3 fraction).toList ++ ['Z'])) =
      true := by
  have hdigits : ∀ c ∈ (padded 3 fraction).toList, c.isDigit = true := fun _ =>
    isDigit_of_mem_padded
  have hnonempty : (padded 3 fraction).toList ≠ [] := by
    intro hnil
    have hlength := length_padded (by decide) hfraction
    rw [hnil] at hlength
    cases hlength
  have hparts (rest : List Char) : (clockText time).toList ++ rest =
      (padded 2 (time / 3600000)).toList ++ ':' :: ((padded 2 (time / 60000 % 60)).toList ++
        ':' :: ((padded 2 (time / 1000 % 60)).toList ++ rest)) := by
    simp [clockText]
  have hhours : time / 3600000 < 24 := by omega
  have hminutes : time / 60000 % 60 < 60 := Nat.mod_lt _ (by decide)
  have hseconds : time / 1000 % 60 < 60 := Nat.mod_lt _ (by decide)
  have htwo {n : Nat} (h : n < 60) := digits?_padded (by decide : 0 < 2) (h.trans (by decide))
  have hafter : IsoForm.isAfterMinutes (':' :: ((padded 2 (time / 1000 % 60)).toList ++
      '.' :: ((padded 3 fraction).toList ++ ['Z']))) = true := by
    rw [IsoForm.isAfterMinutes]
    simp only [htwo hseconds]
    rw [List.takeWhile_append_of_pos hdigits, List.dropWhile_append_of_pos hdigits]
    simp [hnonempty, hseconds, IsoForm.isZone]
  rw [hparts, IsoForm.isClock]
  simp only [htwo (hhours.trans (by decide)), htwo hminutes]
  simp [hhours, hminutes, hafter]

/-! ## Recognized texts -/

/-- The first ten characters of the ISO text. -/
def dayText (ms : Int) : String :=
  String.ofList ((isoText ms).toList.take 10)

theorem exists_date (ms : Int) : (date ms).exists? = true :=
  CalendarDate.exists_ofDayCount _

theorem toList_isoText (ms : Int) :
    (isoText ms).toList = (dateText (date ms)).toList ++ 'T' ::
      ((clockText (timeOfDay ms)).toList ++
        '.' :: ((padded 3 (timeOfDay ms % 1000)).toList ++ ['Z'])) := by
  simp [isoText]

/-- The first ten characters are the day, if its year is plain. -/
theorem dayText_of_plainYear {ms : Int} (h : HasPlainYear (date ms)) :
    dayText ms = dateText (date ms) := by
  rw [dayText, toList_isoText, List.take_left' (length_dateText h (exists_date ms)),
    String.ofList_toList]

theorem isDate_dayText_iff {ms : Int} :
    IsoForm.isDate (dayText ms) = true ↔ HasPlainYear (date ms) := by
  by_cases h : HasPlainYear (date ms)
  · have hread := date?_dateText h (exists_date ms) []
    rw [List.append_nil] at hread
    rw [dayText_of_plainYear h, IsoForm.isDate, hread]
    simp [h]
  · obtain ⟨sign, rest, htext, hsign⟩ := toList_dateText_of_signed h
    rw [dayText, toList_isoText, htext, List.cons_append, List.take_succ_cons, IsoForm.isDate,
      String.toList_ofList, date?_of_not_digit hsign]
    simp [h]

theorem isDateTime_isoText_iff {ms : Int} :
    IsoForm.isDateTime (isoText ms) = true ↔ HasPlainYear (date ms) := by
  by_cases h : HasPlainYear (date ms)
  · have hfraction : timeOfDay ms % 1000 < 10 ^ 3 := Nat.mod_lt _ (by decide)
    have hclock := isClock_clockText (timeOfDay_lt ms) hfraction
    rw [IsoForm.isDateTime, toList_isoText]
    simp only [date?_dateText h (exists_date ms), hclock, h]
  · obtain ⟨sign, rest, htext, hsign⟩ := toList_dateText_of_signed h
    rw [IsoForm.isDateTime, toList_isoText, htext, List.cons_append, date?_of_not_digit hsign]
    simp [h]

end Instant

end FieldSchema
