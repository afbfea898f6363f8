import Mathlib
import FieldSchema.Calendar.Date

/-!
# Days of the calendar

The day that lies a number of days after 1 January 1970 is reached by turning the pages of the
calendar that many times, forward or backward: a day is followed by the next one of its month, the
last day of a month by the first one of the next month, and 31 December by 1 January.
-/

namespace FieldSchema.CalendarDate

/-- The day that follows. -/
def next (d : CalendarDate) : CalendarDate :=
  if d.day < daysInMonth d.year d.month then ⟨d.year, d.month, d.day + 1⟩
  else if d.month < 12 then ⟨d.year, d.month + 1, 1⟩
  else ⟨d.year + 1, 1, 1⟩

/-- A day is so many days after 1 January 1970, counted one by one. -/
inductive IsDay : Int → CalendarDate → Prop
  | epoch : IsDay 0 ⟨1970, 1, 1⟩
  | next {count : Int} {d : CalendarDate} (h : IsDay count d) : IsDay (count + 1) d.next
  | previous {count : Int} {d : CalendarDate} (h : IsDay (count + 1) d.next)
      (hexists : d.exists? = true) : IsDay count d

/-! ## Years that are counted from March -/

/-- The days of a month that starts so many days after 1 March, and the month itself. -/
def monthDay (dayOfYear : Nat) : Nat × Nat :=
  let monthFromMarch := (5 * dayOfYear + 2) / 153
  (if monthFromMarch < 10 then monthFromMarch + 3 else monthFromMarch - 9,
    dayOfYear - (153 * monthFromMarch + 2) / 5 + 1)

/-- A day of the year that starts in March. January and February belong to the year that follows. -/
def ofMarchYear (year : Int) (dayOfYear : Nat) : CalendarDate :=
  ⟨year + if (monthDay dayOfYear).1 ≤ 2 then 1 else 0, (monthDay dayOfYear).1,
    (monthDay dayOfYear).2⟩

/-- The number of days of a year that starts in March. -/
def marchYearLength (year : Int) : Nat :=
  if isLeap (year + 1) then 366 else 365

/-- The days from 1 March of year zero to 1 March of a year. -/
def marchYearStart (year : Int) : Int :=
  365 * year + year / 4 - year / 100 + year / 400

theorem marchYearStart_succ (year : Int) :
    marchYearStart (year + 1) = marchYearStart year + marchYearLength year := by
  unfold marchYearStart marchYearLength isLeap
  split
  next h =>
    simp only [Bool.and_eq_true, Bool.or_eq_true, beq_iff_eq, bne_iff_ne] at h
    omega
  next h =>
    simp only [Bool.and_eq_true, Bool.or_eq_true, beq_iff_eq, bne_iff_ne] at h
    omega

theorem marchYearStart_mono {year other : Int} (h : year ≤ other) :
    marchYearStart year ≤ marchYearStart other := by
  unfold marchYearStart
  omega

/-- A day is the day of one year only. -/
theorem marchYear_unique {year other : Int} {dayOfYear otherDay : Nat}
    (hday : dayOfYear < marchYearLength year) (hother : otherDay < marchYearLength other)
    (h : marchYearStart year + dayOfYear = marchYearStart other + otherDay) :
    year = other ∧ dayOfYear = otherDay := by
  have hsucc := marchYearStart_succ year
  have hotherSucc := marchYearStart_succ other
  have heq : year = other := by
    rcases lt_trichotomy year other with hlt | heq | hgt
    · have := marchYearStart_mono (Int.add_one_le_iff.mpr hlt)
      omega
    · exact heq
    · have := marchYearStart_mono (Int.add_one_le_iff.mpr hgt)
      omega
  subst heq
  exact ⟨rfl, by omega⟩

/-! ## The year of a day in a cycle -/

/-- A day of a cycle, counted as if all its years had 365 days. -/
def evened (dayOfCycle : Nat) : Nat :=
  dayOfCycle - dayOfCycle / 1460 + dayOfCycle / 36524 - dayOfCycle / 146096

/-- The days of a cycle before a year that starts in March. -/
def cycleYearStart (yearOfCycle : Nat) : Nat :=
  365 * yearOfCycle + yearOfCycle / 4 - yearOfCycle / 100 + yearOfCycle / 400

theorem evened_mono {day other : Nat} (h : day ≤ other) (hother : other < 146097) :
    evened day ≤ evened other := by
  unfold evened
  omega

/-- The first and the last day of each year are put into it, and with them all days between. -/
theorem evened_bounds : ∀ year < 400,
    365 * year ≤ evened (cycleYearStart year) ∧
      evened (cycleYearStart (year + 1) - 1) < 365 * (year + 1) := by
  decide +kernel

theorem yearOfCycle_bounds {day : Nat} (hday : day < 146097) :
    evened day / 365 < 400 ∧ cycleYearStart (evened day / 365) ≤ day ∧
      day < cycleYearStart (evened day / 365 + 1) := by
  have hyear : evened day / 365 < 400 := by
    unfold evened
    omega
  have hlast : cycleYearStart 400 = 146097 := by decide
  generalize hy : evened day / 365 = year at hyear ⊢
  have hrest := Nat.mod_lt (evened day) (by decide : 0 < 365)
  have hdiv := Nat.div_add_mod (evened day) 365
  rw [hy] at hdiv
  refine ⟨hyear, ?_, ?_⟩
  · -- a day before the year would be put into an earlier one
    by_contra hlt
    cases year with
    | zero => exact hlt (Nat.zero_le day)
    | succ previous =>
        have hbefore := (evened_bounds previous (by omega)).2
        have hmono := evened_mono (Nat.le_sub_one_of_lt (not_le.mp hlt)) (by
          have : cycleYearStart (previous + 1) ≤ 146097 := by
            unfold cycleYearStart
            omega
          omega)
        omega
  · by_contra hge
    have hstart := not_lt.mp hge
    rcases Nat.lt_or_ge (year + 1) 400 with hnext | hnone
    · have hafter := (evened_bounds (year + 1) hnext).1
      have hmono := evened_mono hstart hday
      omega
    · obtain rfl : year = 399 := by omega
      have hend : cycleYearStart 400 ≤ day := hstart
      omega

theorem marchYearStart_cycle (cycle : Int) (year : Nat) :
    marchYearStart (cycle * 400 + year) = cycle * daysPerCycle + cycleYearStart year := by
  unfold marchYearStart cycleYearStart daysPerCycle
  omega

theorem ofDayCount_eq (count : Int) :
    let day := ((count + epochOffset) % daysPerCycle).toNat
    let year := evened day / 365
    ofDayCount count = ofMarchYear ((count + epochOffset) / daysPerCycle * 400 + (year : Nat))
      (day - (365 * year + year / 4 - year / 100)) :=
  rfl

/-- The day that lies so many days after 1 January 1970 lies in one of the years from March. -/
theorem exists_ofMarchYear (count : Int) :
    ∃ year dayOfYear, ofDayCount count = ofMarchYear year dayOfYear ∧
      count + epochOffset = marchYearStart year + dayOfYear ∧
      dayOfYear < marchYearLength year := by
  have hpositive : (0 : Int) < daysPerCycle := by decide
  have hmod := Int.emod_nonneg (count + epochOffset) hpositive.ne'
  have hless := Int.emod_lt_of_pos (count + epochOffset) hpositive
  have hsum := Int.mul_ediv_add_emod (count + epochOffset) daysPerCycle
  obtain ⟨day, hday⟩ := Int.eq_ofNat_of_zero_le hmod
  have hdayLess : day < 146097 := by
    unfold daysPerCycle at hless hday
    omega
  have heq := ofDayCount_eq count
  dsimp only at heq
  rw [hday, Int.toNat_natCast] at heq
  obtain ⟨hyear, hstart, hnext⟩ := yearOfCycle_bounds hdayLess
  generalize evened day / 365 = year at heq hyear hstart hnext
  generalize (count + epochOffset) / daysPerCycle = cycle at heq hsum
  have hdivision : 365 * year + year / 4 - year / 100 = cycleYearStart year := by
    unfold cycleYearStart
    omega
  refine ⟨cycle * 400 + year, day - cycleYearStart year, hdivision ▸ heq, ?_, ?_⟩
  · rw [marchYearStart_cycle]
    unfold daysPerCycle at hsum hday ⊢
    omega
  · have hsucc := marchYearStart_succ (cycle * 400 + year)
    rw [add_assoc, ← Nat.cast_add_one, marchYearStart_cycle, marchYearStart_cycle] at hsucc
    have hlength := add_left_cancel (hsucc.trans (add_assoc _ _ _))
    omega

/-! ## Turning the page -/

/-- The second month and day follow the first, which do not lie in February. -/
def FollowsIn (first second : Nat × Nat) : Prop :=
  1 ≤ first.2 ∧ 1 ≤ first.1 ∧ first.1 ≤ 12 ∧ first.1 ≠ 2 ∧
    (first.2 < daysInMonth 0 first.1 ∧ second = (first.1, first.2 + 1) ∨
      first.2 = daysInMonth 0 first.1 ∧ second = (if first.1 < 12 then first.1 + 1 else 1, 1))

instance (first second : Nat × Nat) : Decidable (FollowsIn first second) := by
  unfold FollowsIn
  infer_instance

/-- Before February each day is followed by the next one of its month or by the first one of the
next month. -/
theorem monthDay_follows : ∀ day < 337, FollowsIn (monthDay day) (monthDay (day + 1)) := by
  decide +kernel

/-- February is the last month of a year that starts in March. -/
theorem monthDay_february : ∀ day < 366, 337 ≤ day → monthDay day = (2, day - 336) := by
  decide +kernel

theorem daysInMonth_of_ne (year : Int) {month : Nat} (h : month ≠ 2) :
    daysInMonth year month = daysInMonth 0 month := by
  unfold daysInMonth
  split
  all_goals first | rfl | exact absurd rfl h

theorem daysInMonth_february (year : Int) :
    daysInMonth (year + 1) 2 + 337 = marchYearLength year := by
  unfold marchYearLength
  simp only [daysInMonth]
  split <;> rfl

section MarchYear

variable {year : Int} {day : Nat}

theorem marchYearLength_cases (year : Int) :
    marchYearLength year = 365 ∨ marchYearLength year = 366 := by
  unfold marchYearLength
  split
  next => exact .inr rfl
  next => exact .inl rfl

theorem ofMarchYear_february (hfebruary : 337 ≤ day) (h : day < marchYearLength year) :
    ofMarchYear year day = ⟨year + 1, 2, day - 336⟩ := by
  have hlength := marchYearLength_cases year
  rw [ofMarchYear, monthDay_february day (by omega) hfebruary]
  rfl

theorem exists_ofMarchYear_eq_true (h : day < marchYearLength year) :
    (ofMarchYear year day).exists? = true := by
  rw [exists?]
  simp only [Bool.and_eq_true, decide_eq_true_eq]
  rcases Nat.lt_or_ge day 337 with hday | hfebruary
  · obtain ⟨hfirst, hmonth, htwelve, hne, hnext⟩ := monthDay_follows day hday
    refine ⟨⟨⟨hmonth, htwelve⟩, hfirst⟩, ?_⟩
    rw [ofMarchYear, daysInMonth_of_ne _ hne]
    rcases hnext with ⟨hless, -⟩ | ⟨hlast, -⟩
    · exact hless.le
    · exact hlast.le
  · have hlength := daysInMonth_february year
    rw [ofMarchYear_february hfebruary h]
    dsimp only
    omega

theorem next_ofMarchYear (h : day + 1 < marchYearLength year) :
    (ofMarchYear year day).next = ofMarchYear year (day + 1) := by
  rcases Nat.lt_or_ge day 337 with hday | hfebruary
  · obtain ⟨-, -, hmost, hne, hnext⟩ := monthDay_follows day hday
    rw [next, ofMarchYear, ofMarchYear, daysInMonth_of_ne _ hne]
    dsimp only
    rcases hnext with ⟨hless, hsecond⟩ | ⟨hlast, hsecond⟩
    · rw [if_pos hless, hsecond]
    · rw [if_neg hlast.not_lt, hsecond]
      by_cases htwelve : (monthDay day).1 < 12
      · simp only [if_pos htwelve]
        congr 2
        split <;> split <;> omega
      · have hmonth : (monthDay day).1 = 12 := by omega
        simp [hmonth]
  · have hlength := daysInMonth_february year
    rw [ofMarchYear_february hfebruary (by omega), ofMarchYear_february (by omega) h, next,
      if_pos (by dsimp only; omega), (by omega : day + 1 - 336 = day - 336 + 1)]

/-- The last day of February is followed by 1 March. -/
theorem next_ofMarchYear_last (h : day + 1 = marchYearLength year) :
    (ofMarchYear year day).next = ofMarchYear (year + 1) 0 := by
  have hlength := daysInMonth_february year
  have hcases := marchYearLength_cases year
  rw [ofMarchYear_february (by omega) (by omega), next, if_neg (by dsimp only; omega)]
  simp [ofMarchYear, monthDay]

end MarchYear

theorem exists_ofDayCount (count : Int) : (ofDayCount count).exists? = true := by
  obtain ⟨year, day, heq, -, hless⟩ := exists_ofMarchYear count
  exact heq ▸ exists_ofMarchYear_eq_true hless

theorem ofDayCount_succ (count : Int) : ofDayCount (count + 1) = (ofDayCount count).next := by
  obtain ⟨year, day, heq, hcount, hless⟩ := exists_ofMarchYear count
  obtain ⟨otherYear, otherDay, hother, hotherCount, hotherLess⟩ := exists_ofMarchYear (count + 1)
  rw [heq, hother]
  rcases Nat.lt_or_ge (day + 1) (marchYearLength year) with hwithin | hlast
  · obtain ⟨rfl, rfl⟩ := marchYear_unique hotherLess hwithin (by omega)
    exact (next_ofMarchYear hwithin).symm
  · have hsucc := marchYearStart_succ year
    have hpositive : 0 < marchYearLength (year + 1) := by
      have := marchYearLength_cases (year + 1)
      omega
    obtain ⟨rfl, rfl⟩ := marchYear_unique hotherLess hpositive (by omega)
    exact (next_ofMarchYear_last (by omega)).symm

/-- A day is followed by one of its month, or by the first day of a month or of a year. -/
theorem next_cases {d : CalendarDate} (hexists : d.exists? = true) :
    (1 ≤ d.day ∧ d.next = ⟨d.year, d.month, d.day + 1⟩) ∨
      (d.day = daysInMonth d.year d.month ∧ 1 ≤ d.month ∧ d.next = ⟨d.year, d.month + 1, 1⟩) ∨
      (d.day = daysInMonth d.year d.month ∧ d.month = 12 ∧ d.next = ⟨d.year + 1, 1, 1⟩) := by
  simp only [exists?, Bool.and_eq_true, decide_eq_true_eq] at hexists
  obtain ⟨⟨⟨hmonth, htwelve⟩, hfirst⟩, hlast⟩ := hexists
  unfold next
  split
  next => exact .inl ⟨hfirst, rfl⟩
  next hend =>
    have hday := hlast.antisymm (not_lt.mp hend)
    split
    next => exact .inr (.inl ⟨hday, hmonth, rfl⟩)
    next hdecember => exact .inr (.inr ⟨hday, htwelve.antisymm (not_lt.mp hdecember), rfl⟩)

/-- No day follows two days. -/
theorem eq_of_next_eq {d other : CalendarDate} (hd : d.exists? = true)
    (hother : other.exists? = true) (h : d.next = other.next) : d = other := by
  have hcases := next_cases hd
  have hotherCases := next_cases hother
  obtain ⟨year, month, day⟩ := d
  obtain ⟨otherYear, otherMonth, otherDay⟩ := other
  rw [mk.injEq]
  dsimp only at hcases hotherCases
  rcases hcases with ⟨hday, hnext⟩ | ⟨hday, hmonth, hnext⟩ | ⟨hday, hmonth, hnext⟩
  all_goals
    rcases hotherCases with ⟨hotherDay, hotherNext⟩ | ⟨hotherDay, hotherMonth, hotherNext⟩ |
      ⟨hotherDay, hotherMonth, hotherNext⟩
  all_goals
    rw [hnext, hotherNext, mk.injEq] at h
    obtain ⟨hyears, hmonths, hdays⟩ := h
    -- days that are followed in the same way lie in one month
    first
    | omega
    | obtain ⟨rfl, rfl⟩ : year = otherYear ∧ month = otherMonth := by omega
      exact ⟨rfl, rfl, hday.trans hotherDay.symm⟩

/-- The day that lies so many days after 1 January 1970 is the one that is reached by counting. -/
theorem isDay_iff {count : Int} {d : CalendarDate} : IsDay count d ↔ d = ofDayCount count := by
  constructor
  · intro h
    induction h with
    | epoch => decide +kernel
    | next _ ih => rw [ofDayCount_succ, ih]
    | previous _ hexists ih =>
        rw [ofDayCount_succ] at ih
        exact eq_of_next_eq hexists (exists_ofDayCount _) ih
  · rintro rfl
    induction count using Int.induction_on with
    | zero => exact .epoch
    | succ count ih =>
        rw [ofDayCount_succ]
        exact .next ih
    | pred count ih =>
        refine .previous ?_ (exists_ofDayCount _)
        rw [← ofDayCount_succ, sub_add_cancel]
        exact ih

end FieldSchema.CalendarDate
