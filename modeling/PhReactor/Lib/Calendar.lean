/-
  The proleptic Gregorian calendar, and how to find the date of a day.

  1. Days are counted year by year and month by month, from the first of January of the year 0
     (`Date.number`).  A `Date` carries the proof that there is such a day.

  2. The shifted calendar begins its years in March, so that a leap day is the last day of a year.
     A cycle of 400 years has 146097 days; centuries, groups of four years and years are cut off it
     one after the other (`exists_cut`), and the formula for the year of the cycle finds that cut
     (`yearOfCycle_cut`).

  3. `civil` is the usual algorithm on top of it: the date of a day that is given by its distance
     from the first of March of the year 0 (`number_civil`).
-/
import Mathlib.Data.Nat.Basic
import Mathlib.Order.Monotone.Basic
import Mathlib.Tactic.IntervalCases

namespace PhReactor.Lib

/-! ## Dates -/

def isLeap (y : ℕ) : Bool := y % 4 == 0 && (y % 100 != 0 || y % 400 == 0)

def yearLength (y : ℕ) : ℕ := if isLeap y then 366 else 365

def monthLength (y : ℕ) : ℕ → ℕ
  | 2 => if isLeap y then 29 else 28
  | 4 | 6 | 9 | 11 => 30
  | _ => 31

/-- A day of the calendar. -/
@[ext]
structure Date where
  year : ℕ
  month : ℕ
  day : ℕ
  month_range : 1 ≤ month ∧ month ≤ 12
  day_range : 1 ≤ day ∧ day ≤ monthLength year month

/-- The days of the years before this one. -/
def daysBeforeYear : ℕ → ℕ
  | 0 => 0
  | y + 1 => daysBeforeYear y + yearLength y

/-- The days of the year's months before this one. -/
def daysBeforeMonth (y m : ℕ) : ℕ := ((List.range (m - 1)).map fun i => monthLength y (i + 1)).sum

/-- The number of a day: its distance from the first day of the year 0. -/
def Date.number (d : Date) : ℕ :=
  daysBeforeYear d.year + daysBeforeMonth d.year d.month + (d.day - 1)

/-! ## Leap days -/

theorem isLeap_iff {y : ℕ} : isLeap y = true ↔ y % 4 = 0 ∧ (y % 100 ≠ 0 ∨ y % 400 = 0) := by
  simp [isLeap]

theorem not_isLeap {y : ℕ} (h : ¬ isLeap y = true) : y % 4 ≠ 0 ∨ y % 100 = 0 ∧ y % 400 ≠ 0 := by
  rw [isLeap_iff, not_and_or, not_or, not_not] at h
  exact h

/-- The days before a year, by the leap years before it. -/
theorem daysBeforeYear_eq (y : ℕ) :
    daysBeforeYear y + (y + 99) / 100 = 365 * y + (y + 3) / 4 + (y + 399) / 400 := by
  induction y with
  | zero => rfl
  | succ y ih =>
    unfold daysBeforeYear yearLength
    by_cases hleap : isLeap y = true
    · rw [if_pos hleap]
      rw [isLeap_iff] at hleap
      omega
    · rw [if_neg hleap]
      obtain hfour | ⟨hcentury, hcycle⟩ := not_isLeap hleap
      · omega
      · omega

/-- The days up to the end of its February, 59 apart. -/
theorem daysBeforeYear_leap (y : ℕ) : daysBeforeYear y + (if isLeap y then 1 else 0) + y / 100 =
    365 * y + y / 4 + y / 400 + 1 := by
  have hbefore := daysBeforeYear_eq y
  by_cases hleap : isLeap y = true
  · rw [if_pos hleap]
    rw [isLeap_iff] at hleap
    omega
  · rw [if_neg hleap]
    obtain hfour | ⟨hcentury, hcycle⟩ := not_isLeap hleap
    · omega
    · omega

/-! ## A number has one date -/

/-- A step of a staircase is found by a point on it. -/
theorem eq_of_between {f : ℕ → ℕ} (hf : Monotone f) {a b x : ℕ} (ha : f a ≤ x) (ha' : x < f (a + 1))
    (hb : f b ≤ x) (hb' : x < f (b + 1)) : a = b := by
  apply Nat.le_antisymm
  · by_contra hlt
    exact absurd (hb'.trans_le (hf (Nat.not_le.mp hlt))) (Nat.not_lt.mpr ha)
  · by_contra hlt
    exact absurd (ha'.trans_le (hf (Nat.not_le.mp hlt))) (Nat.not_lt.mpr hb)

theorem daysBeforeYear_mono : Monotone daysBeforeYear :=
  monotone_nat_of_le_succ fun y => Nat.le_add_right _ (yearLength y)

theorem daysBeforeMonth_succ (y : ℕ) {m : ℕ} (h : 1 ≤ m) :
    daysBeforeMonth y (m + 1) = daysBeforeMonth y m + monthLength y m := by
  unfold daysBeforeMonth
  obtain ⟨k, rfl⟩ : ∃ k, m = k + 1 := ⟨m - 1, by omega⟩
  simp [List.range_succ]

theorem daysBeforeMonth_mono (y : ℕ) : Monotone (daysBeforeMonth y) := by
  refine monotone_nat_of_le_succ fun m => ?_
  cases m with
  | zero => exact Nat.le_refl _
  | succ m =>
    rw [daysBeforeMonth_succ y (Nat.le_add_left 1 m)]
    exact Nat.le_add_right _ _

theorem daysBeforeMonth_year (y : ℕ) : daysBeforeMonth y 13 = yearLength y := by
  unfold daysBeforeMonth yearLength
  simp only [List.range_succ, List.range_zero, monthLength]
  split <;> rfl

/-- The days of a month are below those of the next one. -/
theorem Date.day_lt (d : Date) :
    daysBeforeMonth d.year d.month + (d.day - 1) < daysBeforeMonth d.year (d.month + 1) := by
  have hday := d.day_range
  rw [daysBeforeMonth_succ d.year d.month_range.1]
  omega

/-- The days of a year are below those of the next one. -/
theorem Date.number_lt (d : Date) : d.number < daysBeforeYear (d.year + 1) := by
  have hlast : daysBeforeMonth d.year (d.month + 1) ≤ yearLength d.year := by
    rw [← daysBeforeMonth_year]
    exact daysBeforeMonth_mono d.year (Nat.succ_le_succ d.month_range.2)
  have hnext : daysBeforeYear (d.year + 1) = daysBeforeYear d.year + yearLength d.year := rfl
  have hlt := d.day_lt
  unfold Date.number
  omega

/-- **A number has one date.** -/
theorem Date.number_injective : Function.Injective Date.number := by
  intro d d' h
  have hle : daysBeforeYear d.year ≤ d.number := (Nat.le_add_right _ _).trans (Nat.le_add_right _ _)
  have hle' : daysBeforeYear d'.year ≤ d'.number :=
    (Nat.le_add_right _ _).trans (Nat.le_add_right _ _)
  have hyear : d.year = d'.year := by
    refine eq_of_between daysBeforeYear_mono hle d.number_lt ?_ ?_
    · rw [h]
      exact hle'
    · rw [h]
      exact d'.number_lt
  have hrest : daysBeforeMonth d.year d.month + (d.day - 1) =
      daysBeforeMonth d'.year d'.month + (d'.day - 1) := by
    unfold Date.number at h
    rw [hyear] at h ⊢
    omega
  have hmonth : d.month = d'.month := by
    refine eq_of_between (daysBeforeMonth_mono d.year) (Nat.le_add_right _ _) d.day_lt ?_ ?_
    · rw [hrest, hyear]
      exact Nat.le_add_right _ _
    · rw [hrest, hyear]
      exact d'.day_lt
  have hday : d.day = d'.day := by
    have hone := d.day_range.1
    have hone' := d'.day_range.1
    rw [hyear, hmonth] at hrest
    omega
  exact Date.ext hyear hmonth hday

/-! ## Years that begin in March -/

/-- The year of a cycle in which its day `n` is. -/
def yearOfCycle (n : ℕ) : ℕ := (n - n / 1460 + n / 36524 - n / 146096) / 365

/-- A cycle is cut into centuries, those into groups of four years, and those into days.  Only the
    last century has a leap day at its end. -/
theorem exists_cut {n : ℕ} (h : n < 146097) : ∃ b q r, b ≤ 3 ∧ q ≤ 24 ∧ r ≤ 1460 ∧
    (r = 1460 → q = 24 → b = 3) ∧ n = 36524 * b + 1461 * q + r := by
  by_cases hlast : n = 146096
  · exact ⟨3, 24, 1460, by omega, by omega, by omega, by omega, by omega⟩
  · refine ⟨n / 36524, n % 36524 / 1461, n % 36524 % 1461, ?_, ?_, ?_, ?_, ?_⟩ <;> omega

/-- **The formula finds the cut.** -/
theorem yearOfCycle_cut {b q r n : ℕ} (hb : b ≤ 3) (hq : q ≤ 24) (hr : r ≤ 1460)
    (hlast : r = 1460 → q = 24 → b = 3) (hn : n = 36524 * b + 1461 * q + r) :
    yearOfCycle n = 100 * b + 4 * q + min 3 (r / 365) := by
  -- one too many is subtracted near the end of a group
  obtain ⟨e, hfour, he⟩ : ∃ e, n / 1460 = 25 * b + q + e ∧
      (e = 0 ∧ 24 * b + q + r < 1460 ∨ e = 1 ∧ 1460 ≤ 24 * b + q + r) := by
    have hgroups : n = 24 * b + q + r + 1460 * (25 * b + q) := by omega
    rw [hgroups, Nat.add_mul_div_left _ _ (by decide), Nat.add_comm]
    refine ⟨_, rfl, ?_⟩
    have hrest : 24 * b + q + r < 2 * 1460 := by omega
    clear hn hlast hgroups
    omega
  have hcentury : n / 36524 = b + n / 146096 := by
    by_cases h : r = 1460 ∧ q = 24
    · have hthree := hlast h.1 h.2
      omega
    · have hcycle : n < 146096 := by omega
      have hrest : 1461 * q + r < 36524 := by omega
      omega
  have hsum : n - n / 1460 + n / 36524 - n / 146096 = 36500 * b + 1460 * q + (r - e) := by
    rw [hfour, hcentury, ← Nat.add_assoc, Nat.add_sub_cancel]
    omega
  have hyears : (36500 * b + 1460 * q + (r - e)) / 365 = 100 * b + 4 * q + (r - e) / 365 := by
    omega
  -- and then a year too few is not counted: it is the last of its group
  have hgroup : (r - e) / 365 = min 3 (r / 365) := by
    clear hn hfour hcentury hsum hyears
    obtain ⟨rfl, h⟩ | ⟨rfl, h⟩ := he
    · omega
    · omega
  unfold yearOfCycle
  rw [hsum, hyears, hgroup]

/-- The days of a cycle before its year `y`. -/
def daysOfCycle (y : ℕ) : ℕ := 365 * y + y / 4 - y / 100

/-- **The year of a cycle, and the day of that year.**  The last day of a leap year is the 365th,
    counted from 0; it is in the February of the year that follows. -/
theorem yearOfCycle_spec {n : ℕ} (h : n < 146097) : yearOfCycle n < 400 ∧
    daysOfCycle (yearOfCycle n) ≤ n ∧ n ≤ daysOfCycle (yearOfCycle n) + 365 ∧
    (n = daysOfCycle (yearOfCycle n) + 365 → isLeap (yearOfCycle n + 1) = true) := by
  obtain ⟨b, q, r, hb, hq, hr, hlast, hn⟩ := exists_cut h
  rw [yearOfCycle_cut hb hq hr hlast hn, isLeap_iff]
  obtain ⟨k, hk, hyear⟩ : ∃ k, min 3 (r / 365) = k ∧ k ≤ 3 ∧ 365 * k ≤ r ∧
      r ≤ 365 * k + 365 ∧ (r = 365 * k + 365 → r = 1460) := ⟨_, rfl, by omega⟩
  have hdays : daysOfCycle (100 * b + 4 * q + k) = 36524 * b + 1461 * q + 365 * k := by
    have hfours : (100 * b + 4 * q + k) / 4 = 25 * b + q := by omega
    have hcenturies : (100 * b + 4 * q + k) / 100 = b := by omega
    unfold daysOfCycle
    rw [hfours, hcenturies]
    omega
  rw [hk, hdays]
  omega

/-! ## Months that are counted from March -/

/-- The month of a day of such a year. -/
def monthOfYear (doy : ℕ) : ℕ := (5 * doy + 2) / 153

/-- The days of such a year before its month `mp`. -/
def daysOfYear (mp : ℕ) : ℕ := (153 * mp + 2) / 5

theorem monthOfYear_spec (doy : ℕ) :
    daysOfYear (monthOfYear doy) ≤ doy ∧ doy < daysOfYear (monthOfYear doy + 1) := by
  unfold daysOfYear monthOfYear
  omega

/-- From March on: 59 or 60 days into the year of the calendar. -/
theorem daysBeforeMonth_march (y : ℕ) {mp : ℕ} (h : mp < 10) :
    daysBeforeMonth y (mp + 3) = 59 + (if isLeap y then 1 else 0) + daysOfYear mp := by
  unfold daysBeforeMonth daysOfYear
  interval_cases mp <;> simp [List.range_succ, monthLength] <;> split <;> rfl

theorem monthLength_march (y : ℕ) {mp : ℕ} (h : mp < 10) :
    monthLength y (mp + 3) + daysOfYear mp = daysOfYear (mp + 1) := by
  interval_cases mp <;> rfl

/-- January and February belong to the year before: 306 days of it are from March on. -/
theorem daysBeforeMonth_winter (y : ℕ) {mp : ℕ} (h : 10 ≤ mp) (h' : mp ≤ 11) :
    daysBeforeMonth y (mp - 9) + 306 = daysOfYear mp := by
  interval_cases mp <;> rfl

/-! ## The date of a day -/

/-- The year, the month and the day of the day that is `z` days after the first of March of the
    year 0. -/
def civil (z : ℕ) : ℕ × ℕ × ℕ :=
  let doe := z % 146097
  let yoe := yearOfCycle doe
  let doy := doe - daysOfCycle yoe
  let mp := monthOfYear doy
  let y := yoe + z / 146097 * 400
  if mp < 10 then (y, mp + 3, doy - daysOfYear mp + 1) else (y + 1, mp - 9, doy - daysOfYear mp + 1)

/-- The days before the year `Y` that begins in March. -/
def daysBeforeMarch (Y : ℕ) : ℕ := 365 * Y + Y / 4 - Y / 100 + Y / 400

/-- A day from March to December. -/
theorem exists_date_march {Y doy : ℕ} (h : monthOfYear doy < 10) :
    ∃ d : Date, (d.year, d.month, d.day) =
        (Y, monthOfYear doy + 3, doy - daysOfYear (monthOfYear doy) + 1) ∧
      d.number = daysBeforeMarch Y + doy + 60 := by
  obtain ⟨hle, hlt⟩ := monthOfYear_spec doy
  have hlen := monthLength_march Y h
  have hmonth := daysBeforeMonth_march Y h
  have hyear := daysBeforeYear_leap Y
  refine ⟨⟨Y, monthOfYear doy + 3, doy - daysOfYear (monthOfYear doy) + 1, by omega, by omega⟩, rfl,
    ?_⟩
  unfold Date.number daysBeforeMarch
  dsimp only
  omega

/-- A day of January or February. -/
theorem exists_date_winter {Y doy : ℕ} (h : 10 ≤ monthOfYear doy) (hdoy : doy ≤ 365)
    (hleap : doy = 365 → isLeap (Y + 1) = true) :
    ∃ d : Date, (d.year, d.month, d.day) =
        (Y + 1, monthOfYear doy - 9, doy - daysOfYear (monthOfYear doy) + 1) ∧
      d.number = daysBeforeMarch Y + doy + 60 := by
  obtain ⟨hle, hlt⟩ := monthOfYear_spec doy
  have hlast : monthOfYear doy ≤ 11 := by
    unfold monthOfYear
    omega
  have hmonth := daysBeforeMonth_winter (Y + 1) h hlast
  have hyear := daysBeforeYear_leap Y
  have hnext : daysBeforeYear (Y + 1) = daysBeforeYear Y + 365 + if isLeap Y then 1 else 0 := by
    show daysBeforeYear Y + yearLength Y = _
    unfold yearLength
    split <;> rfl
  have hlen : doy - daysOfYear (monthOfYear doy) + 1 ≤
      monthLength (Y + 1) (monthOfYear doy - 9) := by
    generalize monthOfYear doy = mp at h hlast hle hlt ⊢
    unfold daysOfYear at hle hlt ⊢
    interval_cases mp
    · show _ ≤ 31
      omega
    · show _ ≤ if isLeap (Y + 1) then 29 else 28
      by_cases hfull : doy = 365
      · rw [if_pos (hleap hfull)]
        omega
      · split <;> omega
  refine ⟨⟨Y + 1, monthOfYear doy - 9, doy - daysOfYear (monthOfYear doy) + 1, by omega,
    Nat.le_add_left 1 _, hlen⟩, rfl, ?_⟩
  unfold Date.number daysBeforeMarch
  dsimp only
  omega

/-- **The algorithm finds the date**: a day of the calendar whose number is the one asked for.  The
    first of March of the year 0 is day 60. -/
theorem number_civil (z : ℕ) :
    ∃ d : Date, civil z = (d.year, d.month, d.day) ∧ d.number = z + 60 := by
  obtain ⟨hcycle, hle, hge, hleap⟩ := yearOfCycle_spec (Nat.mod_lt z (by decide : 0 < 146097))
  unfold civil
  dsimp only
  generalize hn : z % 146097 = n at hcycle hle hge hleap ⊢
  generalize yearOfCycle n = yoe at hcycle hle hge hleap ⊢
  generalize hera : z / 146097 = era
  -- the year counted from the year 0
  have hz : z = 146097 * era + n := by omega
  have hbefore : daysBeforeMarch (yoe + era * 400) = 146097 * era + daysOfCycle yoe := by
    unfold daysBeforeMarch daysOfCycle
    omega
  have hleap' : n - daysOfCycle yoe = 365 → isLeap (yoe + era * 400 + 1) = true := by
    intro h
    have hyear := hleap (by omega)
    rw [isLeap_iff] at hyear ⊢
    omega
  by_cases hmonth : monthOfYear (n - daysOfCycle yoe) < 10
  · rw [if_pos hmonth]
    obtain ⟨d, hd, hnumber⟩ := exists_date_march (Y := yoe + era * 400) hmonth
    exact ⟨d, hd.symm, by omega⟩
  · rw [if_neg hmonth]
    obtain ⟨d, hd, hnumber⟩ := exists_date_winter (Nat.not_lt.mp hmonth) (by omega) hleap'
    exact ⟨d, hd.symm, by omega⟩

end PhReactor.Lib
