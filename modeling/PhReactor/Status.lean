/-
  The time of a status snapshot (`src/status.rs`).

  1. Every operation on an `i64` is checked: one whose result does not fit has none, so a value of
     `rfc3339` says that nothing overflowed on the way.

  2. The checked operations on natural numbers that are small enough are those of the natural
     numbers (`add_cast` and its siblings); with them the date is the calendar's own algorithm
     (`civil_cast`).

  3. `rfc3339_spec` puts the text together: for every number of seconds it is the date and the time
     of that instant.
-/
import Mathlib.Algebra.Group.Nat.Defs
import PhReactor.Json
import PhReactor.Lib.Calendar

namespace PhReactor.Status

/-! ## Checked arithmetic -/

/-- The value, if it is an `i64`. -/
def i64 (x : Int) : Option Int :=
  if -9223372036854775808 ≤ x ∧ x < 9223372036854775808 then some x else none

def add (x y : Int) : Option Int := i64 (x + y)

def sub (x y : Int) : Option Int := i64 (x - y)

def mul (x y : Int) : Option Int := i64 (x * y)

/-- Towards zero. -/
def div (x y : Int) : Option Int := if y = 0 then none else i64 (x.tdiv y)

/-- `as i64` wraps around. -/
def asI64 (x : ℕ) : Int := (x : Int).bmod 18446744073709551616

def asU32 (x : ℕ) : ℕ := x % 4294967296

/-! ## Formatting -/

/-- `{x:0w}`: the sign counts. -/
def zeroPadded (w : ℕ) (x : Int) : String :=
  let sign := if x < 0 then "-" else ""
  let digits := x.natAbs.repr
  sign ++ String.ofList (List.replicate (w - sign.length - digits.length) '0') ++ digits

/-! ## The date of a day

One definition for each line of the source that has more than one operation. -/

def era (z : Int) : Option Int := do
  let z ← (if z ≥ 0 then some z else sub z 146096)
  div z 146097

def dayOfEra (z era : Int) : Option Int := do sub z (← mul era 146097)

def yearOfEra (doe : Int) : Option Int := do
  div (← sub (← add (← sub doe (← div doe 1460)) (← div doe 36524)) (← div doe 146096)) 365

def yearOf (yoe era : Int) : Option Int := do add yoe (← mul era 400)

def dayOfYear (doe yoe : Int) : Option Int := do
  sub doe (← sub (← add (← mul 365 yoe) (← div yoe 4)) (← div yoe 100))

/-- The month, counted from March. -/
def monthOfYear (doy : Int) : Option Int := do div (← add (← mul 5 doy) 2) 153

def dayOfMonth (doy mp : Int) : Option Int := do
  add (← sub doy (← div (← add (← mul 153 mp) 2) 5)) 1

/-- The year, the month and the day that are so many days after the epoch. -/
def civil (days : Int) : Option (Int × Int × Int) := do
  let z ← add days 719468
  let era ← era z
  let doe ← dayOfEra z era
  let yoe ← yearOfEra doe
  let y ← yearOf yoe era
  let doy ← dayOfYear doe yoe
  let mp ← monthOfYear doy
  let d ← dayOfMonth doy mp
  let mo ← (if mp < 10 then add mp 3 else sub mp 9)
  let y ← (if mo ≤ 2 then add y 1 else some y)
  some (y, mo, d)

/-! ## The text -/

/-- Formats Unix epoch seconds as an RFC3339 UTC string. -/
def rfc3339 (secs : U64) : Option String := do
  let days := asI64 (secs.val / 86400)
  let rem := asU32 (secs.val % 86400)
  let (h, m, s) := (rem / 3600, rem % 3600 / 60, rem % 60)
  let (y, mo, d) ← civil days
  pure (zeroPadded 4 y ++ "-" ++ zeroPadded 2 mo ++ "-" ++ zeroPadded 2 d ++ "T" ++
    zeroPadded 2 h ++ ":" ++ zeroPadded 2 m ++ ":" ++ zeroPadded 2 s ++ "Z")

example : rfc3339 1789346096 = some "2026-09-14T00:34:56Z" := by decide +kernel

/-! ## Operations that stay small -/

theorem i64_cast {x : ℕ} (h : x < 9223372036854775808) : i64 x = some (x : Int) :=
  if_pos (by omega)

theorem add_cast {x y : ℕ} (h : x + y < 9223372036854775808) : add x y = some ((x + y : ℕ) : Int) :=
  i64_cast h

theorem sub_cast {x y : ℕ} (h : x < 9223372036854775808) (hle : y ≤ x) :
    sub x y = some ((x - y : ℕ) : Int) := by
  unfold sub
  rw [← Int.ofNat_sub hle]
  exact i64_cast (by omega)

theorem mul_cast {x y : ℕ} (h : x * y < 9223372036854775808) : mul x y = some ((x * y : ℕ) : Int) :=
  i64_cast h

theorem div_cast {x y : ℕ} (h : x < 9223372036854775808) (hy : 0 < y) :
    div x y = some ((x / y : ℕ) : Int) := by
  have hne : (y : Int) ≠ 0 := by omega
  have hle : x / y ≤ x := Nat.div_le_self x y
  unfold div
  rw [if_neg hne, ← Int.ofNat_tdiv]
  exact i64_cast (by omega)

theorem asI64_of_lt {x : ℕ} (h : x < 9223372036854775808) : asI64 x = x := by
  unfold asI64
  rw [Int.bmod_eq_of_le (by omega) (by omega)]

/-! ## The date -/

/-- An operation that succeeds goes on with its result. -/
theorem bind_of_eq {α β : Type} {x : Option α} {a : α} {f : α → Option β} (h : x = some a) :
    (x >>= f) = f a := by
  rw [h]
  rfl

theorem era_cast {z : ℕ} (h : z < 9223372036854775808) : era z = some ((z / 146097 : ℕ) : Int) := by
  have hsign : (if (z : Int) ≥ 0 then some (z : Int) else sub z 146096) = some (z : Int) :=
    if_pos (Int.natCast_nonneg z)
  have hdiv : div z 146097 = some ((z / 146097 : ℕ) : Int) := div_cast (y := 146097) h (by decide)
  unfold era
  rw [bind_of_eq hsign, hdiv]

theorem dayOfEra_cast {z : ℕ} (h : z < 9223372036854775808) :
    dayOfEra z (z / 146097 : ℕ) = some ((z % 146097 : ℕ) : Int) := by
  have hmul : mul (z / 146097 : ℕ) 146097 = some ((z / 146097 * 146097 : ℕ) : Int) :=
    mul_cast (y := 146097) (by omega)
  have hrest : z - z / 146097 * 146097 = z % 146097 := by omega
  have hsub := sub_cast h (Nat.div_mul_le_self z 146097)
  rw [hrest] at hsub
  unfold dayOfEra
  rw [bind_of_eq hmul, hsub]

theorem yearOfEra_cast {doe : ℕ} (h : doe < 146097) :
    yearOfEra doe = some (Lib.yearOfCycle doe : Int) := by
  have h1 : div doe 1460 = some ((doe / 1460 : ℕ) : Int) :=
    div_cast (y := 1460) (by omega) (by decide)
  have h2 : sub doe (doe / 1460 : ℕ) = some ((doe - doe / 1460 : ℕ) : Int) :=
    sub_cast (by omega) (by omega)
  have h3 : div doe 36524 = some ((doe / 36524 : ℕ) : Int) :=
    div_cast (y := 36524) (by omega) (by decide)
  have h4 : add (doe - doe / 1460 : ℕ) (doe / 36524 : ℕ) =
      some ((doe - doe / 1460 + doe / 36524 : ℕ) : Int) := add_cast (by omega)
  have h5 : div doe 146096 = some ((doe / 146096 : ℕ) : Int) :=
    div_cast (y := 146096) (by omega) (by decide)
  have h6 : sub (doe - doe / 1460 + doe / 36524 : ℕ) (doe / 146096 : ℕ) =
      some ((doe - doe / 1460 + doe / 36524 - doe / 146096 : ℕ) : Int) :=
    sub_cast (by omega) (by omega)
  have h7 : div (doe - doe / 1460 + doe / 36524 - doe / 146096 : ℕ) 365 =
      some (Lib.yearOfCycle doe : Int) := div_cast (y := 365) (by omega) (by decide)
  unfold yearOfEra
  rw [bind_of_eq h1, bind_of_eq h2, bind_of_eq h3, bind_of_eq h4, bind_of_eq h5, bind_of_eq h6, h7]

theorem yearOf_cast {yoe era : ℕ} (h : yoe < 400) (hera : era < 100000000000) :
    yearOf yoe era = some ((yoe + era * 400 : ℕ) : Int) := by
  have hmul : mul era 400 = some ((era * 400 : ℕ) : Int) := mul_cast (y := 400) (by omega)
  have hadd : add yoe (era * 400 : ℕ) = some ((yoe + era * 400 : ℕ) : Int) := add_cast (by omega)
  unfold yearOf
  rw [bind_of_eq hmul, hadd]

theorem dayOfYear_cast {doe yoe : ℕ} (h : doe < 146097) (hle : Lib.daysOfCycle yoe ≤ doe)
    (hyoe : yoe < 400) : dayOfYear doe yoe = some ((doe - Lib.daysOfCycle yoe : ℕ) : Int) := by
  have h1 : mul 365 yoe = some ((365 * yoe : ℕ) : Int) := mul_cast (x := 365) (by omega)
  have h2 : div yoe 4 = some ((yoe / 4 : ℕ) : Int) := div_cast (y := 4) (by omega) (by decide)
  have h3 : add (365 * yoe : ℕ) (yoe / 4 : ℕ) = some ((365 * yoe + yoe / 4 : ℕ) : Int) :=
    add_cast (by omega)
  have h4 : div yoe 100 = some ((yoe / 100 : ℕ) : Int) := div_cast (y := 100) (by omega) (by decide)
  have h5 : sub (365 * yoe + yoe / 4 : ℕ) (yoe / 100 : ℕ) = some (Lib.daysOfCycle yoe : Int) :=
    sub_cast (by omega) (by omega)
  have h6 := sub_cast (x := doe) (by omega) hle
  unfold dayOfYear
  rw [bind_of_eq h1, bind_of_eq h2, bind_of_eq h3, bind_of_eq h4, bind_of_eq h5, h6]

theorem monthOfYear_cast {doy : ℕ} (h : doy ≤ 365) :
    monthOfYear doy = some (Lib.monthOfYear doy : Int) := by
  have h1 : mul 5 doy = some ((5 * doy : ℕ) : Int) := mul_cast (x := 5) (by omega)
  have h2 : add (5 * doy : ℕ) 2 = some ((5 * doy + 2 : ℕ) : Int) := add_cast (y := 2) (by omega)
  have h3 : div (5 * doy + 2 : ℕ) 153 = some (Lib.monthOfYear doy : Int) :=
    div_cast (y := 153) (by omega) (by decide)
  unfold monthOfYear
  rw [bind_of_eq h1, bind_of_eq h2, h3]

theorem dayOfMonth_cast {doy mp : ℕ} (h : doy ≤ 365) (hle : Lib.daysOfYear mp ≤ doy) :
    dayOfMonth doy mp = some ((doy - Lib.daysOfYear mp + 1 : ℕ) : Int) := by
  have hmp : (153 * mp + 2) / 5 ≤ doy := hle
  have h1 : mul 153 mp = some ((153 * mp : ℕ) : Int) := mul_cast (x := 153) (by omega)
  have h2 : add (153 * mp : ℕ) 2 = some ((153 * mp + 2 : ℕ) : Int) := add_cast (y := 2) (by omega)
  have h3 : div (153 * mp + 2 : ℕ) 5 = some (Lib.daysOfYear mp : Int) :=
    div_cast (y := 5) (by omega) (by decide)
  have h4 := sub_cast (x := doy) (by omega) hle
  have h5 : add (doy - Lib.daysOfYear mp : ℕ) 1 = some ((doy - Lib.daysOfYear mp + 1 : ℕ) : Int) :=
    add_cast (y := 1) (by omega)
  unfold dayOfMonth
  rw [bind_of_eq h1, bind_of_eq h2, bind_of_eq h3, bind_of_eq h4, h5]

/-- **The checked chain is the algorithm of the calendar.** -/
theorem civil_cast {days : ℕ} (h : days < 1000000000000000) {y mo d : ℕ}
    (hcivil : Lib.civil (days + 719468) = (y, mo, d)) :
    civil days = some ((y : Int), (mo : Int), (d : Int)) := by
  have hz : add (days : Int) 719468 = some ((days + 719468 : ℕ) : Int) :=
    add_cast (y := 719468) (by omega)
  generalize hday : days + 719468 = z at hz hcivil
  obtain ⟨hcycle, hle, hge, -⟩ := Lib.yearOfCycle_spec (Nat.mod_lt z (by decide : 0 < 146097))
  have hera := era_cast (z := z) (by omega)
  have hdoe := dayOfEra_cast (z := z) (by omega)
  have hsmall : z % 146097 < 146097 := Nat.mod_lt z (by decide)
  have hyoe := yearOfEra_cast hsmall
  have hyear := yearOf_cast hcycle (by omega : z / 146097 < 100000000000)
  have hdoy := dayOfYear_cast hsmall hle hcycle
  have hlast : z % 146097 - Lib.daysOfCycle (Lib.yearOfCycle (z % 146097)) ≤ 365 := by omega
  have hmp := monthOfYear_cast hlast
  have hd := dayOfMonth_cast hlast (Lib.monthOfYear_spec _).1
  have hmax : Lib.monthOfYear
      (z % 146097 - Lib.daysOfCycle (Lib.yearOfCycle (z % 146097))) ≤ 11 := by
    unfold Lib.monthOfYear
    omega
  unfold civil
  rw [bind_of_eq hz, bind_of_eq hera, bind_of_eq hdoe, bind_of_eq hyoe, bind_of_eq hyear,
    bind_of_eq hdoy, bind_of_eq hmp, bind_of_eq hd]
  unfold Lib.civil at hcivil
  dsimp only at hcivil
  generalize Lib.monthOfYear (z % 146097 - Lib.daysOfCycle (Lib.yearOfCycle (z % 146097))) = mp
    at hmax hcivil ⊢
  by_cases hmarch : mp < 10
  · rw [if_pos hmarch, Prod.mk.injEq, Prod.mk.injEq] at hcivil
    obtain ⟨rfl, rfl, rfl⟩ := hcivil
    have hmo : (if (mp : Int) < 10 then add mp 3 else sub mp 9) = some ((mp + 3 : ℕ) : Int) := by
      rw [if_pos (by omega)]
      exact add_cast (y := 3) (by omega)
    have hsame : ¬ ((mp + 3 : ℕ) : Int) ≤ 2 := by omega
    rw [bind_of_eq hmo, if_neg hsame]
    rfl
  · rw [if_neg hmarch, Prod.mk.injEq, Prod.mk.injEq] at hcivil
    obtain ⟨rfl, rfl, rfl⟩ := hcivil
    have hmo : (if (mp : Int) < 10 then add mp 3 else sub mp 9) = some ((mp - 9 : ℕ) : Int) := by
      rw [if_neg (by omega)]
      exact sub_cast (y := 9) (by omega) (by omega)
    have hnext : ((mp - 9 : ℕ) : Int) ≤ 2 := by omega
    have hyear' :=
      add_cast (x := Lib.yearOfCycle (z % 146097) + z / 146097 * 400) (y := 1) (by omega)
    rw [bind_of_eq hmo, if_pos hnext]
    exact bind_of_eq hyear'

/-! ## Every instant -/

/-- The first of January of the year 1970. -/
def epoch : Lib.Date := ⟨1970, 1, 1, by decide, by decide⟩

theorem number_epoch : epoch.number = 719528 := by
  have hyears := Lib.daysBeforeYear_eq 1970
  have hmonths : Lib.daysBeforeMonth 1970 1 = 0 := rfl
  unfold Lib.Date.number epoch
  dsimp only
  omega

/-- What is printed for a time of a day. -/
def textOf (date : Lib.Date) (h m s : ℕ) : String :=
  zeroPadded 4 date.year ++ "-" ++ zeroPadded 2 date.month ++ "-" ++ zeroPadded 2 date.day ++ "T" ++
    zeroPadded 2 h ++ ":" ++ zeroPadded 2 m ++ ":" ++ zeroPadded 2 s ++ "Z"

theorem rfc3339_eq (secs : U64) {date : Lib.Date}
    (hdate : Lib.civil (secs.val / 86400 + 719468) = (date.year, date.month, date.day)) :
    rfc3339 secs = some (textOf date (secs.val % 86400 / 3600) (secs.val % 86400 % 3600 / 60)
      (secs.val % 86400 % 60)) := by
  have hsecs : secs.val < 18446744073709551616 := secs.isLt
  have hdays : asI64 (secs.val / 86400) = (secs.val / 86400 : ℕ) := asI64_of_lt (by omega)
  have hrem : asU32 (secs.val % 86400) = secs.val % 86400 := by
    unfold asU32
    omega
  have hcivil := civil_cast (by omega) hdate
  unfold rfc3339
  rw [hdays, hrem]
  dsimp only
  rw [bind_of_eq hcivil]
  rfl

/-- **Every instant is printed as the date and the time it has**, and nothing overflows: the number
    of the printed date is that of the epoch and the days since, and no other date has it. -/
theorem rfc3339_spec (secs : U64) : ∃ (date : Lib.Date) (h m s : ℕ),
    rfc3339 secs = some (textOf date h m s) ∧
    (1 ≤ date.month ∧ date.month ≤ 12) ∧
    (1 ≤ date.day ∧ date.day ≤ Lib.monthLength date.year date.month) ∧
    date.number = epoch.number + secs.val / 86400 ∧
    (∀ date' : Lib.Date, date'.number = epoch.number + secs.val / 86400 → date' = date) ∧
    h < 24 ∧ m < 60 ∧ s < 60 ∧ 3600 * h + 60 * m + s = secs.val % 86400 := by
  obtain ⟨date, hdate, hnumber⟩ := Lib.number_civil (secs.val / 86400 + 719468)
  have hepoch : date.number = epoch.number + secs.val / 86400 := by
    rw [number_epoch, hnumber]
    omega
  refine ⟨date, _, _, _, rfc3339_eq secs hdate, date.month_range, date.day_range, hepoch,
    fun date' h => Lib.Date.number_injective (h.trans hepoch.symm), ?_⟩
  omega

end PhReactor.Status
