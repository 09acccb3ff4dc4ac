import Mathlib.Data.Int.Order.Basic
import Mathlib.Order.Lattice
import Mathlib.Tactic.IntervalCases
import Mathlib.Tactic.NormNum

/-! `chrono::NaiveDate`: a day of the proleptic Gregorian calendar, held as its distance
from the common era. Only days inside the crate's range can be built. -/
namespace Munarium

def isLeapYear (year : ℤ) : Bool := year % 4 == 0 && (year % 100 != 0 || year % 400 == 0)

def daysBeforeYear (year : ℤ) : ℤ :=
  365 * (year - 1) + (year - 1) / 4 - (year - 1) / 100 + (year - 1) / 400

/-- Days of the year before the month begins, outside leap years. -/
def daysBeforeMonth : ℕ → ℤ
  | 1 => 0 | 2 => 31 | 3 => 59 | 4 => 90 | 5 => 120 | 6 => 151
  | 7 => 181 | 8 => 212 | 9 => 243 | 10 => 273 | 11 => 304 | 12 => 334
  | _ => 365

def leapDay (year : ℤ) (month : ℕ) : ℤ := if 2 < month ∧ isLeapYear year then 1 else 0

/-- The first day of year 1 is day 1. -/
def dayNumber (year : ℤ) (month day : ℕ) : ℤ :=
  daysBeforeYear year + daysBeforeMonth month + leapDay year month + day

def daysInMonth (year : ℤ) (month : ℕ) : ℤ :=
  daysBeforeMonth (month + 1) + leapDay year (month + 1) -
    (daysBeforeMonth month + leapDay year month)

namespace NaiveDate

/-- January 1, -262143. -/
def minDay : ℤ := -95746129

/-- December 31, 262142. -/
def maxDay : ℤ := 95745399

end NaiveDate

structure NaiveDate where
  day : ℤ
  inRange : NaiveDate.minDay ≤ day ∧ day ≤ NaiveDate.maxDay
  deriving DecidableEq

namespace NaiveDate

theorem day_injective : Function.Injective NaiveDate.day := by
  rintro ⟨a, ha⟩ ⟨b, hb⟩ h
  cases h
  rfl

instance : LinearOrder NaiveDate := LinearOrder.lift' NaiveDate.day day_injective

theorem le_iff {a b : NaiveDate} : a ≤ b ↔ a.day ≤ b.day := Iff.rfl

theorem lt_iff {a b : NaiveDate} : a < b ↔ a.day < b.day := Iff.rfl

def ofDay (day : ℤ) : Option NaiveDate :=
  if h : minDay ≤ day ∧ day ≤ maxDay then some ⟨day, h⟩ else none

def fromYmdOpt (year : ℤ) (month day : ℕ) : Option NaiveDate :=
  if 1 ≤ month ∧ month ≤ 12 ∧ 1 ≤ day ∧ (day : ℤ) ≤ daysInMonth year month then
    ofDay (dayNumber year month day)
  else none

def predOpt (d : NaiveDate) : Option NaiveDate := ofDay (d.day - 1)

/-- A whole number of days, as `Duration::try_days` admits it: its milliseconds fit `i64`. -/
def tryDays (days : ℤ) : Option ℤ :=
  if -9223372036854775 ≤ days * 86400 ∧ days * 86400 ≤ 9223372036854775 then some days else none

def checkedAddSigned (d : NaiveDate) (days : ℤ) : Option NaiveDate := ofDay (d.day + days)

theorem ofDay_eq_some {n : ℤ} {d : NaiveDate} (h : ofDay n = some d) : d.day = n := by
  unfold ofDay at h
  split_ifs at h
  cases h
  rfl

theorem fromYmdOpt_eq_some {year : ℤ} {month day : ℕ} {d : NaiveDate}
    (h : fromYmdOpt year month day = some d) :
    d.day = dayNumber year month day ∧ 1 ≤ month ∧ month ≤ 12 := by
  unfold fromYmdOpt at h
  split_ifs at h with hm
  exact ⟨ofDay_eq_some h, hm.1, hm.2.1⟩

theorem predOpt_eq_some {d e : NaiveDate} (h : d.predOpt = some e) : e.day = d.day - 1 :=
  ofDay_eq_some h

theorem checkedAddSigned_eq_some {d e : NaiveDate} {n : ℤ}
    (h : d.checkedAddSigned n = some e) : e.day = d.day + n := ofDay_eq_some h

/-- Year, month and day of a day number, counting years from March. -/
def toYmd (d : NaiveDate) : ℤ × ℤ × ℤ :=
  let z := d.day + 305
  let era := z / 146097
  let doe := z % 146097
  let yoe := (doe - doe / 1460 + doe / 36524 - doe / 146096) / 365
  let doy := doe - (365 * yoe + yoe / 4 - yoe / 100)
  let mp := (5 * doy + 2) / 153
  let month := if mp < 10 then mp + 3 else mp - 9
  let year := yoe + era * 400 + if month ≤ 2 then 1 else 0
  (year, month, doy - (153 * mp + 2) / 5 + 1)

/-- A number padded with zeros to a width. -/
def padded (width : ℕ) (n : ℕ) : String :=
  let digits := (toString n).toList
  String.ofList (List.replicate (width - digits.length) '0' ++ digits)

/-- `YYYY-MM-DD`; a year outside four digits carries its sign. -/
def toText (d : NaiveDate) : String :=
  let (year, month, day) := d.toYmd
  let yearText :=
    if 0 ≤ year ∧ year ≤ 9999 then padded 4 year.toNat
    else (if year < 0 then "-" else "+") ++ padded 4 year.natAbs
  yearText ++ "-" ++ padded 2 month.toNat ++ "-" ++ padded 2 day.toNat

example : (fromYmdOpt 2024 2 29).map toText = some "2024-02-29" := by decide
example : fromYmdOpt 2023 2 29 = none := by decide

end NaiveDate

theorem daysBeforeYear_mono {y z : ℤ} (h : y ≤ z) : daysBeforeYear y ≤ daysBeforeYear z := by
  unfold daysBeforeYear
  omega

theorem daysBeforeYear_succ (y : ℤ) : daysBeforeYear y + 365 ≤ daysBeforeYear (y + 1) := by
  unfold daysBeforeYear
  omega

theorem daysBeforeMonth_mono {m n : ℕ} (hm : 1 ≤ m) (h : m ≤ n) (hn : n ≤ 12) :
    daysBeforeMonth m ≤ daysBeforeMonth n := by
  interval_cases n <;> interval_cases m <;> simp [daysBeforeMonth]

theorem daysBeforeMonth_succ {m : ℕ} (hm : 1 ≤ m) (h : m ≤ 11) :
    daysBeforeMonth m + 28 ≤ daysBeforeMonth (m + 1) := by
  interval_cases m <;> simp [daysBeforeMonth]

theorem leapDay_mono (year : ℤ) {m n : ℕ} (h : m ≤ n) : leapDay year m ≤ leapDay year n := by
  unfold leapDay
  split_ifs with hm hn
  · exact le_rfl
  · exact absurd ⟨by omega, hm.2⟩ hn
  · omega
  · exact le_rfl

theorem leapDay_bounds (year : ℤ) (m : ℕ) : 0 ≤ leapDay year m ∧ leapDay year m ≤ 1 := by
  unfold leapDay
  split_ifs <;> omega

end Munarium
