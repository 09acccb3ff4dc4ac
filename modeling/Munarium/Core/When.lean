import Munarium.Core.Calendar
import Munarium.Std.Json
import Munarium.Std.Regex

/-! Calendar assertions: the interval a claim value stands for, and the parser that
turns text into one or declines. -/
namespace Munarium

inductive Precision where
  | day | month | year
  deriving DecidableEq

def Precision.text : Precision → String
  | day => "day"
  | month => "month"
  | year => "year"

/-- The days an assertion may mean, both ends included. `stop` is the source's `end`. -/
structure When where
  start : NaiveDate
  stop : NaiveDate
  precision : Precision
  uncertain : Bool
  deriving DecidableEq

namespace When

def overlaps (w other : When) : Bool :=
  decide (w.start ≤ other.stop) && decide (other.start ≤ w.stop)

/-- True only when this is certainly earlier. -/
def definitelyBefore (w other : When) : Bool :=
  !w.uncertain && !other.uncertain && decide (w.stop < other.start)

def definitelyAfter (w other : When) : Bool := other.definitelyBefore w

def toJson (w : When) : Json :=
  .object [("start", .str w.start.toText), ("end", .str w.stop.toText),
    ("precision", .str w.precision.text), ("uncertain", .bool w.uncertain)]

/-- The interval is not empty. -/
def Ordered (w : When) : Prop := w.start ≤ w.stop

end When

def monthEnd (year : ℤ) (month : ℕ) : Option NaiveDate :=
  if month = 12 then NaiveDate.fromYmdOpt year 12 31
  else (NaiveDate.fromYmdOpt year (month + 1) 1).bind NaiveDate.predOpt

section Grammar
open Pattern

def monthNames : List String :=
  ["january", "february", "march", "april", "august", "september", "october", "november",
    "december", "june", "july", "sept", "jan", "feb", "mar", "apr", "may", "jun", "jul",
    "aug", "sep", "oct", "nov", "dec"]

def circa : Pattern Unit := do
  let _ ← firstOf [caseless "circa", caseless "ca.", caseless "ca", caseless "c.",
    caseless "~", caseless "approx.", caseless "approximately", caseless "approx",
    caseless "around", caseless "about"]
  spaces

def rangeSep (word : Pattern (List Char)) : Pattern Unit := do
  spaces
  let _ ← firstOf [exact "-", exact "–", exact "—", word]
  spaces

/-- A month name with its optional full stop. -/
def monthName : Pattern (List Char) := do
  let name ← firstOf (monthNames.map caseless)
  optional (exact ".")
  pure name

def dayNumeral : Pattern ℕ := do
  let day ← firstOf [digits 2, digits 1]
  optional (firstOf [caseless "st", caseless "nd", caseless "rd", caseless "th"])
  pure day

def isoDay : Pattern (ℕ × ℕ × ℕ) := do
  let year ← digits 4
  let _ ← exact "-"
  let month ← digits 2
  let _ ← exact "-"
  let day ← digits 2
  pure (year, month, day)

def isoMonth : Pattern (ℕ × ℕ) := do
  let year ← digits 4
  let _ ← exact "-"
  let month ← digits 2
  pure (year, month)

def yearRange : Pattern (ℕ × ℕ) := do
  let first ← digits 4
  rangeSep (exact "to")
  let last ← digits 4
  pure (first, last)

def monthYear : Pattern (List Char × ℕ) := do
  let month ← monthName
  spaces1
  let year ← digits 4
  pure (month, year)

def monthRange : Pattern (List Char × List Char × ℕ) := do
  let first ← monthName
  rangeSep (caseless "to")
  let last ← monthName
  spaces1
  let year ← digits 4
  pure (first, last, year)

def monthDayYear : Pattern (List Char × ℕ × ℕ) := do
  let month ← monthName
  spaces1
  let day ← dayNumeral
  let _ ← firstOf [do let _ ← exact ","; spaces, spaces1]
  let year ← digits 4
  pure (month, day, year)

def dayMonthYear : Pattern (ℕ × List Char × ℕ) := do
  let day ← dayNumeral
  spaces1
  let month ← monthName
  optional (exact ",")
  spaces1
  let year ← digits 4
  pure (day, month, year)

def season : Pattern (List Char × ℕ) := do
  let name ← firstOf [caseless "spring", caseless "summer", caseless "autumn",
    caseless "fall", caseless "winter"]
  spaces1
  let year ← digits 4
  pure (name, year)

end Grammar

/-- One day, when the calendar has it. -/
def When.ofDay (day : Option NaiveDate) (uncertain : Bool) : Option When :=
  day.map fun d => { start := d, stop := d, precision := .day, uncertain := uncertain }

/-- A span, when the calendar has both ends. -/
def When.ofSpan (start stop : Option NaiveDate) (precision : Precision) (uncertain : Bool) :
    Option When :=
  start.bind fun s => stop.map fun e =>
    { start := s, stop := e, precision := precision, uncertain := uncertain }

section
variable [Unicode]
open NaiveDate (fromYmdOpt)

def monthNum (name : List Char) : Option ℕ :=
  match toLowercase (String.ofList name) with
  | "january" | "jan" => some 1
  | "february" | "feb" => some 2
  | "march" | "mar" => some 3
  | "april" | "apr" => some 4
  | "may" => some 5
  | "june" | "jun" => some 6
  | "july" | "jul" => some 7
  | "august" | "aug" => some 8
  | "september" | "sep" | "sept" => some 9
  | "october" | "oct" => some 10
  | "november" | "nov" => some 11
  | "december" | "dec" => some 12
  | _ => none

/-- First and last month; winter ends in the year after. -/
def seasonMonths (name : List Char) : Option (ℕ × ℕ) :=
  match toLowercase (String.ofList name) with
  | "spring" => some (3, 5)
  | "summer" => some (6, 8)
  | "autumn" | "fall" => some (9, 11)
  | "winter" => some (12, 2)
  | _ => none

/-- The forms of the grammar in the order they are tried. A form that matches the text
decides, even when its numbers name no date. -/
def parseCleaned (cleaned : List Char) (uncertain : Bool) : Option When :=
  if let some (year, month, day) := isoDay.fullMatch cleaned then
    When.ofDay (fromYmdOpt year month day) uncertain
  else if let some (year, month) := isoMonth.fullMatch cleaned then
    if 1 ≤ month ∧ month ≤ 12 then
      When.ofSpan (fromYmdOpt year month 1) (monthEnd year month) .month uncertain
    else none
  else if let some (first, last) := yearRange.fullMatch cleaned then
    if first > last then none
    else When.ofSpan (fromYmdOpt first 1 1) (fromYmdOpt last 12 31) .year uncertain
  else if let some year := (Pattern.digits 4).fullMatch cleaned then
    When.ofSpan (fromYmdOpt year 1 1) (fromYmdOpt year 12 31) .year uncertain
  else if let some (first, last, year) := monthRange.fullMatch cleaned then
    (monthNum first).bind fun m1 => (monthNum last).bind fun m2 =>
      if m1 > m2 then none
      else When.ofSpan (fromYmdOpt year m1 1) (monthEnd year m2) .month uncertain
  else if let some (month, day, year) := monthDayYear.fullMatch cleaned then
    (monthNum month).bind fun m => When.ofDay (fromYmdOpt year m day) uncertain
  else if let some (day, month, year) := dayMonthYear.fullMatch cleaned then
    (monthNum month).bind fun m => When.ofDay (fromYmdOpt year m day) uncertain
  else if let some (month, year) := monthYear.fullMatch cleaned then
    (monthNum month).bind fun m =>
      When.ofSpan (fromYmdOpt year m 1) (monthEnd year m) .month uncertain
  else if let some (name, year) := season.fullMatch cleaned then
    (seasonMonths name).bind fun (first, last) =>
      -- a season is hedged whatever the markers say
      let endYear : ℤ := if last < first then (year : ℤ) + 1 else year
      When.ofSpan (fromYmdOpt year first 1) (monthEnd endYear last) .month true
  else none

/-- Parse one calendar assertion; anything outside the grammar is declined. -/
def parseWhen (text : String) : Option When :=
  let cleaned := trimChars text.toList
  if cleaned.isEmpty then none
  else match circa.afterMatch cleaned with
    | some rest =>
        let hedged := trimChars rest
        if hedged.isEmpty then none else parseCleaned hedged true
    | none => parseCleaned cleaned false

end

/-! What the parser returns is an interval. -/

theorem When.ofDay_ordered {day : Option NaiveDate} {u : Bool} {w : When}
    (h : When.ofDay day u = some w) : w.Ordered := by
  obtain ⟨d, -, rfl⟩ := Option.map_eq_some_iff.mp h
  exact le_refl d

theorem When.ofSpan_ordered {start stop : Option NaiveDate} {p : Precision} {u : Bool}
    {w : When} (hse : ∀ s e, start = some s → stop = some e → s ≤ e)
    (h : When.ofSpan start stop p u = some w) : w.Ordered := by
  obtain ⟨s, hs, h⟩ := Option.bind_eq_some_iff.mp h
  obtain ⟨e, he, rfl⟩ := Option.map_eq_some_iff.mp h
  exact hse s e hs he

/-- The last day of a month does not precede the first day of an earlier or equal one. -/
theorem first_le_monthEnd {year : ℤ} {m n : ℕ} (hmn : m ≤ n) {s e : NaiveDate}
    (hs : NaiveDate.fromYmdOpt year m 1 = some s) (he : monthEnd year n = some e) : s ≤ e := by
  obtain ⟨hsd, hm1, -⟩ := NaiveDate.fromYmdOpt_eq_some hs
  rw [NaiveDate.le_iff]
  unfold monthEnd at he
  split_ifs at he with hn
  · obtain ⟨hed, -, -⟩ := NaiveDate.fromYmdOpt_eq_some he
    have hmonth := daysBeforeMonth_mono hm1 (hn ▸ hmn) le_rfl
    have hleap := leapDay_mono year (hn ▸ hmn : m ≤ 12)
    simp only [dayNumber] at hsd hed
    omega
  · obtain ⟨f, hf, he⟩ := Option.bind_eq_some_iff.mp he
    obtain ⟨hfd, -, hn12⟩ := NaiveDate.fromYmdOpt_eq_some hf
    have hed := NaiveDate.predOpt_eq_some he
    have hmonth := daysBeforeMonth_mono hm1 hmn (by omega)
    have hnext := daysBeforeMonth_succ (hm1.trans hmn) (by omega)
    have hleap := leapDay_mono year (show m ≤ n + 1 by omega)
    simp only [dayNumber] at hsd hfd
    omega

theorem first_le_yearEnd {y z : ℤ} (hyz : y ≤ z) {s e : NaiveDate}
    (hs : NaiveDate.fromYmdOpt y 1 1 = some s) (he : NaiveDate.fromYmdOpt z 12 31 = some e) :
    s ≤ e := by
  obtain ⟨hsd, -, -⟩ := NaiveDate.fromYmdOpt_eq_some hs
  obtain ⟨hed, -, -⟩ := NaiveDate.fromYmdOpt_eq_some he
  have hyear := daysBeforeYear_mono hyz
  have hleap := leapDay_bounds z 12
  rw [NaiveDate.le_iff]
  simp only [dayNumber, daysBeforeMonth, leapDay] at hsd hed hleap
  simp at hsd
  omega

/-- Winter of a year ends in February of the next. -/
theorem december_le_monthEnd {y : ℤ} {s e : NaiveDate}
    (hs : NaiveDate.fromYmdOpt y 12 1 = some s) (he : monthEnd (y + 1) 2 = some e) : s ≤ e := by
  obtain ⟨hsd, -, -⟩ := NaiveDate.fromYmdOpt_eq_some hs
  rw [monthEnd, if_neg (by decide)] at he
  obtain ⟨f, hf, he⟩ := Option.bind_eq_some_iff.mp he
  obtain ⟨hfd, -, -⟩ := NaiveDate.fromYmdOpt_eq_some hf
  have hed := NaiveDate.predOpt_eq_some he
  have hyear := daysBeforeYear_succ y
  have hdec := leapDay_bounds y 12
  have hfeb := leapDay_bounds (y + 1) (2 + 1)
  rw [NaiveDate.le_iff]
  simp only [dayNumber, daysBeforeMonth] at hsd hfd
  omega

theorem seasonMonths_cases [Unicode] {name : List Char} {first last : ℕ}
    (h : seasonMonths name = some (first, last)) :
    first ≤ last ∨ (first = 12 ∧ last = 2) := by
  unfold seasonMonths at h
  split at h <;> simp at h <;> omega

theorem parseCleaned_ordered [Unicode] {cleaned : List Char} {u : Bool} {w : When}
    (h : parseCleaned cleaned u = some w) : w.Ordered := by
  unfold parseCleaned at h
  split at h
  · exact When.ofDay_ordered h
  split at h
  · split_ifs at h
    exact When.ofSpan_ordered (fun s e => first_le_monthEnd le_rfl) h
  split at h
  · split_ifs at h with hle
    exact When.ofSpan_ordered (fun s e => first_le_yearEnd (by exact_mod_cast not_lt.mp hle)) h
  split at h
  · exact When.ofSpan_ordered (fun s e => first_le_yearEnd le_rfl) h
  split at h
  · obtain ⟨m1, -, h⟩ := Option.bind_eq_some_iff.mp h
    obtain ⟨m2, -, h⟩ := Option.bind_eq_some_iff.mp h
    split_ifs at h with hle
    exact When.ofSpan_ordered (fun s e => first_le_monthEnd (not_lt.mp hle)) h
  split at h
  · obtain ⟨m, -, h⟩ := Option.bind_eq_some_iff.mp h
    exact When.ofDay_ordered h
  split at h
  · obtain ⟨m, -, h⟩ := Option.bind_eq_some_iff.mp h
    exact When.ofDay_ordered h
  split at h
  · obtain ⟨m, -, h⟩ := Option.bind_eq_some_iff.mp h
    exact When.ofSpan_ordered (fun s e => first_le_monthEnd le_rfl) h
  split at h
  · obtain ⟨⟨first, last⟩, hm, h⟩ := Option.bind_eq_some_iff.mp h
    rcases seasonMonths_cases hm with hle | ⟨rfl, rfl⟩
    · simp only [if_neg (not_lt.mpr hle)] at h
      exact When.ofSpan_ordered (fun s e => first_le_monthEnd hle) h
    · exact When.ofSpan_ordered (fun s e => december_le_monthEnd) h
  · simp at h

/-- Every parsed assertion starts no later than it ends. -/
theorem parseWhen_ordered [Unicode] {text : String} {w : When}
    (h : parseWhen text = some w) : w.Ordered := by
  unfold parseWhen at h
  simp only at h
  split_ifs at h
  split at h
  · split_ifs at h
    exact parseCleaned_ordered h
  · exact parseCleaned_ordered h

end Munarium
