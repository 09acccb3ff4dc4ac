import Munarium.Core.Calendar
import Munarium.Lib.Digits
import Mathlib.Data.List.TakeWhile
import Mathlib.Data.Prod.Lex

/-! RFC 3339 timestamps as `chrono::DateTime::parse_from_rfc3339` accepts them: their
fields, their text, the instant they denote, and when the order of two texts is the
order of the instants. -/
namespace Munarium

open Digits

/-- What may stand between the date and the time. -/
inductive Separator where
  | upperT | lowerT | space
  deriving DecidableEq

def Separator.char : Separator → Char
  | upperT => 'T' | lowerT => 't' | space => ' '

inductive OffsetSign where
  | plus | hyphen | minus
  deriving DecidableEq

/-- The crate reads U+2212 as a minus sign too. -/
def OffsetSign.char : OffsetSign → Char
  | plus => '+' | hyphen => '-' | minus => '−'

inductive Offset where
  | upperZ | lowerZ
  | signed (sign : OffsetSign) (hours : Fin 24) (minutes : Fin 60)
  deriving DecidableEq

/-- Minutes east of UTC. -/
def Offset.minutes : Offset → ℤ
  | upperZ | lowerZ => 0
  | signed .plus hours minutes => hours * 60 + minutes
  | signed _ hours minutes => -(hours * 60 + minutes)

/-- Three numbers with a mark between them: a date, or a time of day. -/
def triple (width : ℕ) (mark : Char) (a b c : ℕ) : List Char :=
  fixed width a ++ mark :: (fixed 2 b ++ mark :: fixed 2 c)

def Offset.chars : Offset → List Char
  | upperZ => ['Z']
  | lowerZ => ['z']
  | signed sign hours minutes => sign.char :: (fixed 2 hours ++ ':' :: fixed 2 minutes)

/-- The fields of an accepted timestamp. The crate allows second 60 in every minute. -/
structure Timestamp where
  year : ℕ
  month : ℕ
  day : ℕ
  separator : Separator
  hour : ℕ
  minute : ℕ
  second : ℕ
  fraction : List (Fin 10)
  offset : Offset
  inRange : year < 10000 ∧ 1 ≤ month ∧ month ≤ 12 ∧ 1 ≤ day ∧
    (day : ℤ) ≤ daysInMonth year month ∧ hour < 24 ∧ minute < 60 ∧ second ≤ 60
  deriving DecidableEq

namespace Timestamp

def fractionChars : List (Fin 10) → List Char
  | [] => []
  | d :: ds => '.' :: Digits.chars (d :: ds)

def tailChars (t : Timestamp) : List Char := fractionChars t.fraction ++ t.offset.chars

def chars (t : Timestamp) : List Char :=
  triple 4 '-' t.year t.month t.day ++
    t.separator.char :: (triple 2 ':' t.hour t.minute t.second ++ t.tailChars)

def text (t : Timestamp) : String := String.ofList t.chars

/-- Minutes of the calendar as the timestamp writes them, before its offset. -/
def localMinute (t : Timestamp) : ℤ :=
  (dayNumber t.year t.month t.day * 24 + t.hour) * 60 + t.minute

/-- The instant: a second of UTC, and how far into it. A leap second runs on in the
second before it. -/
def instant (t : Timestamp) : ℤ ×ₗ ℚ :=
  toLex ((t.localMinute - t.offset.minutes) * 60 + (min t.second 59 : ℕ),
    Digits.fraction t.fraction + if t.second = 60 then 1 else 0)

theorem day_lt (t : Timestamp) : t.day < 100 := by
  obtain ⟨-, hm₁, hm₂, -, hd, -⟩ := t.inRange
  have hleap := leapDay_bounds t.year (t.month + 1)
  have hleap' := leapDay_bounds t.year t.month
  have hlen : daysBeforeMonth (t.month + 1) - daysBeforeMonth t.month ≤ 31 := by
    revert hm₁ hm₂
    generalize t.month = m
    intro hm₁ hm₂
    interval_cases m <;> simp [daysBeforeMonth]
  unfold daysInMonth at hd
  omega

end Timestamp

section Scanner

def scanChar (c : Char) : List Char → Option (List Char)
  | [] => none
  | d :: cs => if d = c then some cs else none

def scanTriple (width : ℕ) (mark : Char) (cs : List Char) :
    Option ((ℕ × ℕ × ℕ) × List Char) := do
  let (a, cs) ← scan width 0 cs
  let cs ← scanChar mark cs
  let (b, cs) ← scan 2 0 cs
  let cs ← scanChar mark cs
  let (c, cs) ← scan 2 0 cs
  some ((a, b, c), cs)

def scanSeparator : List Char → Option (Separator × List Char)
  | 'T' :: cs => some (.upperT, cs)
  | 't' :: cs => some (.lowerT, cs)
  | ' ' :: cs => some (.space, cs)
  | _ => none

def digitOf (c : Char) : Fin 10 := Fin.ofNat 10 (c.toNat - 48)

/-- A point asks for at least one digit and takes all that follow. -/
def scanFraction : List Char → Option (List (Fin 10) × List Char)
  | '.' :: cs =>
      if (cs.takeWhile Char.isDigit).isEmpty then none
      else some ((cs.takeWhile Char.isDigit).map digitOf, cs.dropWhile Char.isDigit)
  | cs => some ([], cs)

def scanSign : List Char → Option (OffsetSign × List Char)
  | '+' :: cs => some (.plus, cs)
  | '-' :: cs => some (.hyphen, cs)
  | '−' :: cs => some (.minus, cs)
  | _ => none

/-- The offset ends the text. -/
def scanOffset : List Char → Option Offset
  | ['Z'] => some .upperZ
  | ['z'] => some .lowerZ
  | cs => do
      let (sign, cs) ← scanSign cs
      let (hours, cs) ← scan 2 0 cs
      let cs ← scanChar ':' cs
      let (minutes, cs) ← scan 2 0 cs
      if h : hours < 24 ∧ minutes < 60 then
        if cs = [] then some (.signed sign ⟨hours, h.1⟩ ⟨minutes, h.2⟩) else none
      else none

theorem scanChar_eq_some_iff {c : Char} {cs rest : List Char} :
    scanChar c cs = some rest ↔ cs = c :: rest := by
  cases cs with
  | nil => simp [scanChar]
  | cons d cs =>
    simp only [scanChar, List.cons.injEq]
    split_ifs with h <;> simp [h]

theorem scanSeparator_eq_some_iff {cs rest : List Char} {s : Separator} :
    scanSeparator cs = some (s, rest) ↔ cs = s.char :: rest := by
  constructor
  · intro h
    unfold scanSeparator at h
    split at h <;> cases h <;> rfl
  · rintro rfl
    cases s <;> rfl

theorem scanSign_eq_some_iff {cs rest : List Char} {s : OffsetSign} :
    scanSign cs = some (s, rest) ↔ cs = s.char :: rest := by
  constructor
  · intro h
    unfold scanSign at h
    split at h <;> cases h <;> rfl
  · rintro rfl
    cases s <;> rfl

theorem scan_zero_eq_some_iff {width v : ℕ} {cs rest : List Char} :
    scan width 0 cs = some (v, rest) ↔ v < 10 ^ width ∧ cs = fixed width v ++ rest := by
  rw [scan_eq_some_iff]
  constructor
  · rintro ⟨k, hk, rfl, rfl⟩
    simpa using hk
  · rintro ⟨hv, rfl⟩
    exact ⟨v, hv, by simp, rfl⟩

theorem scanTriple_eq_some_iff {width a b c : ℕ} {mark : Char} {cs rest : List Char} :
    scanTriple width mark cs = some ((a, b, c), rest) ↔
      (a < 10 ^ width ∧ b < 100 ∧ c < 100) ∧ cs = triple width mark a b c ++ rest := by
  simp only [scanTriple, Option.bind_eq_bind, Option.bind_eq_some_iff, Prod.exists,
    Option.some.injEq, Prod.mk.injEq, scan_zero_eq_some_iff, scanChar_eq_some_iff]
  constructor
  · rintro ⟨_, _, ⟨ha, rfl⟩, _, rfl, _, _, ⟨hb, rfl⟩, _, rfl, _, _, ⟨hc, rfl⟩, ⟨rfl, rfl, rfl⟩,
      rfl⟩
    exact ⟨⟨ha, by simpa using hb, by simpa using hc⟩, by simp [triple]⟩
  · rintro ⟨⟨ha, hb, hc⟩, rfl⟩
    exact ⟨a, _, ⟨ha, by simp [triple]⟩, _, rfl, b, _, ⟨by simpa using hb, rfl⟩, _, rfl, c, _,
      ⟨by simpa using hc, rfl⟩, ⟨rfl, rfl, rfl⟩, rfl⟩

theorem digitChar_digitOf {c : Char} (h : c.isDigit = true) :
    Nat.digitChar (digitOf c).val = c := by
  obtain ⟨d, rfl⟩ := exists_digitChar h
  revert d
  decide

theorem digitOf_digitChar : ∀ d : Fin 10, digitOf (Nat.digitChar d.val) = d := by decide

theorem chars_map_digitOf {cs : List Char} (h : ∀ c ∈ cs, c.isDigit = true) :
    Digits.chars (cs.map digitOf) = cs := by
  rw [Digits.chars, List.map_map]
  apply (List.map_congr_left _).trans (List.map_id cs)
  intro c hc
  exact digitChar_digitOf (h c hc)

theorem isDigit_of_mem_chars {ds : List (Fin 10)} {c : Char} (h : c ∈ Digits.chars ds) :
    c.isDigit = true := by
  obtain ⟨d, -, rfl⟩ := List.mem_map.mp h
  exact isDigit_digitChar d

theorem chars_of_scanFraction {cs rest : List Char} {ds : List (Fin 10)}
    (h : scanFraction cs = some (ds, rest)) : cs = Timestamp.fractionChars ds ++ rest := by
  unfold scanFraction at h
  split at h
  · next cs =>
    split_ifs at h with he
    obtain ⟨rfl, rfl⟩ := Prod.mk.injEq .. ▸ Option.some.inj h
    have hall : ∀ c ∈ cs.takeWhile Char.isDigit, c.isDigit = true := by
      intro c hc
      exact List.mem_takeWhile_imp hc
    have hchars := chars_map_digitOf hall
    cases hm : (cs.takeWhile Char.isDigit).map digitOf with
    | nil => simp_all
    | cons d ds =>
      rw [Timestamp.fractionChars, ← hm, hchars]
      simp
  · cases h
    rfl

theorem scanFraction_chars (ds : List (Fin 10)) {c : Char} {rest : List Char}
    (hdigit : c.isDigit = false) (hpoint : c ≠ '.') :
    scanFraction (Timestamp.fractionChars ds ++ c :: rest) = some (ds, c :: rest) := by
  cases ds with
  | nil =>
    rw [Timestamp.fractionChars, List.nil_append]
    unfold scanFraction
    split
    · next h => exact absurd (List.cons.inj h).1 hpoint
    · rfl
  | cons d ds =>
    have hall : ∀ c ∈ Digits.chars (d :: ds), c.isDigit = true := by
      intro c hc
      exact isDigit_of_mem_chars hc
    have htake : (Digits.chars (d :: ds) ++ c :: rest).takeWhile Char.isDigit =
        Digits.chars (d :: ds) := by
      rw [List.takeWhile_append_of_pos hall, List.takeWhile_cons_of_neg (by simp [hdigit])]
      simp
    have hdrop : (Digits.chars (d :: ds) ++ c :: rest).dropWhile Char.isDigit = c :: rest := by
      rw [List.dropWhile_append_of_pos hall, List.dropWhile_cons_of_neg (by simp [hdigit])]
    have hback : (Digits.chars (d :: ds)).map digitOf = d :: ds := by
      rw [Digits.chars, List.map_map]
      apply (List.map_congr_left _).trans (List.map_id _)
      intro e _
      exact digitOf_digitChar e
    simp only [Timestamp.fractionChars, List.cons_append, scanFraction]
    rw [htake, hdrop, hback]
    simp [Digits.chars]

theorem scanOffset_eq_some_iff {cs : List Char} {o : Offset} :
    scanOffset cs = some o ↔ cs = o.chars := by
  constructor
  · intro h
    unfold scanOffset at h
    split at h
    · cases h
      rfl
    · cases h
      rfl
    · simp only [Option.bind_eq_bind, Option.bind_eq_some_iff, Prod.exists] at h
      obtain ⟨sign, cs₁, hs, hours, cs₂, hh, cs₃, hc, minutes, cs₄, hm, h⟩ := h
      split_ifs at h with hr hn
      cases h
      obtain rfl := scanSign_eq_some_iff.mp hs
      obtain ⟨-, rfl⟩ := scan_zero_eq_some_iff.mp hh
      obtain rfl := scanChar_eq_some_iff.mp hc
      obtain ⟨-, rfl⟩ := scan_zero_eq_some_iff.mp hm
      simp [Offset.chars, hn]
  · rintro rfl
    cases o with
    | upperZ => rfl
    | lowerZ => rfl
    | signed sign hours minutes =>
      have hh : hours.val < 10 ^ 2 := hours.isLt.trans (by norm_num)
      have hm : minutes.val < 10 ^ 2 := minutes.isLt.trans (by norm_num)
      unfold scanOffset
      split
      · next h => cases sign <;> simp [Offset.chars, OffsetSign.char] at h
      · next h => cases sign <;> simp [Offset.chars, OffsetSign.char] at h
      · simp only [Option.bind_eq_bind, Option.bind_eq_some_iff, Prod.exists]
        refine ⟨sign, _, scanSign_eq_some_iff.mpr rfl, hours, _,
          scan_zero_eq_some_iff.mpr ⟨hh, rfl⟩, _, scanChar_eq_some_iff.mpr rfl, minutes, [],
          scan_zero_eq_some_iff.mpr ⟨hm, by simp⟩, ?_⟩
        rw [dif_pos ⟨hours.isLt, minutes.isLt⟩, if_pos rfl]

theorem Offset.exists_cons (o : Offset) :
    ∃ c rest, o.chars = c :: rest ∧ c.isDigit = false ∧ c ≠ '.' := by
  cases o with
  | upperZ => exact ⟨'Z', [], rfl, by decide, by decide⟩
  | lowerZ => exact ⟨'z', [], rfl, by decide, by decide⟩
  | signed sign hours minutes =>
    refine ⟨sign.char, _, rfl, ?_, ?_⟩ <;> cases sign <;> decide

end Scanner

/-- `chrono::DateTime::parse_from_rfc3339`. -/
def parseFromRfc3339 (s : String) : Option Timestamp := do
  let ((year, month, day), cs) ← scanTriple 4 '-' s.toList
  let (separator, cs) ← scanSeparator cs
  let ((hour, minute, second), cs) ← scanTriple 2 ':' cs
  let (fraction, cs) ← scanFraction cs
  let offset ← scanOffset cs
  if h : year < 10000 ∧ 1 ≤ month ∧ month ≤ 12 ∧ 1 ≤ day ∧
      (day : ℤ) ≤ daysInMonth year month ∧ hour < 24 ∧ minute < 60 ∧ second ≤ 60 then
    some ⟨year, month, day, separator, hour, minute, second, fraction, offset, h⟩
  else none

theorem parseFromRfc3339_eq_some_iff {s : String} {t : Timestamp} :
    parseFromRfc3339 s = some t ↔ t.text = s := by
  constructor
  · intro h
    simp only [parseFromRfc3339, Option.bind_eq_bind, Option.bind_eq_some_iff, Prod.exists] at h
    obtain ⟨_, _, _, _, hdate, _, _, hsep, _, _, _, _, htime, _, _, hfraction, _, hoffset, h⟩ := h
    split_ifs at h
    cases h
    obtain rfl := scanOffset_eq_some_iff.mp hoffset
    obtain rfl := chars_of_scanFraction hfraction
    obtain ⟨-, rfl⟩ := scanTriple_eq_some_iff.mp htime
    obtain rfl := scanSeparator_eq_some_iff.mp hsep
    obtain ⟨-, hs⟩ := scanTriple_eq_some_iff.mp hdate
    apply String.toList_injective
    rw [hs]
    exact String.toList_ofList
  · rintro rfl
    obtain ⟨hy, -, hm, -, -, hh, hmi, hsec⟩ := t.inRange
    obtain ⟨c, rest, hc, hdigit, hpoint⟩ := t.offset.exists_cons
    simp only [parseFromRfc3339, Option.bind_eq_bind, Option.bind_eq_some_iff, Prod.exists]
    refine ⟨t.year, t.month, t.day, _, scanTriple_eq_some_iff.mpr
      ⟨⟨hy, by omega, t.day_lt⟩, String.toList_ofList⟩, t.separator, _,
      scanSeparator_eq_some_iff.mpr rfl, t.hour, t.minute, t.second, _,
      scanTriple_eq_some_iff.mpr ⟨⟨by omega, by omega, by omega⟩, rfl⟩, t.fraction,
      t.offset.chars, ?_, t.offset, scanOffset_eq_some_iff.mpr rfl, dif_pos t.inRange⟩
    rw [Timestamp.tailChars, hc]
    exact scanFraction_chars t.fraction hdigit hpoint

example : (parseFromRfc3339 "2026-01-01T00:00:00.5+02:00").map Timestamp.text =
    some "2026-01-01T00:00:00.5+02:00" := by decide +kernel
example : (parseFromRfc3339 "2026-02-29T00:00:00Z").isNone := by decide +kernel

end Munarium
