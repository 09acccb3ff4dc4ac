import Munarium.Evidence.Rfc3339

/-! When the order of two timestamps as texts is the order of the instants they denote.
A shape is what a writer of timestamps fixes once: the separator, the number of fraction
digits and the offset as it is spelled. -/
namespace Munarium

open Digits

theorem fixed_append_le_iff {width a b : ℕ} (ha : a < 10 ^ width) (hb : b < 10 ^ width)
    (x y : List Char) :
    fixed width a ++ x ≤ fixed width b ++ y ↔ a < b ∨ a = b ∧ x ≤ y := by
  rw [append_le_append_iff (by simp), fixed_lt_iff ha hb, fixed_inj ha hb]

theorem cons_self_le_iff {c : Char} {x y : List Char} : c :: x ≤ c :: y ↔ x ≤ y := by
  simp [Digits.cons_le_cons_iff]

theorem triple_append_le_iff {width a b c a' b' c' : ℕ} {mark : Char}
    (ha : a < 10 ^ width) (ha' : a' < 10 ^ width) (hb : b < 100) (hb' : b' < 100)
    (hc : c < 100) (hc' : c' < 100) (x y : List Char) :
    triple width mark a b c ++ x ≤ triple width mark a' b' c' ++ y ↔
      a < a' ∨ a = a' ∧ (b < b' ∨ b = b' ∧ (c < c' ∨ c = c' ∧ x ≤ y)) := by
  have hmiddle (x y : List Char) := @fixed_append_le_iff 2 b b' hb hb' x y
  have hlast (x y : List Char) := @fixed_append_le_iff 2 c c' hc hc' x y
  simp only [triple, List.append_assoc, List.cons_append]
  rw [fixed_append_le_iff ha ha', cons_self_le_iff, hmiddle, cons_self_le_iff, hlast]

theorem dayNumber_le_monthEnd {year : ℤ} {month day : ℕ}
    (h : (day : ℤ) ≤ daysInMonth year month) :
    dayNumber year month day ≤
      daysBeforeYear year + daysBeforeMonth (month + 1) + leapDay year (month + 1) := by
  unfold daysInMonth at h
  unfold dayNumber
  omega

theorem daysBeforeYear_leap (year : ℤ) {m : ℕ} (h : 2 < m) :
    daysBeforeYear year + 365 + leapDay year m = daysBeforeYear (year + 1) := by
  unfold leapDay isLeapYear daysBeforeYear
  simp only [h, true_and, Bool.and_eq_true, Bool.or_eq_true, beq_iff_eq, bne_iff_ne, ne_eq]
  split_ifs <;> omega

/-- Dates in lexicographic order have ascending day numbers. -/
theorem dayNumber_lt {y y' : ℤ} {m m' d d' : ℕ} (hm : 1 ≤ m) (hm₂ : m ≤ 12) (hm' : 1 ≤ m')
    (hm₂' : m' ≤ 12) (hd : (d : ℤ) ≤ daysInMonth y m) (hd' : 1 ≤ d')
    (h : y < y' ∨ y = y' ∧ (m < m' ∨ m = m' ∧ d < d')) :
    dayNumber y m d < dayNumber y' m' d' := by
  have hend := dayNumber_le_monthEnd hd
  have hleap' := leapDay_bounds y' m'
  have hstart : 0 ≤ daysBeforeMonth m' := daysBeforeMonth_mono le_rfl hm' hm₂'
  rcases h with hy | ⟨rfl, hm | ⟨rfl, hd⟩⟩
  · have hyear : daysBeforeYear y + daysBeforeMonth (m + 1) + leapDay y (m + 1) ≤
        daysBeforeYear (y + 1) := by
      have hl := daysBeforeYear_leap y (m := 13) (by omega)
      have hmono := leapDay_mono y (m := m + 1) (n := 13) (by omega)
      have hmonth : daysBeforeMonth (m + 1) ≤ 365 := by
        interval_cases m <;> simp [daysBeforeMonth]
      omega
    have hnext := daysBeforeYear_mono (show y + 1 ≤ y' by omega)
    unfold dayNumber
    unfold dayNumber at hend
    omega
  · have hmonth := daysBeforeMonth_mono (m := m + 1) (n := m') (by omega) (by omega) hm₂'
    have hleap := leapDay_mono y (m := m + 1) (n := m') (by omega)
    unfold dayNumber
    unfold dayNumber at hend
    omega
  · unfold dayNumber
    omega

namespace Timestamp

/-- The place of a timestamp's written second among all written seconds. A minute has
room for a leap second. -/
def rank (t : Timestamp) : ℤ := t.localMinute * 61 + t.second

theorem date_lt_iff (t u : Timestamp) :
    (t.year < u.year ∨ t.year = u.year ∧
        (t.month < u.month ∨ t.month = u.month ∧ t.day < u.day)) ↔
      dayNumber t.year t.month t.day < dayNumber u.year u.month u.day := by
  obtain ⟨-, hm, hm₂, hd, hd₂, -⟩ := t.inRange
  obtain ⟨-, hm', hm₂', hd', hd₂', -⟩ := u.inRange
  constructor
  · intro h
    exact dayNumber_lt hm hm₂ hm' hm₂' hd₂ hd' (by simpa using h)
  · intro h
    by_contra hn
    have hle : dayNumber u.year u.month u.day ≤ dayNumber t.year t.month t.day := by
      by_cases he : u.year = t.year ∧ u.month = t.month ∧ u.day = t.day
      · rw [he.1, he.2.1, he.2.2]
      · apply (dayNumber_lt hm' hm₂' hm hm₂ hd₂' hd _).le
        omega
    omega

/-- One separator: texts compare by the written second, then by what follows it. -/
theorem text_le_iff_of_separator {t u : Timestamp} (h : t.separator = u.separator) :
    t.text ≤ u.text ↔ t.rank < u.rank ∨ t.rank = u.rank ∧ t.tailChars ≤ u.tailChars := by
  have hdate := date_lt_iff t u
  have hdate' := date_lt_iff u t
  obtain ⟨hy, -, hm, -, -, hh, hmi, hs⟩ := t.inRange
  obtain ⟨hy', -, hm', -, -, hh', hmi', hs'⟩ := u.inRange
  have hd := t.day_lt
  have hd' := u.day_lt
  rw [String.le_iff_toList_le, text, text, String.toList_ofList, String.toList_ofList, chars,
    chars, h, triple_append_le_iff hy hy' (by omega) (by omega) hd hd', cons_self_le_iff,
    triple_append_le_iff (by omega) (by omega) (by omega) (by omega) (by omega) (by omega)]
  have heq (he : t.year = u.year ∧ t.month = u.month ∧ t.day = u.day) :
      dayNumber t.year t.month t.day = dayNumber u.year u.month u.day := by
    rw [he.1, he.2.1, he.2.2]
  unfold rank localMinute
  by_cases htail : t.tailChars ≤ u.tailChars
  · simp only [htail, and_true]
    omega
  · simp only [htail, and_false, or_false]
    omega

theorem rank_bounds (t : Timestamp) : t.localMinute * 61 ≤ t.rank ∧
    t.rank ≤ t.localMinute * 61 + 60 := by
  have := t.inRange
  unfold rank
  omega

/-- One offset: instants compare by the written second, then by the fraction. -/
theorem instant_le_iff_of_offset {t u : Timestamp} (h : t.offset.minutes = u.offset.minutes) :
    t.instant ≤ u.instant ↔ t.rank < u.rank ∨
      t.rank = u.rank ∧ Digits.fraction t.fraction ≤ Digits.fraction u.fraction := by
  obtain ⟨hf0, hf1⟩ := fraction_bounds t.fraction
  obtain ⟨hg0, hg1⟩ := fraction_bounds u.fraction
  have hs := t.inRange.2.2.2.2.2.2.2
  have hs' := u.inRange.2.2.2.2.2.2.2
  have hmin : (t.second = 60 ∧ min t.second 59 = 59) ∨
      (t.second < 60 ∧ min t.second 59 = t.second) := by omega
  have hmin' : (u.second = 60 ∧ min u.second 59 = 59) ∨
      (u.second < 60 ∧ min u.second 59 = u.second) := by omega
  unfold instant rank
  rw [Prod.Lex.le_iff, h]
  simp only [ofLex_toLex]
  generalize min t.second 59 = a at hmin ⊢
  generalize min u.second 59 = b at hmin' ⊢
  rcases hmin with ⟨hl, rfl⟩ | ⟨hl, rfl⟩ <;> rcases hmin' with ⟨hl', rfl⟩ | ⟨hl', rfl⟩
  · simp only [hl, hl', if_true, add_le_add_iff_right]
    by_cases hf : Digits.fraction t.fraction ≤ Digits.fraction u.fraction <;>
      simp only [hf, and_true, and_false, or_false] <;> omega
  · have hgt : ¬ Digits.fraction t.fraction + 1 ≤ Digits.fraction u.fraction := by linarith
    simp only [hl, hl'.ne, if_true, if_false, add_zero, hgt, and_false, or_false]
    omega
  · have hle : Digits.fraction t.fraction + 0 ≤ Digits.fraction u.fraction + 1 := by linarith
    simp only [hl', hl.ne, if_true, if_false, hle, and_true]
    omega
  · simp only [hl.ne, hl'.ne, if_false, add_zero]
    by_cases hf : Digits.fraction t.fraction ≤ Digits.fraction u.fraction <;>
      simp only [hf, and_true, and_false, or_false] <;> omega

end Timestamp

theorem Separator.char_injective : Function.Injective Separator.char := by
  intro a b h
  cases a <;> cases b <;> first | rfl | exact absurd h (by decide)

/-- What one writer's timestamps have in common. -/
structure Shape where
  separator : Separator
  fractionDigits : ℕ
  offset : Offset

def Timestamp.shape (t : Timestamp) : Shape := ⟨t.separator, t.fraction.length, t.offset⟩

/-- Text order decides instants for two shapes that agree on separator and offset, and
whose tails sort as the fractions do: equally long fractions before spellings in order,
or a shorter fraction before an ASCII sign, which sorts below every digit. -/
def Shape.Compatible (σ τ : Shape) : Prop :=
  σ.separator = τ.separator ∧ σ.offset.minutes = τ.offset.minutes ∧
    (σ.fractionDigits = τ.fractionDigits ∧ σ.offset.chars ≤ τ.offset.chars ∨
      σ.fractionDigits < τ.fractionDigits ∧ ∃ c rest, σ.offset.chars = c :: rest ∧ c < '.')

theorem lt_zero_of_lt_point {c : Char} (h : c < '.') : c < '0' := h.trans (by decide)

theorem Timestamp.tail_le_iff {t u : Timestamp} (h : t.shape.Compatible u.shape) :
    t.tailChars ≤ u.tailChars ↔ Digits.fraction t.fraction ≤ Digits.fraction u.fraction := by
  obtain ⟨-, -, hlen⟩ := h
  simp only [shape] at hlen
  unfold tailChars
  cases ht : t.fraction with
  | nil =>
    have hf : Digits.fraction [] ≤ Digits.fraction u.fraction := (fraction_bounds u.fraction).1
    refine iff_of_true ?_ hf
    rw [ht] at hlen
    rcases hlen with ⟨hn, hle⟩ | ⟨hn, c, rest, hc, hpoint⟩
    · rw [List.length_eq_zero_iff.mp hn.symm]
      exact hle
    · cases hu : u.fraction with
      | nil => simp [hu] at hn
      | cons e es =>
        rw [hc]
        exact Digits.cons_le_cons_iff.mpr (.inl hpoint)
  | cons d ds =>
    cases hu : u.fraction with
    | nil => simp [ht, hu] at hlen
    | cons e es =>
      simp only [fractionChars, List.cons_append, cons_self_le_iff]
      apply chars_append_le_iff
      rw [ht, hu] at hlen
      rcases hlen with hlen | ⟨hn, c, rest, hc, hpoint⟩
      · exact .inl hlen
      · exact .inr ⟨hn, c, rest, hc, lt_zero_of_lt_point hpoint⟩

theorem Timestamp.text_le_iff {t u : Timestamp} (h : t.shape.Compatible u.shape) :
    t.text ≤ u.text ↔ t.instant ≤ u.instant := by
  rw [text_le_iff_of_separator h.1, instant_le_iff_of_offset h.2.1, tail_le_iff h]

/-- A timestamp of a given shape on one of two neighbouring days. -/
def Shape.at (σ : Shape) (day hour minute second : ℕ) (digit : Fin 10)
    (h : (1 ≤ day ∧ day ≤ 2) ∧ hour < 24 ∧ minute < 60 ∧ second < 60) : Timestamp where
  year := 2026
  month := 1
  day := day
  separator := σ.separator
  hour := hour
  minute := minute
  second := second
  fraction := List.replicate σ.fractionDigits digit
  offset := σ.offset
  inRange := by
    have hdays : daysInMonth 2026 1 = 31 := by decide
    simp only [Nat.cast_ofNat, hdays]
    omega

/-- No offset begins inside the range from the point to the last digit. -/
theorem Offset.head (o : Offset) :
    ∃ c rest, o.chars = c :: rest ∧ (c < '.' ∨ '9' < c) := by
  cases o with
  | upperZ => exact ⟨'Z', [], rfl, .inr (by decide)⟩
  | lowerZ => exact ⟨'z', [], rfl, .inr (by decide)⟩
  | signed sign hours minutes =>
    refine ⟨sign.char, _, rfl, ?_⟩
    cases sign <;> decide

theorem fractionChars_replicate {f g : ℕ} (h : f < g) (d : Fin 10) :
    ∃ x rest, Timestamp.fractionChars (List.replicate g d) =
      Timestamp.fractionChars (List.replicate f d) ++ x :: rest ∧
      (x = '.' ∨ x = Nat.digitChar d.val) := by
  obtain ⟨k, rfl⟩ : ∃ k, g = f + (k + 1) := ⟨g - f - 1, by omega⟩
  cases f with
  | zero => exact ⟨'.', Digits.chars (d :: List.replicate k d),
      by simp [List.replicate_succ, Timestamp.fractionChars], .inl rfl⟩
  | succ f =>
    refine ⟨Nat.digitChar d.val, Digits.chars (List.replicate k d), ?_, .inr rfl⟩
    rw [List.replicate_add]
    simp [List.replicate_succ, Timestamp.fractionChars, Digits.chars]

theorem fraction_replicate_lt {f g : ℕ} (h : f < g) :
    Digits.fraction (List.replicate f 9) < Digits.fraction (List.replicate g 9) := by
  induction f generalizing g with
  | zero =>
    obtain ⟨k, rfl⟩ : ∃ k, g = k + 1 := ⟨g - 1, by omega⟩
    have := (fraction_bounds (List.replicate k 9)).1
    rw [List.replicate_succ, List.replicate_zero, Digits.fraction, Digits.fraction]
    have h9 : ((9 : Fin 10).val : ℚ) = 9 := by norm_num
    rw [h9]
    positivity
  | succ f ih =>
    obtain ⟨k, rfl⟩ : ∃ k, g = k + 1 := ⟨g - 1, by omega⟩
    have hlt := ih (g := k) (by omega)
    rw [List.replicate_succ, List.replicate_succ, Digits.fraction, Digits.fraction]
    linarith

namespace Shape

theorem at_shape (σ : Shape) {day hour minute second : ℕ} {digit : Fin 10}
    (h : (1 ≤ day ∧ day ≤ 2) ∧ hour < 24 ∧ minute < 60 ∧ second < 60) :
    (σ.at day hour minute second digit h).shape = σ := by
  simp [Shape.at, Timestamp.shape]

theorem at_instant (σ : Shape) {day hour minute second : ℕ} {digit : Fin 10}
    (h : (1 ≤ day ∧ day ≤ 2) ∧ hour < 24 ∧ minute < 60 ∧ second < 60) :
    (σ.at day hour minute second digit h).instant =
      toLex ((((dayNumber 2026 1 0 + day) * 24 + hour) * 60 + minute - σ.offset.minutes) * 60 +
        second, Digits.fraction (List.replicate σ.fractionDigits digit)) := by
  have hmin : min second 59 = second := by omega
  simp only [Timestamp.instant, Timestamp.localMinute, Shape.at, dayNumber, hmin, h.2.2.2.ne,
    if_false, add_zero, Nat.cast_zero, Nat.cast_ofNat]

/-- Timestamps on one side of midnight and the other, in their text order. -/
theorem at_text_lt (σ τ : Shape) (d e : Fin 10) :
    (σ.at 1 23 59 59 d (by omega)).text < (τ.at 2 0 0 0 e (by omega)).text := by
  rw [String.lt_iff_toList_lt, Timestamp.text, Timestamp.text, String.toList_ofList,
    String.toList_ofList, ← not_le]
  unfold Timestamp.chars
  rw [triple_append_le_iff (by simp [Shape.at]) (by simp [Shape.at]) (by simp [Shape.at])
    (by simp [Shape.at]) (by simp [Shape.at]) (by simp [Shape.at])]
  simp [Shape.at]

/-- On one day the separator decides before the time of day does. -/
theorem at_text_le_of_separator {σ τ : Shape} (h : σ.separator.char < τ.separator.char)
    {hour minute second hour' minute' second' : ℕ} (d e : Fin 10)
    (ht : hour < 24 ∧ minute < 60 ∧ second < 60)
    (hu : hour' < 24 ∧ minute' < 60 ∧ second' < 60) :
    (σ.at 1 hour minute second d (by omega)).text <
      (τ.at 1 hour' minute' second' e (by omega)).text := by
  rw [String.lt_iff_toList_lt, Timestamp.text, Timestamp.text, String.toList_ofList,
    String.toList_ofList]
  unfold Timestamp.chars
  rw [append_lt_append_iff (by simp [triple, Shape.at])]
  refine .inr ⟨rfl, ?_⟩
  exact List.cons_lt_cons_iff.mpr (.inl h)

theorem offset_eq_of_agree {σ τ : Shape}
    (h : ∀ t u : Timestamp, t.shape = σ → u.shape = τ →
      (t.text ≤ u.text ↔ t.instant ≤ u.instant)) :
    σ.offset.minutes = τ.offset.minutes := by
  rcases lt_trichotomy σ.offset.minutes τ.offset.minutes with hlt | heq | hgt
  · have hle := (h _ _ (at_shape σ _) (at_shape τ _)).mp (at_text_lt σ τ 0 0).le
    rw [at_instant, at_instant, Prod.Lex.le_iff] at hle
    simp only [ofLex_toLex, fraction_replicate_zero] at hle
    omega
  · exact heq
  · have hnot := mt (h (σ.at 2 0 0 0 0 (by omega)) (τ.at 1 23 59 59 0 (by omega))
      (at_shape σ _) (at_shape τ _)).mpr (not_le.mpr (at_text_lt τ σ 0 0))
    rw [at_instant, at_instant, Prod.Lex.le_iff] at hnot
    simp only [ofLex_toLex, fraction_replicate_zero] at hnot
    omega

theorem separator_eq_of_agree {σ τ : Shape}
    (h : ∀ t u : Timestamp, t.shape = σ → u.shape = τ →
      (t.text ≤ u.text ↔ t.instant ≤ u.instant)) :
    σ.separator = τ.separator := by
  have hoffset := offset_eq_of_agree h
  apply Separator.char_injective
  by_contra hne
  rcases lt_or_gt_of_ne hne with hlt | hgt
  · have hle := (h (σ.at 1 0 0 1 0 (by omega)) (τ.at 1 0 0 0 0 (by omega))
      (at_shape σ _) (at_shape τ _)).mp
      (at_text_le_of_separator hlt 0 0 (by omega) (by omega)).le
    rw [at_instant, at_instant, Prod.Lex.le_iff] at hle
    simp only [ofLex_toLex, fraction_replicate_zero] at hle
    omega
  · have hnot := mt (h (σ.at 1 0 0 0 0 (by omega)) (τ.at 1 0 0 1 0 (by omega))
      (at_shape σ _) (at_shape τ _)).mpr
      (not_le.mpr (at_text_le_of_separator hgt 0 0 (by omega) (by omega)))
    rw [at_instant, at_instant, Prod.Lex.le_iff] at hnot
    simp only [ofLex_toLex, fraction_replicate_zero] at hnot
    omega

/-- In one written second only the tails and the fractions are left to compare. -/
theorem tail_le_iff_of_agree {σ τ : Shape}
    (h : ∀ t u : Timestamp, t.shape = σ → u.shape = τ →
      (t.text ≤ u.text ↔ t.instant ≤ u.instant)) (d e : Fin 10) :
    Timestamp.fractionChars (List.replicate σ.fractionDigits d) ++ σ.offset.chars ≤
        Timestamp.fractionChars (List.replicate τ.fractionDigits e) ++ τ.offset.chars ↔
      Digits.fraction (List.replicate σ.fractionDigits d) ≤
        Digits.fraction (List.replicate τ.fractionDigits e) := by
  have hagree := h (σ.at 1 0 0 0 d (by omega)) (τ.at 1 0 0 0 e (by omega))
    (at_shape σ _) (at_shape τ _)
  rw [Timestamp.text_le_iff_of_separator (separator_eq_of_agree h),
    Timestamp.instant_le_iff_of_offset (offset_eq_of_agree h)] at hagree
  simpa [Timestamp.rank, Timestamp.localMinute, Shape.at, Timestamp.tailChars] using hagree

theorem compatible_of_agree {σ τ : Shape}
    (h : ∀ t u : Timestamp, t.shape = σ → u.shape = τ →
      (t.text ≤ u.text ↔ t.instant ≤ u.instant)) : σ.Compatible τ := by
  have htail := tail_le_iff_of_agree h
  have hzero := (htail 0 0).mpr (by simp)
  refine ⟨separator_eq_of_agree h, offset_eq_of_agree h, ?_⟩
  rcases lt_trichotomy σ.fractionDigits τ.fractionDigits with hlt | heq | hgt
  · obtain ⟨c, rest, hc, hhead⟩ := σ.offset.head
    obtain ⟨x, more, hx, hxs⟩ := fractionChars_replicate hlt 0
    rw [hx, List.append_assoc, append_le_append_iff rfl, hc, List.cons_append] at hzero
    have hcx : c < x ∨ c = x := by
      rcases hzero with hself | ⟨-, hle⟩
      · exact absurd hself (lt_irrefl _)
      · exact (Digits.cons_le_cons_iff.mp hle).imp_right And.left
    refine .inr ⟨hlt, c, rest, hc, hhead.resolve_right ?_⟩
    intro hnine
    have hx9 : x ≤ '9' := by rcases hxs with rfl | rfl <;> decide
    exact absurd (hcx.elim le_of_lt le_of_eq) (not_le.mpr (hx9.trans_lt hnine))
  · rw [heq, append_le_append_iff rfl] at hzero
    exact .inl ⟨heq, hzero.resolve_left (lt_irrefl _) |>.2⟩
  · exfalso
    obtain ⟨c, rest, hc, hhead⟩ := τ.offset.head
    obtain ⟨x, more, hx, hxs⟩ := fractionChars_replicate hgt 0
    obtain ⟨y, more', hy, hys⟩ := fractionChars_replicate hgt 9
    have hnine := mt (htail 9 9).mp (not_le.mpr (fraction_replicate_lt hgt))
    rw [hx, List.append_assoc, append_le_append_iff rfl, hc, List.cons_append] at hzero
    rw [hy, List.append_assoc, append_le_append_iff rfl, hc, List.cons_append] at hnine
    have hxc : x ≤ c := by
      rcases hzero with hself | ⟨-, hle⟩
      · exact absurd hself (lt_irrefl _)
      · exact (Digits.cons_le_cons_iff.mp hle).elim le_of_lt fun he => he.1.le
    have hpoint : '.' ≤ x := by rcases hxs with rfl | rfl <;> decide
    have hc9 : '9' < c := hhead.resolve_left (not_lt.mpr (hpoint.trans hxc))
    have hyc : y < c := by
      have hy9 : y ≤ '9' := by rcases hys with rfl | rfl <;> decide
      exact hy9.trans_lt hc9
    exact hnine (.inr ⟨rfl, Digits.cons_le_cons_iff.mpr (.inl hyc)⟩)

/-- Two shapes are compatible exactly when text order is the order of instants for every
two timestamps of these shapes. -/
theorem compatible_iff (σ τ : Shape) :
    (∀ t u : Timestamp, t.shape = σ → u.shape = τ →
      (t.text ≤ u.text ↔ t.instant ≤ u.instant)) ↔ σ.Compatible τ := by
  constructor
  · exact compatible_of_agree
  · rintro h t u rfl rfl
    exact Timestamp.text_le_iff h

end Shape

end Munarium
