import Mathlib.Tactic.FieldSimp
import Munarium.Core.CommonBlocks
import Munarium.Std.Float
import Munarium.Std.Rounding

/-! The similarity ratio is a ratio: no more characters match than a text has, and all of both
match only where the texts are equal. -/
namespace Munarium

namespace Similarity
variable {a b : List Char}

/-- The recursion of the source. -/
theorem matchingChars_eq (a b : List Char) : matchingChars a b =
    if a = [] ∨ b = [] ∨ (longestMatch a b).len = 0 then 0
    else (longestMatch a b).len +
      matchingChars (a.take (longestMatch a b).aStart) (b.take (longestMatch a b).bStart) +
      matchingChars (a.drop ((longestMatch a b).aStart + (longestMatch a b).len))
        (b.drop ((longestMatch a b).bStart + (longestMatch a b).len)) := by
  rw [matchingChars]
  by_cases ha : a = []
  · simp [ha]
  by_cases hb : b = []
  · simp [hb]
  by_cases hlen : (longestMatch a b).len = 0
  · simp [ha, hb, hlen]
  · simp [ha, hb, hlen]

theorem matchingChars_of_eq_zero (h : (longestMatch a b).len = 0) : matchingChars a b = 0 := by
  rw [matchingChars_eq, if_pos (.inr (.inr h))]

/-- Where a block is found, it counts with what is matched on both sides of it. -/
theorem matchingChars_of_pos (h : 0 < (longestMatch a b).len) : matchingChars a b =
    (longestMatch a b).len +
      matchingChars (a.take (longestMatch a b).aStart) (b.take (longestMatch a b).bStart) +
      matchingChars (a.drop ((longestMatch a b).aStart + (longestMatch a b).len))
        (b.drop ((longestMatch a b).bStart + (longestMatch a b).len)) := by
  have hcommon := (longestMatch_firstLongest a b).common
  have ha : a ≠ [] := by
    rintro rfl
    have := hcommon.inFirst
    simp only [List.length_nil] at this
    omega
  have hb : b ≠ [] := by
    rintro rfl
    have := hcommon.inSecond
    simp only [List.length_nil] at this
    omega
  rw [matchingChars_eq, if_neg (by simp [ha, hb, h.ne'])]

/-- No more characters match than either text has. -/
theorem matchingChars_le (a b : List Char) :
    matchingChars a b ≤ a.length ∧ matchingChars a b ≤ b.length := by
  induction hn : a.length using Nat.strong_induction_on generalizing a b with
  | h n ih =>
    rcases Nat.eq_zero_or_pos (longestMatch a b).len with hzero | hpos
    · rw [matchingChars_of_eq_zero hzero]
      exact ⟨Nat.zero_le _, Nat.zero_le _⟩
    · have hcommon := (longestMatch_firstLongest a b).common
      have hfirst := hcommon.inFirst
      have hsecond := hcommon.inSecond
      obtain ⟨hleft, hleft'⟩ := ih _ (by rw [List.length_take]; omega)
        (a.take (longestMatch a b).aStart) (b.take (longestMatch a b).bStart) rfl
      obtain ⟨hright, hright'⟩ := ih _ (by rw [List.length_drop]; omega)
        (a.drop ((longestMatch a b).aStart + (longestMatch a b).len))
        (b.drop ((longestMatch a b).bStart + (longestMatch a b).len)) rfl
      simp only [List.length_take, List.length_drop] at hleft hleft' hright hright'
      rw [matchingChars_of_pos hpos]
      omega

/-- A text matches itself in one block. -/
theorem matchingChars_self (a : List Char) : matchingChars a a = a.length := by
  have hwhole : Common a a ⟨0, 0, a.length⟩ := ⟨by simp, by simp, rfl⟩
  have hfirst := longestMatch_firstLongest a a
  have hlong := hfirst.longest _ hwhole
  have hle := (matchingChars_le a a).1
  rcases Nat.eq_zero_or_pos (longestMatch a a).len with hzero | hpos
  · simp only at hlong
    omega
  · rw [matchingChars_of_pos hpos] at hle ⊢
    simp only at hlong
    omega

/-- Where all of both texts matches, they are equal. -/
theorem eq_of_matchingChars (ha : matchingChars a b = a.length)
    (hb : matchingChars a b = b.length) : a = b := by
  induction hn : a.length using Nat.strong_induction_on generalizing a b with
  | h n ih =>
    rcases Nat.eq_zero_or_pos (longestMatch a b).len with hzero | hpos
    · rw [matchingChars_of_eq_zero hzero] at ha hb
      rw [List.length_eq_zero_iff.mp ha.symm, List.length_eq_zero_iff.mp hb.symm]
    · obtain ⟨hfirst, hsecond, hsame⟩ := (longestMatch_firstLongest a b).common
      rw [matchingChars_of_pos hpos] at ha hb
      obtain ⟨hleft, hleft'⟩ := matchingChars_le (a.take (longestMatch a b).aStart)
        (b.take (longestMatch a b).bStart)
      obtain ⟨hright, hright'⟩ := matchingChars_le
        (a.drop ((longestMatch a b).aStart + (longestMatch a b).len))
        (b.drop ((longestMatch a b).bStart + (longestMatch a b).len))
      have hbefore : a.take (longestMatch a b).aStart = b.take (longestMatch a b).bStart := by
        apply ih _ _ _ _ rfl
        all_goals
          simp only [List.length_take, List.length_drop] at *
          omega
      have hafter : a.drop ((longestMatch a b).aStart + (longestMatch a b).len) =
          b.drop ((longestMatch a b).bStart + (longestMatch a b).len) := by
        apply ih _ _ _ _ rfl
        all_goals
          simp only [List.length_take, List.length_drop] at *
          omega
      have hparts (l : List Char) (i k : ℕ) :
          l = l.take i ++ ((l.drop i).take k ++ l.drop (i + k)) := by
        rw [← List.drop_drop, List.take_append_drop, List.take_append_drop]
      rw [hparts a (longestMatch a b).aStart (longestMatch a b).len, hbefore, hsame, hafter,
        ← hparts b]

/-- A part of a whole is all of it only if the two numbers agree. -/
theorem div_eq_one_iff {m n : ℕ} (hn : 0 < n) : (m : ℚ) / n = 1 ↔ m = n := by
  have hne : (n : ℚ) ≠ 0 := by exact_mod_cast hn.ne'
  rw [div_eq_one_iff_eq hne]
  exact Nat.cast_inj

/-- All characters of two texts match exactly if they are equal. -/
theorem twice_matchingChars (a b : List Char) :
    2 * matchingChars a b ≤ a.length + b.length ∧
      (2 * matchingChars a b = a.length + b.length ↔ a = b) := by
  obtain ⟨ha, hb⟩ := matchingChars_le a b
  refine ⟨by omega, ?_, ?_⟩
  · intro hall
    exact eq_of_matchingChars (by omega) (by omega)
  · rintro rfl
    rw [matchingChars_self]
    omega

theorem length_eq_zero (h : a.length + b.length = 0) : a = [] ∧ b = [] := by
  rw [← List.length_eq_zero_iff, ← List.length_eq_zero_iff]
  omega

section Ratio
open Rounding
variable [Unicode]

/-- The ratio as the source computes it, every operation on `f64` rounded. -/
def similarityRatioF64 (a b : String) : F64 :=
  let a := (toLowercase a).toList
  let b := (toLowercase b).toList
  let total := a.length + b.length
  if total = 0 then .num 1
  else .num (double (double (2 * double (matchingChars a b : ℕ)) / double (total : ℕ)))

/-- The exact ratio lies between zero and one, and is one for equal texts alone. -/
theorem similarityRatio_bounds (a b : String) :
    0 ≤ similarityRatio a b ∧ similarityRatio a b ≤ 1 ∧
      (similarityRatio a b = 1 ↔ toLowercase a = toLowercase b) := by
  rw [similarityRatio]
  generalize hA : (toLowercase a).toList = A
  generalize hB : (toLowercase b).toList = B
  have hsame : toLowercase a = toLowercase b ↔ A = B := by
    rw [← hA, ← hB, String.toList_inj]
  obtain ⟨hle, hall⟩ := twice_matchingChars A B
  rw [hsame]
  split_ifs with hzero
  · obtain ⟨rfl, rfl⟩ := length_eq_zero hzero
    simp
  · have hpos : 0 < A.length + B.length := Nat.pos_of_ne_zero hzero
    refine ⟨by positivity, ?_, ?_⟩
    · rw [div_le_one (by exact_mod_cast hpos)]
      exact_mod_cast hle
    · rw [div_eq_one_iff hpos, hall]

/-- So does the ratio of the source, for texts that have fewer than `2 ^ 53` characters in all. -/
theorem similarityRatioF64_bounds (a b : String)
    (hlength : (toLowercase a).toList.length + (toLowercase b).toList.length < 2 ^ 53) :
    ∃ r, similarityRatioF64 a b = .num r ∧ 0 ≤ r ∧ r ≤ 1 ∧
      (r = 1 ↔ toLowercase a = toLowercase b) := by
  rw [similarityRatioF64]
  generalize hA : (toLowercase a).toList = A at *
  generalize hB : (toLowercase b).toList = B at *
  have hsame : toLowercase a = toLowercase b ↔ A = B := by
    rw [← hA, ← hB, String.toList_inj]
  obtain ⟨hle, hall⟩ := twice_matchingChars A B
  rw [hsame]
  split_ifs with hzero
  · obtain ⟨rfl, rfl⟩ := length_eq_zero hzero
    exact ⟨1, rfl, zero_le_one, le_rfl, by simp⟩
  · have hpos : 0 < A.length + B.length := Nat.pos_of_ne_zero hzero
    have htwice : (2 : ℚ) * (matchingChars A B : ℕ) = (2 * matchingChars A B : ℕ) := by
      push_cast
      rfl
    have hexact : double (double (2 * double (matchingChars A B : ℕ)) /
        double ((A.length + B.length : ℕ) : ℚ)) =
          double ((2 * matchingChars A B : ℕ) / ((A.length + B.length : ℕ) : ℚ)) := by
      rw [double_natCast (n := matchingChars A B) (by omega), htwice,
        double_natCast (n := 2 * matchingChars A B) (by omega), double_natCast hlength]
    refine ⟨_, rfl, ?_⟩
    rw [hexact]
    rcases hle.eq_or_lt with heq | hlt
    · have hone : ((2 * matchingChars A B : ℕ) : ℚ) / ((A.length + B.length : ℕ) : ℚ) = 1 :=
        (div_eq_one_iff hpos).mpr heq
      rw [hone, double_one]
      exact ⟨zero_le_one, le_rfl, iff_of_true rfl (hall.mp heq)⟩
    · have hbelow : double ((2 * matchingChars A B : ℕ) / ((A.length + B.length : ℕ) : ℚ)) < 1 := by
        rcases Nat.eq_zero_or_pos (matchingChars A B) with hnone | hsome
        · simp [hnone, double]
        · exact double_div_lt_one (by omega) hlt hlength
      exact ⟨double_nonneg (by positivity), hbelow.le,
        iff_of_false hbelow.ne fun h => hlt.ne (hall.mpr h)⟩

/-- The longest match is the first of the longest common blocks; what matches on both sides of it
adds up to no more than either text; and the ratio of the matched characters is between zero and
one, and one exactly for texts that are equal but for their case. -/
theorem similarity_is_ratio :
    (∀ a b, FirstLongest a b (longestMatch a b)) ∧
    (∀ a b, matchingChars a b = (if a = [] ∨ b = [] ∨ (longestMatch a b).len = 0 then 0
      else (longestMatch a b).len +
        matchingChars (a.take (longestMatch a b).aStart) (b.take (longestMatch a b).bStart) +
        matchingChars (a.drop ((longestMatch a b).aStart + (longestMatch a b).len))
          (b.drop ((longestMatch a b).bStart + (longestMatch a b).len))) ∧
      matchingChars a b ≤ min a.length b.length) ∧
    ∀ a b : String,
      (0 ≤ similarityRatio a b ∧ similarityRatio a b ≤ 1 ∧
        (similarityRatio a b = 1 ↔ toLowercase a = toLowercase b)) ∧
      ((toLowercase a).toList.length + (toLowercase b).toList.length < 2 ^ 53 →
        ∃ r, similarityRatioF64 a b = .num r ∧ 0 ≤ r ∧ r ≤ 1 ∧
          (r = 1 ↔ toLowercase a = toLowercase b)) := by
  refine ⟨longestMatch_firstLongest, ?_, ?_⟩
  · intro a b
    exact ⟨matchingChars_eq a b, le_min (matchingChars_le a b).1 (matchingChars_le a b).2⟩
  · intro a b
    exact ⟨similarityRatio_bounds a b, similarityRatioF64_bounds a b⟩

end Ratio

section
attribute [local instance] asciiUnicode

/-- Two spellings of one word are as similar as can be. -/
theorem similarity_is_ratio_of_spellings :
    similarityRatio "Eyes" "eyes" = 1 ∧ similarityRatioF64 "Eyes" "eyes" = .num 1 := by
  have hsame : toLowercase "Eyes" = toLowercase "eyes" := by decide +kernel
  obtain ⟨⟨-, -, hexact⟩, hrounded⟩ := similarity_is_ratio.2.2 "Eyes" "eyes"
  obtain ⟨r, hr, -, -, hone⟩ := hrounded (by decide +kernel)
  exact ⟨hexact.mpr hsame, by rw [hr, hone.mpr hsame]⟩

end
end Similarity
end Munarium
