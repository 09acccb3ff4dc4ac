import Mathlib.Algebra.Order.Floor.Ring
import Mathlib.Data.Int.Log
import Mathlib.Data.Rat.Floor
import Mathlib.Tactic.FieldSimp
import Mathlib.Tactic.Linarith
import Mathlib.Tactic.Positivity
import Mathlib.Tactic.Ring

/-! Rounding of positive numbers to 53 significant bits, ties to even, as the operations of `f64`
round wherever their results are normal numbers. -/
namespace Munarium

namespace Rounding

/-- The nearest integer, the even one of two. -/
def nearestEven (x : ℚ) : ℤ :=
  if x - ⌊x⌋ < 1 / 2 then ⌊x⌋
  else if 1 / 2 < x - ⌊x⌋ then ⌊x⌋ + 1
  else if 2 ∣ ⌊x⌋ then ⌊x⌋
  else ⌊x⌋ + 1

/-- The distance between the numbers of 53 significant bits around a number. -/
def ulp (q : ℚ) : ℚ := 2 ^ (Int.log 2 q - 52)

def double (q : ℚ) : ℚ := if q = 0 then 0 else nearestEven (q / ulp q) * ulp q

theorem nearestEven_le {x : ℚ} {n : ℤ} (h : x ≤ n) : nearestEven x ≤ n := by
  have hfloor : ⌊x⌋ ≤ n := Int.floor_le_iff.mpr (h.trans_lt (by linarith))
  have hnext (hpast : 1 / 2 ≤ x - ⌊x⌋) : ⌊x⌋ + 1 ≤ n := by
    have hne : ⌊x⌋ ≠ n := by
      intro heq
      rw [heq] at hpast
      linarith
    omega
  unfold nearestEven
  split_ifs with h1 h2 h3
  · exact hfloor
  · exact hnext h2.le
  · exact hfloor
  · exact hnext (not_lt.mp h1)

theorem le_nearestEven {x : ℚ} {n : ℤ} (h : (n : ℚ) ≤ x) : n ≤ nearestEven x := by
  have hfloor : n ≤ ⌊x⌋ := Int.le_floor.mpr h
  unfold nearestEven
  split_ifs
  all_goals omega

theorem ulp_pos (q : ℚ) : 0 < ulp q := zpow_pos (by norm_num) _

/-- Rounding does not pass a multiple of the distance. -/
theorem double_le {q r : ℚ} (hq : q ≠ 0) {n : ℤ} (hr : r = n * ulp q) (h : q ≤ r) :
    double q ≤ r := by
  have hpos := ulp_pos q
  have hle : q / ulp q ≤ n := by rwa [div_le_iff₀ hpos, ← hr]
  rw [double, if_neg hq, hr]
  exact mul_le_mul_of_nonneg_right (by exact_mod_cast nearestEven_le hle) hpos.le

theorem le_double {q r : ℚ} (hq : q ≠ 0) {n : ℤ} (hr : r = n * ulp q) (h : r ≤ q) :
    r ≤ double q := by
  have hpos := ulp_pos q
  have hle : (n : ℚ) ≤ q / ulp q := by rwa [le_div_iff₀ hpos, ← hr]
  rw [double, if_neg hq, hr]
  exact mul_le_mul_of_nonneg_right (by exact_mod_cast le_nearestEven hle) hpos.le

theorem double_nonneg {q : ℚ} (hq : 0 ≤ q) : 0 ≤ double q := by
  rcases hq.eq_or_lt with rfl | hpos
  · simp [double]
  · exact le_double hpos.ne' (n := 0) (by simp) hq

/-- A power of two that is no less than the distance is a multiple of it. -/
theorem zpow_eq_mul_ulp {q : ℚ} {k : ℤ} (h : Int.log 2 q - 52 ≤ k) :
    ∃ n : ℤ, (2 : ℚ) ^ k = n * ulp q := by
  obtain ⟨m, hm⟩ := Int.eq_ofNat_of_zero_le (sub_nonneg.mpr h)
  refine ⟨2 ^ m, ?_⟩
  rw [ulp, Int.cast_pow, Int.cast_ofNat, ← zpow_natCast, ← zpow_add₀ two_ne_zero, ← hm]
  congr 1
  omega

/-- Whole numbers below `2 ^ 53` are kept. -/
theorem double_natCast {n : ℕ} (hn : n < 2 ^ 53) : double (n : ℚ) = n := by
  rcases Nat.eq_zero_or_pos n with rfl | hpos
  · simp [double]
  have hne : (n : ℚ) ≠ 0 := by exact_mod_cast hpos.ne'
  have hlog : Int.log 2 (n : ℚ) ≤ 52 := by
    rw [Int.log_natCast]
    have hlt : Nat.log 2 n < 53 := Nat.log_lt_of_lt_pow hpos.ne' hn
    omega
  obtain ⟨k, hk⟩ := zpow_eq_mul_ulp (q := n) (k := 0) (by omega)
  have hmultiple : (n : ℚ) = ((n * k : ℤ) : ℚ) * ulp n := by
    push_cast
    rw [mul_assoc, ← hk, zpow_zero, mul_one]
  exact le_antisymm (double_le hne hmultiple le_rfl) (le_double hne hmultiple le_rfl)

theorem log_neg_of_lt_one {q : ℚ} (hq : 0 < q) (h : q < 1) : Int.log 2 q < 0 :=
  (Int.lt_zpow_iff_log_lt one_lt_two hq).mp (by simpa using h)

/-- A quotient of whole numbers below `2 ^ 53` that is below one stays below one. -/
theorem double_div_lt_one {m n : ℕ} (hm : 0 < m) (hmn : m < n) (hn : n < 2 ^ 53) :
    double ((m : ℚ) / n) < 1 := by
  have hn0 : (0 : ℚ) < n := by exact_mod_cast hm.trans hmn
  have hq : 0 < (m : ℚ) / n := div_pos (by exact_mod_cast hm) hn0
  have hbelow : (m : ℚ) / n ≤ 1 - 2 ^ (-53 : ℤ) := by
    rw [div_le_iff₀ hn0]
    have hstep : (m : ℚ) + 1 ≤ n := by exact_mod_cast hmn
    have hsmall : (n : ℚ) * 2 ^ (-53 : ℤ) ≤ 1 := by
      have hlt : (n : ℚ) ≤ 2 ^ 53 := by exact_mod_cast hn.le
      rw [zpow_neg, ← div_eq_mul_inv, div_le_one (by positivity)]
      exact_mod_cast hlt
    linarith
  have hlt : (m : ℚ) / n < 1 := hbelow.trans_lt (by norm_num)
  have hlog := log_neg_of_lt_one hq hlt
  obtain ⟨k, hk⟩ := zpow_eq_mul_ulp (q := (m : ℚ) / n) (k := 0) (by omega)
  obtain ⟨l, hl⟩ := zpow_eq_mul_ulp (q := (m : ℚ) / n) (k := -53) (by omega)
  have hmultiple : (1 : ℚ) - 2 ^ (-53 : ℤ) = ((k - l : ℤ) : ℚ) * ulp ((m : ℚ) / n) := by
    rw [hl, Int.cast_sub, sub_mul, ← hk, zpow_zero]
  exact (double_le hq.ne' hmultiple hbelow).trans_lt (by norm_num)

theorem double_one : double 1 = 1 := by
  simpa using double_natCast (n := 1) (by norm_num)

end Rounding
end Munarium
