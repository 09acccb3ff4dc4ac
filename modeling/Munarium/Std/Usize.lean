import Mathlib.Algebra.Group.Nat.Defs
import Mathlib.Tactic.Common

/-! Checked arithmetic of 64-bit sizes, held as natural numbers. -/
namespace Munarium

/-- `u64::checked_add`. -/
def checkedAdd (a b : ℕ) : Option ℕ := if a + b < 2 ^ 64 then some (a + b) else none

theorem checkedAdd_of_lt {a b : ℕ} (h : a + b < 2 ^ 64) : checkedAdd a b = some (a + b) :=
  if_pos h

/-- `usize::checked_mul`. -/
def checkedMul (a b : ℕ) : Option ℕ := if a * b < 2 ^ 64 then some (a * b) else none

theorem checkedMul_of_lt {a b : ℕ} (h : a * b < 2 ^ 64) : checkedMul a b = some (a * b) :=
  if_pos h

theorem checkedMul_eq_some {a b c : ℕ} (h : checkedMul a b = some c) : a * b = c := by
  unfold checkedMul at h
  split_ifs at h
  exact Option.some.inj h

end Munarium
